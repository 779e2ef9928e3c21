import PropertyFile.Proofs.Number.Indexes
import PropertyFile.Proofs.Number.Reading
import PropertyFile.Proofs.Text.Fields
import PropertyFile.Value.Text

namespace PropertyFile

open Number Text

namespace Value

/-- A character that stands inside a word: no blank, and nothing that parts components. -/
def InWord (c : Char) : Prop := isBlank c = false ∧ isComponentSep c = false

instance (c : Char) : Decidable (InWord c) := inferInstanceAs (Decidable (_ ∧ _))

theorem inWord_of_isDigit {c : Char} (h : isDigit c = true) : InWord c := by
  have hbounds := toNat_of_isDigit h
  refine ⟨?_, ?_⟩
  · simp only [isBlank, Bool.or_eq_false_iff, Bool.and_eq_false_iff, decide_eq_false_iff_not,
      beq_eq_false_iff_ne]
    omega
  · rw [isComponentSep, Bool.or_eq_false_iff, decide_eq_false_iff_not, decide_eq_false_iff_not]
    constructor <;> rintro rfl <;> exact absurd h (by decide)

theorem inWord_of_mem_single {x : Single} : ∀ c ∈ x.text.toList, InWord c := by
  have hmarks : (['-', '.', 'N', 'a', 'i', 'n', 'f'].all fun c ↦ decide (InWord c)) = true := by
    decide
  intro c hc
  rw [Single.text, String.toList_ofList] at hc
  rcases Format.mem_render Format.single hc with h | h
  · exact inWord_of_isDigit h
  · exact of_decide_eq_true (List.all_eq_true.mp hmarks c h)

theorem single_text_ne_nil {x : Single} (h : x.datum ≠ .nan) : x.text.toList ≠ [] := by
  intro hnil
  have hread := Single.read?_text h
  rw [hnil] at hread
  exact Option.some_ne_none _ hread.symm

theorem inWord_of_mem_int (i : Int) : ∀ c ∈ (toString i).toList, InWord c := by
  rw [← signed_digitChars, String.toList_ofList, signed]
  intro c hc
  split at hc
  · rcases List.mem_cons.mp hc with rfl | hmem
    · decide
    · exact inWord_of_isDigit (isDigit_of_mem_digitChars hmem)
  · exact inWord_of_isDigit (isDigit_of_mem_digitChars hc)

theorem readNat?_toString (n : Nat) : readNat? (toString n).toList = some n := by
  have hdigits := all_isDigit_digitChars n
  have hsign : ∀ rest, digitChars n = '+' :: rest → False := fun rest heq ↦
    absurd (hdigits '+' (heq ▸ List.mem_cons_self)) (by decide)
  have htext : (toString n).toList = digitChars n := Nat.toList_repr
  rw [htext, readNat?]
  · rw [if_pos ⟨Nat.toDigits_ne_nil, List.all_eq_true.mpr hdigits⟩, ofDigits_digitChars]
  · exact hsign

theorem readByte?_toString (n : UInt8) : readByte? (toString n.toNat).toList = some n := by
  rw [readByte?, readNat?_toString, Option.bind_some, if_pos n.toNat_lt, UInt8.ofNat_toNat]

theorem mapM_read?_text {xs : List Single} (h : ∀ x ∈ xs, x.datum ≠ .nan) :
    (xs.map fun x ↦ x.text.toList).mapM Single.read? = some xs := by
  induction xs with
  | nil => rfl
  | cons x xs ih =>
    rw [List.forall_mem_cons] at h
    rw [List.map_cons, List.mapM_cons, Single.read?_text h.1, ih h.2]
    rfl

theorem fields_componentsText {xs : List Single} (h : ∀ x ∈ xs, x.datum ≠ .nan) :
    fields isComponentSep (trim (componentsText xs).toList) = xs.map fun x ↦ x.text.toList := by
  have hwords : ∀ w ∈ xs.map fun x ↦ x.text.toList, w ≠ [] ∧ ∀ c ∈ w, InWord c := by
    intro w hw
    obtain ⟨x, hx, rfl⟩ := List.mem_map.mp hw
    exact ⟨single_text_ne_nil (h x hx), inWord_of_mem_single⟩
  have htext : (componentsText xs).toList = [' '].intercalate (xs.map fun x ↦ x.text.toList) := by
    rw [componentsText, String.toList_intercalate, List.map_map]
    rfl
  rw [htext, trim_intercalate fun w hw ↦ ⟨(hwords w hw).1, fun c hc ↦ ((hwords w hw).2 c hc).1⟩,
    fields_intercalate rfl fun w hw ↦ ⟨(hwords w hw).1, fun c hc ↦ ((hwords w hw).2 c hc).2⟩]

theorem ofText_componentsText {tag : Tag} {xs : List Single} {v : Value}
    (htag : tag.arity? = some xs.length) (hv : ofComponents? xs = some v)
    (h : ∀ x ∈ xs, x.datum ≠ .nan) : ofText (componentsText xs) tag = .ok v := by
  unfold ofText
  rw [htag]
  simp only [fields_componentsText h, mapM_read?_text h, if_pos, hv]

theorem accepts_of_ofComponents? {tag : Tag} {xs : List Single} {v : Value}
    (htag : tag.arity? = some xs.length) (hv : ofComponents? xs = some v) :
    tag.accepts v = true := by
  match xs, hv with
  | [x, y], hv =>
    cases hv
    cases tag <;> first | rfl | cases htag
  | [x, y, z], hv =>
    cases hv
    cases tag <;> first | rfl | cases htag
  | [x, y, z, w], hv =>
    cases hv
    cases tag <;> first | rfl | cases htag

def singles : Value → List Single
  | float x => [x]
  | scaled x => [x]
  | vec2 x y => [x, y]
  | vec3 x y z => [x, y, z]
  | vec4 x y z w => [x, y, z, w]
  | _ => []

theorem match_map_eq_ok_iff {α : Type} {r : Option α} {f : α → Value} {e : TextError} {v : Value} :
    (match r.map f with
      | some v => Except.ok v
      | none => .error e) = .ok v ↔ r.map f = some v := by
  cases r.map f with
  | none => exact ⟨nofun, nofun⟩
  | some v' => rw [Option.some_inj, Except.ok.injEq]

/-- A value without NaNs is read from its text under every tag of its shape. -/
theorem ofText_of_accepts {tag : Tag} {v : Value} (htable : tag ≠ .table)
    (haccepts : tag.accepts v = true) (hnan : ∀ x ∈ v.singles, x.datum ≠ .nan) :
    ofText v.text tag = .ok v := by
  have hsingle : ∀ x : Single, x.datum ≠ .nan → Single.read? (trim x.text.toList) = some x := by
    intro x hx
    rw [trim_word fun c hc ↦ (inWord_of_mem_single c hc).1, Single.read?_text hx]
  have hint : ∀ i : Int, trim (toString i).toList = (toString i).toList := fun i ↦
    trim_word fun c hc ↦ (inWord_of_mem_int i c hc).1
  cases v with
  | int32 n =>
    cases tag <;> cases haccepts
    have hread : readWithin? Int32.minValue.toInt Int32.maxValue.toInt
        (trim (int32 n).text.toList) = some n.toInt := by
      rw [text, hint, readWithin?_toString n.minValue_le_toInt n.toInt_le]
    unfold ofText
    simp only [Tag.arity?, hread, Option.map_some, Int32.ofInt_toInt]
  | float x =>
    cases tag <;> cases haccepts
    have hread : Single.read? (trim (float x).text.toList) = some x := by
      rw [text, hsingle x (hnan x List.mem_cons_self)]
    unfold ofText
    simp only [Tag.arity?, hread, Option.map_some]
  | scaled x =>
    cases tag <;> cases haccepts
    have hread : Single.read? (trim (scaled x).text.toList) = some x := by
      rw [text, hsingle x (hnan x List.mem_cons_self)]
    unfold ofText
    simp only [Tag.arity?, hread, Option.map_some]
  | int16 n =>
    cases tag <;> cases haccepts
    have hread : readWithin? Int16.minValue.toInt Int16.maxValue.toInt
        (trim (int16 n).text.toList) = some n.toInt := by
      rw [text, hint, readWithin?_toString n.minValue_le_toInt n.toInt_le]
    unfold ofText
    simp only [Tag.arity?, hread, Option.map_some, Int16.ofInt_toInt]
  | byte n =>
    cases tag <;> cases haccepts
    have htrim : trim (toString n.toNat).toList = (toString n.toNat).toList := hint n.toNat
    have hread : readByte? (trim (byte n).text.toList) = some n := by
      rw [text, htrim, readByte?_toString]
    unfold ofText
    simp only [Tag.arity?, hread, Option.map_some]
  | bool b =>
    cases tag <;> cases haccepts
    have hread : readBool? (trim (bool b).text.toList) = some b := by cases b <;> decide
    unfold ofText
    simp only [Tag.arity?, hread, Option.map_some]
  | vec2 x y => cases tag <;> cases haccepts <;> exact ofText_componentsText rfl rfl hnan
  | vec3 x y z => cases tag <;> cases haccepts <;> exact ofText_componentsText rfl rfl hnan
  | vec4 x y z w => cases tag <;> cases haccepts <;> exact ofText_componentsText rfl rfl hnan
  | string s =>
    cases tag <;> cases haccepts
    rfl
  | table entries =>
    cases tag <;> cases haccepts
    exact (htable rfl).elim

/-- What is read under a tag has the tag's shape. -/
theorem accepts_of_ofText {text : String} {tag : Tag} {v : Value} (h : ofText text tag = .ok v) :
    tag.accepts v = true := by
  unfold ofText at h
  cases harity : tag.arity? with
  | some arity =>
    rw [harity] at h
    dsimp only at h
    cases hxs : (fields isComponentSep (trim text.toList)).mapM Single.read? with
    | none =>
      rw [hxs] at h
      cases h
    | some xs =>
      rw [hxs] at h
      dsimp only at h
      by_cases hlength : xs.length = arity
      · subst hlength
        rw [if_pos rfl] at h
        cases hv : ofComponents? xs with
        | none =>
          rw [hv] at h
          cases h
        | some v' =>
          rw [hv] at h
          cases h
          exact accepts_of_ofComponents? harity hv
      · rw [if_neg hlength] at h
        cases h
  | none =>
    rw [harity] at h
    dsimp only at h
    cases tag with
    | int32 =>
      obtain ⟨n, -, rfl⟩ := Option.map_eq_some_iff.mp (match_map_eq_ok_iff.mp h)
      rfl
    | float =>
      obtain ⟨x, -, rfl⟩ := Option.map_eq_some_iff.mp (match_map_eq_ok_iff.mp h)
      rfl
    | scaled =>
      obtain ⟨x, -, rfl⟩ := Option.map_eq_some_iff.mp (match_map_eq_ok_iff.mp h)
      rfl
    | int16 =>
      obtain ⟨n, -, rfl⟩ := Option.map_eq_some_iff.mp (match_map_eq_ok_iff.mp h)
      rfl
    | byte =>
      obtain ⟨n, -, rfl⟩ := Option.map_eq_some_iff.mp (match_map_eq_ok_iff.mp h)
      rfl
    | bool =>
      generalize readBool? (trim text.toList) = r at h
      obtain ⟨b, -, rfl⟩ := Option.map_eq_some_iff.mp (match_map_eq_ok_iff.mp h)
      rfl
    | string =>
      cases h
      rfl
    | table => cases h
    | vec2 | vec2Scaled | vec3 | vec3Scaled | vec4 | vec4Scaled => cases harity

/-- Typing the text of a value gives the value, and nothing else is read than what the tag names. -/
theorem ofText_text (tag : Tag) :
    (∀ v : Value, tag ≠ .table → tag.accepts v = true → (∀ x ∈ v.singles, x.datum ≠ .nan) →
      ofText v.text tag = .ok v) ∧
      ∀ (text : String) (v : Value), ofText text tag = .ok v → tag.accepts v = true :=
  ⟨fun _ htable haccepts hnan ↦ ofText_of_accepts htable haccepts hnan,
    fun _ _ h ↦ accepts_of_ofText h⟩

theorem ofText_text_vec3 :
    let v := vec3 ⟨0x3DCCCCCD⟩ ⟨0x80000000⟩ ⟨0xFF800000⟩
    Tag.vec3Scaled ≠ .table ∧ Tag.vec3Scaled.accepts v = true ∧
      (∀ x ∈ v.singles, x.datum ≠ .nan) ∧ v.text = "0.1 -0 -inf" ∧
      ofText v.text .vec3Scaled = .ok v ∧ Tag.vec3Scaled.accepts v = true := by
  intro v
  have hnan : ∀ x ∈ v.singles, x.datum ≠ .nan := by decide
  have hread := (ofText_text .vec3Scaled).1 v (by decide) rfl hnan
  have htext : v.text = "0.1 -0 -inf" := by decide
  exact ⟨by decide, rfl, hnan, htext, hread, (ofText_text .vec3Scaled).2 v.text v hread⟩

end Value

end PropertyFile
