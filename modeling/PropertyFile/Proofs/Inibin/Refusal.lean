import PropertyFile.Proofs.Inibin.Layout

namespace PropertyFile.Inibin

def textCost (p : Property) : Nat :=
  match p.value with
  | .string s => s.utf8ByteSize + 1
  | _ => 0

def textSize : List Property → Nat
  | [] => 0
  | p :: ps => textCost p + textSize ps

theorem length_utf8 (s : String) : (Text.utf8 s).length = s.utf8ByteSize := by
  rw [String.utf8ByteSize, ← String.utf8Encode_toList, List.utf8Encode, List.size_toByteArray,
    Text.utf8]

theorem length_areaPart (p : Property) : (areaPart p).length = textCost p := by
  obtain ⟨hash, name, value, tag⟩ := p
  cases value with
  | string s => rw [areaPart, List.length_append, length_utf8, List.length_singleton, textCost]
  | _ => rfl

theorem textSize_cons (p : Property) (ps : List Property) :
    textSize (p :: ps) = (areaPart p).length + textSize ps := by
  rw [textSize, length_areaPart]

theorem length_stringArea (ps : List Property) : (stringArea ps).length = textSize ps := by
  induction ps with
  | nil => rfl
  | cons p ps ih => rw [length_stringArea_cons, ih, textSize_cons]

/-- Every text starts within the limit if the first property is looked at when the texts before it
take `size` bytes. -/
def TextsStart (size : Nat) (ps : List Property) : Prop :=
  ∀ before p after, ps = before ++ p :: after → p.tag = .string → size + textSize before ≤ limit

theorem textsStart_nil (size : Nat) : TextsStart size [] := by
  intro before p after h
  exact absurd h.symm (List.append_ne_nil_of_right_ne_nil _ (List.cons_ne_nil _ _))

theorem textsStart_cons {size : Nat} {p : Property} {ps : List Property} :
    TextsStart size (p :: ps) ↔
      (p.tag = .string → size ≤ limit) ∧ TextsStart (size + (areaPart p).length) ps := by
  constructor
  · intro h
    refine ⟨fun ht ↦ h [] p ps rfl ht, fun before q after hs ht ↦ ?_⟩
    have hq := h (p :: before) q after (by rw [hs, List.cons_append]) ht
    rwa [textSize_cons, ← Nat.add_assoc] at hq
  · rintro ⟨hp, hps⟩ before q after hs ht
    cases before with
    | nil =>
      obtain ⟨rfl, -⟩ := List.cons.inj hs
      exact hp ht
    | cons b before =>
      obtain ⟨rfl, htail⟩ := List.cons.inj hs
      rw [textSize_cons, ← Nat.add_assoc]
      exact hps before q after htail ht

def misfit (p : Property) : EncodeError :=
  if p.tag = .table then .noBlock p.hash p.tag else .mismatch p.hash p.tag

theorem fault?_of_not_fits {p : Property} (h : ¬ Fits p) (size : Nat) :
    fault? size p = some (misfit p) := by
  rw [fault?, misfit]
  split
  · rfl
  · next ht =>
    have ha : p.tag.accepts p.value = false := by
      rw [Fits, not_and] at h
      exact Bool.not_eq_true _ ▸ h ht
    rw [ha, Bool.not_false, if_pos rfl]

theorem fault?_of_fits {size : Nat} {p : Property} {e : EncodeError} (h : Fits p)
    (he : fault? size p = some e) : e = .stringsTooLarge ∧ limit < size := by
  rw [fault?, if_neg h.1, h.2, Bool.not_true, if_neg Bool.false_ne_true] at he
  split at he
  · next hs =>
    cases he
    exact ⟨rfl, hs.2⟩
  · cases he

theorem layOutFrom_append {size : Nat} {done : List Entry} {before : List Property}
    (rest : List Property) (hfit : ∀ p ∈ before, Fits p) (hstart : TextsStart size before) :
    layOutFrom size done (before ++ rest) =
      layOutFrom (size + textSize before) ((placed size before).reverse ++ done) rest := by
  induction before generalizing size done with
  | nil => rfl
  | cons p before ih =>
    rw [List.forall_mem_cons] at hfit
    rw [textsStart_cons] at hstart
    have hp : fault? size p = none :=
      fault?_eq_none_iff.mpr ⟨hfit.1, fun h ↦ Nat.not_lt.mpr (hstart.1 h.1) h.2⟩
    rw [List.cons_append, layOutFrom, hp]
    dsimp only
    rw [ih hfit.2 hstart.2, textSize_cons, ← Nat.add_assoc, placed, List.reverse_cons,
      List.append_assoc, List.singleton_append]

/-- The first property that does not fit its block, and those before it. -/
structure FirstMisfit (ps before : List Property) (p : Property) : Prop where
  split : ∃ after, ps = before ++ p :: after
  before_fits : ∀ q ∈ before, Fits q
  not_fits : ¬ Fits p

theorem FirstMisfit.cons {q : Property} {ps before : List Property} {p : Property}
    (h : FirstMisfit ps before p) (hq : Fits q) : FirstMisfit (q :: ps) (q :: before) p := by
  obtain ⟨after, rfl⟩ := h.split
  exact ⟨⟨after, rfl⟩, List.forall_mem_cons.mpr ⟨hq, h.before_fits⟩, h.not_fits⟩

theorem FirstMisfit.mem {ps before : List Property} {p : Property} (h : FirstMisfit ps before p) :
    p ∈ ps := by
  obtain ⟨after, rfl⟩ := h.split
  exact List.mem_append_right _ List.mem_cons_self

theorem layOut_of_firstMisfit {ps before : List Property} {p : Property}
    (h : FirstMisfit ps before p) (hstart : TextsStart 0 before) :
    layOut ps = .error (misfit p) := by
  obtain ⟨after, rfl⟩ := h.split
  rw [layOut, layOutFrom_append _ h.before_fits hstart, layOutFrom, fault?_of_not_fits h.not_fits]

/-- The properties cannot be laid out because of the first that does not fit, or because of what
their texts take. -/
theorem layOutFrom_eq_error {size : Nat} {done : List Entry} {ps : List Property} {e : EncodeError}
    (h : layOutFrom size done ps = .error e) :
    (∃ before p, FirstMisfit ps before p ∧ TextsStart size before ∧ e = misfit p) ∨
      e = .stringsTooLarge ∧ limit < size + textSize ps := by
  induction ps generalizing size done with
  | nil =>
    rw [layOutFrom] at h
    split at h
    · next hsize =>
      cases h
      exact .inr ⟨rfl, hsize⟩
    · cases h
  | cons p ps ih =>
    rw [layOutFrom] at h
    by_cases hp : Fits p
    · cases hf : fault? size p with
      | some fault =>
        rw [hf] at h
        cases h
        obtain ⟨rfl, hsize⟩ := fault?_of_fits hp hf
        exact .inr ⟨rfl, Nat.lt_add_right _ hsize⟩
      | none =>
        rw [hf] at h
        rcases ih h with ⟨before, q, hq, hstart, rfl⟩ | ⟨rfl, hsize⟩
        · have hhead : p.tag = .string → size ≤ limit := fun ht ↦
            Nat.not_lt.mp fun hlt ↦ (fault?_eq_none_iff.mp hf).2 ⟨ht, hlt⟩
          exact .inl ⟨p :: before, q, hq.cons hp, textsStart_cons.mpr ⟨hhead, hstart⟩, rfl⟩
        · rw [textSize_cons, ← Nat.add_assoc]
          exact .inr ⟨rfl, hsize⟩
    · rw [fault?_of_not_fits hp] at h
      cases h
      exact .inl ⟨[], p, ⟨⟨ps, rfl⟩, fun q hq ↦ absurd hq List.not_mem_nil, hp⟩,
        textsStart_nil size, rfl⟩

theorem encode_of_firstMisfit {t : Tree} {before : List Property} {p : Property}
    (hv : t.version = formatVersion) (h : FirstMisfit t.properties before p)
    (hstart : TextsStart 0 before) : encode t = .error (misfit p) :=
  encode_of_layOut_eq_error hv (layOut_of_firstMisfit h hstart)

theorem encode_eq_ok_iff_textSize {t : Tree} :
    (∃ bytes, encode t = .ok bytes) ↔ t.version = formatVersion ∧ (∀ p ∈ t.properties, Fits p) ∧
      textSize t.properties ≤ limit ∧
      ∀ tag, (t.properties.filter (·.tag = tag)).length ≤ limit := by
  simp only [encode_eq_ok_iff, length_stringArea, exists_and_left, exists_eq, and_true]

/-- An error about a size or a count that is over the limit. -/
inductive Exceeds (ps : List Property) : EncodeError → Prop
  | texts : limit < textSize ps → Exceeds ps .stringsTooLarge
  | block (tag : Tag) : limit < (ps.filter (·.tag = tag)).length →
    Exceeds ps (.tooMany (ps.filter (·.tag = tag)).length tag)

theorem exceeds_of_ofPieces_pieces {ps : List Property} {e : EncodeError}
    (h : (Written.ofPieces (pieces ps)).failure = some e) : Exceeds ps e := by
  rcases List.mem_append.mp (mem_of_ofPieces_failure h) with hmem | hmem
  · rcases List.mem_cons.mp hmem with hmem | hmem
    · cases hmem
    · obtain ⟨b, hb, he⟩ := List.mem_map.mp hmem
      obtain ⟨hcount, rfl⟩ := blockBytes_eq_error he
      rw [(mem_typeBlocks hb).2, length_blockEntries] at hcount ⊢
      exact .block b.1 hcount
  · cases List.mem_singleton.mp hmem

/-- Whatever stops the writing is the version, the first property that does not fit, or a size or
count that is over the limit. -/
theorem encode_eq_error {t : Tree} {e : EncodeError} (h : encode t = .error e) :
    t.version ≠ formatVersion ∧ e = .version t.version ∨
      (∃ before p, FirstMisfit t.properties before p ∧ TextsStart 0 before ∧ e = misfit p) ∨
      Exceeds t.properties e := by
  by_cases hv : t.version = formatVersion
  · right
    cases hl : layOut t.properties with
    | error fault =>
      rw [encode_of_layOut_eq_error hv hl] at h
      cases h
      rcases layOutFrom_eq_error hl with hfirst | ⟨rfl, hsize⟩
      · exact .inl hfirst
      · rw [Nat.zero_add] at hsize
        exact .inr (.texts hsize)
    | ok entries =>
      obtain ⟨-, hfit, hsize⟩ := layOut_eq_ok_iff.mp hl
      rw [encode, write_of_layOut hv hfit hsize] at h
      split at h
      · next hf =>
        cases h
        exact .inr (exceeds_of_ofPieces_pieces hf)
      · cases h
  · rw [encode_of_version_ne hv] at h
    cases h
    exact .inl ⟨hv, rfl⟩

theorem tag_eq_of_encode_noBlock {t : Tree} {hash : UInt32} {tag : Tag}
    (h : encode t = .error (.noBlock hash tag)) :
    tag = .table ∧ ∃ p ∈ t.properties, p.tag = .table ∧ p.hash = hash := by
  rcases encode_eq_error h with ⟨-, he⟩ | ⟨before, p, hp, -, he⟩ | he
  · cases he
  · rw [misfit] at he
    split at he
    · next ht =>
      cases he
      exact ⟨ht, p, hp.mem, ht, rfl⟩
    · cases he
  · cases he

/-- The bytes of a value in a block of numbers. A flag, a text and a table have none, and nothing
names the property there. -/
def numberBytes (tag : Tag) : Value → Except EncodeError (List UInt8)
  | .bool _ | .string _ | .table _ => .error (.noBlock 0 tag)
  | value => .ok (fixedBytes tag value)

def payloadPieces (tag : Tag) (entries : List Entry) : List (Except EncodeError (List UInt8)) :=
  match tag with
  | .bool | .string => [.ok (payload tag entries)]
  | _ => entries.map fun e ↦ numberBytes tag e.property.value

def blockPieces (tag : Tag) (entries : List Entry) : List (Except EncodeError (List UInt8)) :=
  if limit < entries.length then [.error (.tooMany entries.length tag)]
  else .ok (leBytes 2 entries.length) ::
    .ok (entries.flatMap fun e ↦ leBytes 4 e.property.hash.toNat) :: payloadPieces tag entries

/-- Writes a tree value by value, with an error for a value that its block has no bytes for. -/
def writeValues (t : Tree) : Written :=
  if t.version ≠ formatVersion then ⟨[], some (.version t.version)⟩
  else
    let ps := t.properties
    match layOut ps with
    | .error e => ⟨[], some e⟩
    | .ok entries =>
      let area := stringArea ps
      let blocks := typeBlocks entries
      .ofPieces (.ok (header area.length (flags blocks)) ::
        (blocks.flatMap fun b ↦ blockPieces b.1 b.2) ++ [.ok area])

theorem numberBytes_of_accepts {tag : Tag} {value : Value} (hb : tag ≠ .bool) (hs : tag ≠ .string)
    (ht : tag ≠ .table) (h : tag.accepts value = true) :
    numberBytes tag value = .ok (fixedBytes tag value) := by
  cases value with
  | bool b => cases tag <;> first | exact absurd rfl hb | cases h
  | string s => cases tag <;> first | exact absurd rfl hs | cases h
  | table entries => cases tag <;> first | exact absurd rfl ht | cases h
  | _ => rfl

theorem payloadPieces_eq {tag : Tag} {entries : List Entry} (ht : tag ≠ .table)
    (h : ∀ e ∈ entries, tag.accepts e.property.value = true) :
    ∃ spellings : List (List UInt8), payloadPieces tag entries = spellings.map .ok ∧
      spellings.flatten = payload tag entries := by
  by_cases hb : tag = .bool
  · subst hb
    exact ⟨[payload .bool entries], rfl, List.append_nil _⟩
  · by_cases hs : tag = .string
    · subst hs
      exact ⟨[payload .string entries], rfl, List.append_nil _⟩
    · refine ⟨entries.map fun e ↦ fixedBytes tag e.property.value, ?_, ?_⟩
      · rw [List.map_map, payloadPieces]
        · exact List.map_congr_left fun e he ↦ numberBytes_of_accepts hb hs ht (h e he)
        · exact hb
        · exact hs
      · rw [← List.flatMap_def, payload]
        · exact hb
        · exact hs

theorem ofPieces_map_ok_append (spellings : List (List UInt8))
    (rest : List (Except EncodeError (List UInt8))) :
    Written.ofPieces (spellings.map .ok ++ rest) =
      Written.ofPieces (.ok spellings.flatten :: rest) := by
  induction spellings with
  | nil => rfl
  | cons bytes spellings ih =>
    rw [List.map_cons, List.cons_append, Written.ofPieces, ih]
    simp only [Written.ofPieces, List.flatten_cons, List.append_assoc]

theorem ofPieces_blockPieces {tag : Tag} {entries : List Entry} (ht : tag ≠ .table)
    (h : ∀ e ∈ entries, tag.accepts e.property.value = true)
    (rest : List (Except EncodeError (List UInt8))) :
    Written.ofPieces (blockPieces tag entries ++ rest) =
      Written.ofPieces (blockBytes tag entries :: rest) := by
  rw [blockPieces, blockBytes]
  split
  · rfl
  · obtain ⟨spellings, hp, hflat⟩ := payloadPieces_eq ht h
    rw [hp, ← hflat, ← List.map_cons, ← List.map_cons, ofPieces_map_ok_append, List.flatten_cons,
      List.flatten_cons, List.append_assoc]

theorem ofPieces_flatMap_blockPieces {blocks : List (Tag × List Entry)}
    (h : ∀ b ∈ blocks, b.1 ≠ .table ∧ ∀ e ∈ b.2, b.1.accepts e.property.value = true)
    (rest : List (Except EncodeError (List UInt8))) :
    Written.ofPieces ((blocks.flatMap fun b ↦ blockPieces b.1 b.2) ++ rest) =
      Written.ofPieces ((blocks.map fun b ↦ blockBytes b.1 b.2) ++ rest) := by
  induction blocks with
  | nil => rfl
  | cons b blocks ih =>
    rw [List.forall_mem_cons] at h
    rw [List.flatMap_cons, List.append_assoc, ofPieces_blockPieces h.1.1 h.1.2, List.map_cons,
      List.cons_append]
    cases blockBytes b.1 b.2 with
    | error e => rfl
    | ok bytes => rw [Written.ofPieces, ih h.2, Written.ofPieces]

theorem accepts_typeBlocks {ps : List Property} (hfit : ∀ p ∈ ps, Fits p)
    {b : Tag × List Entry} (hb : b ∈ typeBlocks (placed 0 ps)) :
    b.1 ≠ .table ∧ ∀ e ∈ b.2, b.1.accepts e.property.value = true := by
  obtain ⟨htag, hentries⟩ := mem_typeBlocks hb
  refine ⟨ne_of_mem_of_not_mem htag (by decide), fun e he ↦ ?_⟩
  rw [hentries] at he
  obtain ⟨hmem, ht⟩ := mem_of_mem_blockEntries he
  have hp : e.property ∈ ps := by
    rw [← map_property_placed 0 ps]
    exact List.mem_map_of_mem hmem
  rw [← ht]
  exact (hfit _ hp).2

/-- Every value is written: what is written value by value is what is written block by block. -/
theorem writeValues_eq (t : Tree) : writeValues t = write t := by
  rw [writeValues, write]
  by_cases hv : t.version ≠ formatVersion
  · rw [if_pos hv, if_pos hv]
  · rw [if_neg hv, if_neg hv]
    dsimp only
    cases hl : layOut t.properties with
    | error e => rfl
    | ok entries =>
      obtain ⟨rfl, hfit, -⟩ := layOut_eq_ok_iff.mp hl
      dsimp only
      rw [List.cons_append, List.cons_append, Written.ofPieces,
        ofPieces_flatMap_blockPieces fun b hb ↦ accepts_typeBlocks hfit hb, Written.ofPieces]

/-- What writing a tree gives. It succeeds exactly if the version is the known one, every property
fits, and neither the texts nor a block are over the limit. Otherwise the version is the error, or
the first property that does not fit if each text before it starts within the limit, or something
over the limit; no value is found late to have no bytes in its block. -/
theorem encode_outcome (t : Tree) :
    ((∃ bytes, encode t = .ok bytes) ↔ t.version = formatVersion ∧
      (∀ p ∈ t.properties, p.tag ≠ .table ∧ p.tag.accepts p.value = true) ∧
      textSize t.properties ≤ limit ∧
      ∀ tag, (t.properties.filter (·.tag = tag)).length ≤ limit) ∧
    (t.version ≠ formatVersion → encode t = .error (.version t.version)) ∧
    (t.version = formatVersion → ∀ before p, FirstMisfit t.properties before p →
      TextsStart 0 before → encode t =
        .error (if p.tag = .table then .noBlock p.hash p.tag else .mismatch p.hash p.tag)) ∧
    (∀ e, encode t = .error e → t.version = formatVersion →
      (¬ ∃ before p, FirstMisfit t.properties before p ∧ TextsStart 0 before) →
        Exceeds t.properties e) ∧
    writeValues t = write t ∧
    ∀ hash tag, encode t = .error (.noBlock hash tag) →
      tag = .table ∧ ∃ p ∈ t.properties, p.tag = .table ∧ p.hash = hash := by
  refine ⟨encode_eq_ok_iff_textSize, encode_of_version_ne,
    fun hv before p h hstart ↦ encode_of_firstMisfit hv h hstart, fun e h hv hnone ↦ ?_,
    writeValues_eq t, fun hash tag ↦ tag_eq_of_encode_noBlock⟩
  rcases encode_eq_error h with ⟨hne, -⟩ | ⟨before, p, hp, hstart, -⟩ | hexceeds
  · exact absurd hv hne
  · exact absurd ⟨before, p, hp, hstart⟩ hnone
  · exact hexceeds

def taggedFlag : Property := ⟨2, none, .bool true, .int32⟩

theorem not_fits_taggedFlag : ¬ Fits taggedFlag := fun h ↦ Bool.false_ne_true h.2

def flagAfter (text : String) : Tree :=
  ⟨formatVersion, [⟨0, "A", [⟨1, none, .string text, .string⟩, taggedFlag]⟩]⟩

theorem firstMisfit_flagAfter (text : String) :
    FirstMisfit (flagAfter text).properties [⟨1, none, .string text, .string⟩] taggedFlag where
  split := ⟨[], rfl⟩
  before_fits := by
    intro p hp
    obtain rfl := List.mem_singleton.mp hp
    exact ⟨Tag.noConfusion, rfl⟩
  not_fits := not_fits_taggedFlag

theorem textsStart_singleton (p : Property) : TextsStart 0 [p] :=
  textsStart_cons.mpr ⟨fun _ ↦ Nat.zero_le limit, textsStart_nil _⟩

theorem flagAfter_short : encode (flagAfter "b") = .error (.mismatch 2 .int32) :=
  (encode_outcome (flagAfter "b")).2.2.1 rfl _ taggedFlag (firstMisfit_flagAfter "b")
    (textsStart_singleton _)

theorem utf8ByteSize_replicate (n : Nat) :
    (String.ofList (List.replicate n 'a')).utf8ByteSize = n := by
  rw [← length_utf8, Text.utf8, String.toList_ofList, List.length_flatMap, List.map_replicate,
    List.sum_replicate_nat]
  exact Nat.mul_one n

/-- A text that starts within the limit and ends beyond it, even without the zero byte after it,
does not hide the property after it. -/
theorem flagAfter_overlong :
    let text := String.ofList (List.replicate (limit + 1) 'a')
    FirstMisfit (flagAfter text).properties [⟨1, none, .string text, .string⟩] taggedFlag ∧
      limit < text.utf8ByteSize ∧ limit < textSize [⟨1, none, .string text, .string⟩] ∧
      encode (flagAfter text) = .error (.mismatch 2 .int32) ∧
      ¬ Exceeds (flagAfter text).properties (.mismatch 2 .int32) := by
  intro text
  have hsize : text.utf8ByteSize = limit + 1 := utf8ByteSize_replicate _
  refine ⟨firstMisfit_flagAfter text, ?_, ?_, ?_, ?_⟩
  · rw [hsize]
    exact Nat.lt_succ_self limit
  · show limit < text.utf8ByteSize + 1 + 0
    rw [hsize]
    exact Nat.lt_succ_of_le (Nat.le_succ limit)
  · exact encode_of_firstMisfit rfl (firstMisfit_flagAfter text) (textsStart_singleton _)
  · intro h
    cases h

end PropertyFile.Inibin
