import PropertyFile.Proofs.Inibin.Bits
import PropertyFile.Proofs.Inibin.Layout

namespace PropertyFile.Inibin

open Reader

theorem reads_hashes {hs : List UInt32} (h : hs.length ≤ limit) :
    Reads hashes (leBytes 2 hs.length ++ hs.flatMap fun h ↦ leBytes 4 h.toNat) hs := by
  have hcount : hs.length < Nat.pow 256 2 := Nat.lt_succ_of_le h
  refine (Scan.reads_nat hcount).bind ?_
  have ht := reads_times fun h (_ : h ∈ hs) ↦ Scan.reads_word32 h
  rwa [List.map_id'] at ht

theorem exact_hashes : Exact hashes .outOfBytes :=
  (Scan.exact_nat 2).bind fun n ↦ Scan.exact_word32.times n

theorem reads_entryHashes {entries : List Entry} (h : entries.length ≤ limit) :
    Reads hashes
      (leBytes 2 entries.length ++ entries.flatMap fun e ↦ leBytes 4 e.property.hash.toNat)
      (entries.map (·.property.hash)) := by
  have hl : (entries.map (·.property.hash)).length ≤ limit := by rwa [List.length_map]
  have hr := reads_hashes hl
  rwa [List.length_map, List.flatMap_map] at hr

theorem withValues_take (tag : Tag) (hs : List UInt32) (values : List Value) :
    withValues tag hs values = withValues tag hs (values.take hs.length) := by
  induction hs generalizing values with
  | nil => rfl
  | cons h hs ih =>
    cases values with
    | nil => rfl
    | cons v values =>
      have hv := ih values
      simp only [withValues] at hv
      simp only [withValues, List.length_cons, List.take_succ_cons, List.zipWith_cons_cons, hv]

def readBack (entries : List Entry) : List Property := entries.map (stored ·.property)

theorem withValues_eq_readBack {tag : Tag} {value : Entry → Value} {entries : List Entry}
    (h : ∀ e ∈ entries, e.property.tag = tag ∧ value e = storedValue tag e.property.value) :
    withValues tag (entries.map (·.property.hash)) (entries.map value) = readBack entries := by
  rw [withValues, List.zipWith_map, List.zipWith_self]
  refine List.map_congr_left fun e he ↦ ?_
  obtain ⟨rfl, hvalue⟩ := h e he
  rw [hvalue]
  rfl

theorem reads_fixedBlock {tag : Tag} {value : Scan Value} {entries : List Entry}
    (hv : fixedValue? tag = some value) (hl : entries.length ≤ limit)
    (he : ∀ e ∈ entries, e.property.tag = tag ∧ Fits e.property) :
    Reads (fixedBlock tag value)
      (leBytes 2 entries.length ++ (entries.flatMap fun e ↦ leBytes 4 e.property.hash.toNat) ++
        entries.flatMap fun e ↦ fixedBytes tag e.property.value)
      (readBack entries) := by
  refine (reads_entryHashes hl).bind ?_
  have hvalues : Reads (times entries.length value)
      (entries.flatMap fun e ↦ fixedBytes tag e.property.value)
      (entries.map fun e ↦ storedValue tag e.property.value) := by
    refine reads_times fun e hm ↦ reads_fixedValue ?_ hv
    obtain ⟨rfl, -, ha⟩ := he e hm
    exact ha
  have hread := hvalues.map (withValues tag (entries.map (·.property.hash)))
  rw [withValues_eq_readBack fun e hm ↦ ⟨(he e hm).1, rfl⟩, map_eq_bind] at hread
  rwa [List.length_map]

theorem exact_single : Exact single .outOfBytes := Scan.exact_word32.map _

theorem exact_scaledByte : Exact scaledByte .outOfBytes := Scan.exact_byte.map _

theorem exact_fixedValue {tag : Tag} {value : Scan Value} (hv : fixedValue? tag = some value) :
    Exact value .outOfBytes := by
  have hs := exact_single
  have hb := exact_scaledByte
  cases tag <;> simp only [fixedValue?, Option.some.injEq, reduceCtorEq] at hv <;> subst hv
  case int32 => exact Scan.exact_word32.map _
  case float => exact hs.map _
  case scaled => exact hb.map _
  case int16 => exact Scan.exact_word16.map _
  case byte => exact Scan.exact_byte.map _
  case vec3Scaled => exact ((hb.map _).seq hb).seq hb
  case vec3 => exact ((hs.map _).seq hs).seq hs
  case vec2Scaled => exact (hb.map _).seq hb
  case vec2 => exact (hs.map _).seq hs
  case vec4Scaled => exact (((hb.map _).seq hb).seq hb).seq hb
  case vec4 => exact (((hs.map _).seq hs).seq hs).seq hs

theorem exact_fixedBlock {tag : Tag} {value : Scan Value} (hv : fixedValue? tag = some value) :
    Exact (fixedBlock tag value) .outOfBytes :=
  exact_hashes.bind fun hs ↦ ((exact_fixedValue hv).times hs.length).bind fun _ ↦ Exact.pure _

theorem bool_of_fits {p : Property} (ht : p.tag = .bool) (hp : Fits p) :
    ∃ b, p.value = .bool b := by
  have ha := hp.2
  rw [ht] at ha
  cases hv : p.value <;> simp only [hv, Tag.accepts, Bool.false_eq_true] at ha
  exact ⟨_, rfl⟩

theorem string_of_fits {p : Property} (ht : p.tag = .string) (hp : Fits p) :
    ∃ s, p.value = .string s := by
  have ha := hp.2
  rw [ht] at ha
  cases hv : p.value <;> simp only [hv, Tag.accepts, Bool.false_eq_true] at ha
  exact ⟨_, rfl⟩

def entryBits (entries : List Entry) : List Bool :=
  entries.map fun e ↦ match e.property.value with
    | .bool b => b
    | _ => false

theorem withValues_entryBits {entries : List Entry}
    (he : ∀ e ∈ entries, e.property.tag = .bool ∧ Fits e.property) :
    withValues .bool (entries.map (·.property.hash)) ((entryBits entries).map .bool) =
      readBack entries := by
  rw [entryBits, List.map_map]
  refine withValues_eq_readBack fun e hm ↦ ⟨(he e hm).1, ?_⟩
  obtain ⟨b, hb⟩ := bool_of_fits (he e hm).1 (he e hm).2
  simp only [Function.comp_apply, hb, storedValue]

theorem reads_boolBlock {entries : List Entry} (hl : entries.length ≤ limit)
    (he : ∀ e ∈ entries, e.property.tag = .bool ∧ Fits e.property) :
    Reads boolBlock
      (leBytes 2 entries.length ++ (entries.flatMap fun e ↦ leBytes 4 e.property.hash.toNat) ++
        pack (entryBits entries))
      (readBack entries) := by
  refine (reads_entryHashes hl).bind ?_
  have hlen : (entryBits entries).length = entries.length := List.length_map _
  have hbytes := Scan.reads_take (pack (entryBits entries))
  rw [length_pack _ _ (Nat.le_refl _), hlen] at hbytes
  have hread := hbytes.map fun bytes ↦
    withValues .bool (entries.map (·.property.hash)) ((bytes.flatMap bits).map .bool)
  have hbits : (((pack (entryBits entries)).flatMap bits).map Value.bool).take
      (entries.map (·.property.hash)).length = (entryBits entries).map .bool := by
    rw [List.length_map, ← List.map_take, ← hlen, take_bits_pack _ _ (Nat.le_refl _)]
  rw [withValues_take, hbits, withValues_entryBits he, map_eq_bind] at hread
  rwa [List.length_map]

theorem exact_boolBlock : Exact boolBlock .outOfBytes :=
  exact_hashes.bind fun _ ↦ (Scan.exact_take _).bind fun _ ↦ Exact.pure _

theorem exact_stringBlock (size : Nat) : Exact (stringBlock size) .outOfBytes :=
  exact_hashes.bind fun hs ↦ ((Scan.exact_nat 2).times hs.length).bind fun _ ↦
    (Scan.exact_take size).bind fun _ ↦ Exact.pure _

theorem exact_strings (size : Nat) : Exact (strings size) .truncated := by
  refine (Scan.exact_orFail (exact_stringBlock size) _).bind fun r ↦ ?_
  obtain ⟨hs, offsets, area⟩ := r
  simp only
  cases offsets.find? (size < ·) with
  | some offset => exact Exact.fail _
  | none => exact Exact.pure _

theorem text_of_entry {ps : List Property} {e : Entry} (he : e ∈ placed 0 ps)
    (ht : e.property.tag = .string) (hfit : Fits e.property) :
    e.offset ≤ (stringArea ps).length ∧
      .string (textAt (stringArea ps).toArray e.offset) = storedValue .string e.property.value := by
  obtain ⟨s, hs⟩ := string_of_fits ht hfit
  obtain ⟨before, after, ha, ho⟩ := text_at_offset he hs
  rw [Nat.zero_add] at ho
  rw [ho, hs, storedValue, textAt_of_append s (List.toList_toArray.trans ha)]
  refine ⟨?_, rfl⟩
  rw [ha, List.length_append]
  exact Nat.le_add_right _ _

theorem reads_stringBlock {area : List UInt8} {entries : List Entry} (harea : area.length ≤ limit)
    (hl : entries.length ≤ limit) (ho : ∀ e ∈ entries, e.offset ≤ area.length) :
    Reads (stringBlock area.length)
      (leBytes 2 entries.length ++ (entries.flatMap fun e ↦ leBytes 4 e.property.hash.toNat) ++
        (entries.flatMap fun e ↦ leBytes 2 e.offset) ++ area)
      (entries.map (·.property.hash), entries.map Entry.offset, area.toArray) := by
  have hoffsets : Reads (times entries.length (Scan.nat 2))
      (entries.flatMap fun e ↦ leBytes 2 e.offset) (entries.map Entry.offset) :=
    reads_times fun e hm ↦ Scan.reads_nat (Nat.lt_succ_of_le ((ho e hm).trans harea))
  have hread := (Scan.reads_take area).map fun bytes ↦
    (entries.map (·.property.hash), entries.map Entry.offset, bytes.toArray)
  rw [map_eq_bind] at hread
  rw [List.append_assoc]
  refine (reads_entryHashes hl).bind ?_
  rw [List.length_map]
  exact hoffsets.bind hread

theorem reads_strings {ps : List Property} {entries : List Entry}
    (harea : (stringArea ps).length ≤ limit) (hl : entries.length ≤ limit)
    (he : ∀ e ∈ entries, e ∈ placed 0 ps ∧ e.property.tag = .string ∧ Fits e.property) :
    Reads (strings (stringArea ps).length)
      (leBytes 2 entries.length ++ (entries.flatMap fun e ↦ leBytes 4 e.property.hash.toNat) ++
        (entries.flatMap fun e ↦ leBytes 2 e.offset) ++ stringArea ps)
      (readBack entries) := by
  have htext : ∀ e ∈ entries, e.offset ≤ (stringArea ps).length ∧
      .string (textAt (stringArea ps).toArray e.offset) = storedValue .string e.property.value := by
    intro e hm
    obtain ⟨hplaced, ht, hfit⟩ := he e hm
    exact text_of_entry hplaced ht hfit
  have hblock := reads_stringBlock harea hl fun e hm ↦ (htext e hm).1
  have hnone : (entries.map Entry.offset).find? ((stringArea ps).length < ·) = none := by
    rw [List.find?_eq_none]
    intro offset ho
    obtain ⟨e, hm, rfl⟩ := List.mem_map.mp ho
    simpa only [decide_eq_true_eq, Nat.not_lt] using (htext e hm).1
  have hback : withValues .string (entries.map (·.property.hash))
      ((entries.map Entry.offset).map fun o ↦ .string (textAt (stringArea ps).toArray o)) =
        readBack entries := by
    rw [List.map_map]
    exact withValues_eq_readBack fun e hm ↦ ⟨(he e hm).2.1, (htext e hm).2⟩
  intro rest
  rw [strings, bind_apply_ok (Scan.reads_orFail hblock DecodeError.truncated rest)]
  simp only [hnone, hback]
  rfl

theorem payload_of_fixed {tag : Tag} {value : Scan Value} (hv : fixedValue? tag = some value)
    (entries : List Entry) :
    payload tag entries = entries.flatMap fun e ↦ fixedBytes tag e.property.value := by
  cases tag with
  | bool | string | table => cases hv
  | _ => rfl

theorem block_cases {tag : Tag} {n : Nat} (hn : Tag.ofBlock? n = some tag) (size : Nat) :
    (tag = .string ∧ block size n = strings size) ∨
      (tag = .bool ∧ block size n = boolBlock.orFail .truncated) ∨
      ∃ value, fixedValue? tag = some value ∧
        block size n = (fixedBlock tag value).orFail .truncated := by
  cases tag with
  | string => exact .inl ⟨rfl, by simp only [block, hn, fixedValue?]⟩
  | bool => exact .inr (.inl ⟨rfl, by simp only [block, hn]⟩)
  | table => cases Tag.ofBlock?_eq_some_iff.mp hn
  | _ => exact .inr (.inr ⟨_, rfl, by simp only [block, hn, fixedValue?]⟩)

theorem reads_block {ps : List Property} {entries : List Entry} {tag : Tag} {n : Nat}
    (hn : tag.block? = some n) (harea : (stringArea ps).length ≤ limit)
    (hl : entries.length ≤ limit)
    (he : ∀ e ∈ entries, e ∈ placed 0 ps ∧ e.property.tag = tag ∧ Fits e.property) :
    Reads (block (stringArea ps).length n)
      (blockSpelling tag entries ++ if tag = .string then stringArea ps else [])
      (readBack entries) := by
  have he' : ∀ e ∈ entries, e.property.tag = tag ∧ Fits e.property := fun e hm ↦ (he e hm).2
  rcases block_cases (Tag.ofBlock?_eq_some_iff.mpr hn) (stringArea ps).length with
    ⟨rfl, hb⟩ | ⟨rfl, hb⟩ | ⟨value, hv, hb⟩
  · rw [hb, if_pos rfl]
    exact reads_strings harea hl he
  · rw [hb, if_neg (by decide), List.append_nil]
    exact Scan.reads_orFail (reads_boolBlock hl he') _
  · have hs : tag ≠ .string := by
      rintro rfl
      cases hv
    rw [hb, if_neg hs, List.append_nil, blockSpelling, payload_of_fixed hv]
    exact Scan.reads_orFail (reads_fixedBlock hv hl he') _

theorem exact_block (size n : Nat) : Exact (block size n) .truncated := by
  cases hn : Tag.ofBlock? n with
  | none =>
    have hb : block size n = throw (.reservedBlock n) := by simp only [block, hn]
    rw [hb]
    exact Exact.fail _
  | some tag =>
    rcases block_cases hn size with ⟨-, hb⟩ | ⟨-, hb⟩ | ⟨value, hv, hb⟩
    · rw [hb]
      exact exact_strings size
    · rw [hb]
      exact Scan.exact_orFail exact_boolBlock _
    · rw [hb]
      exact Scan.exact_orFail (exact_fixedBlock hv) _

theorem exact_blocks (size flags : Nat) : Exact (blocks size flags) .truncated :=
  (Exact.mapM (exact_block size) (present flags)).map _

end PropertyFile.Inibin
