import PropertyFile.Proofs.Bytes.Taking
import PropertyFile.Proofs.Inibin.Decoded
import PropertyFile.Proofs.Inibin.RoundTrip

namespace PropertyFile.Inibin

open Reader

def width : Tag → Nat
  | .int32 | .float | .vec4Scaled => 4
  | .int16 | .vec2Scaled => 2
  | .scaled | .byte => 1
  | .vec3Scaled => 3
  | .vec2 => 8
  | .vec3 => 12
  | .vec4 => 16
  | .bool | .string | .table => 0

/-- The size of `n` values; that of strings has the string area in it. -/
def payloadSize (size : Nat) : Tag → Nat → Nat
  | .bool, n => (n + 7) / 8
  | .string, n => 2 * n + size
  | tag, n => n * width tag

def blockSize (size : Nat) (tag : Tag) (n : Nat) : Nat := 2 + 4 * n + payloadSize size tag n

/-- A block with `count` properties, at some place of a byte string. -/
structure Extent where
  tag : Tag
  start : Nat
  count : Nat
deriving DecidableEq, Repr

namespace Extent

def stop (size : Nat) (e : Extent) : Nat := e.start + blockSize size e.tag e.count

def offsets (b : List UInt8) (e : Extent) : List Nat :=
  if e.tag = .string then
    (List.range e.count).map fun k ↦ wordAt b (e.start + (2 + 4 * e.count + 2 * k))
  else []

end Extent

/-- The extents of blocks that come one after the other, and where the last one ends. -/
def walk (b : List UInt8) (size : Nat) : List Tag → Nat → Option (List Extent × Nat)
  | [], i => some ([], i)
  | tag :: tags, i =>
    let e : Extent := ⟨tag, i, wordAt b i⟩
    if b.length < e.stop size then none
    else (walk b size tags (e.stop size)).map fun r ↦ (e :: r.1, r.2)

def announced (flags : Nat) : List Tag :=
  ((List.range 13).filter flags.testBit).filterMap Tag.ofBlock?

/-- The first of the announced blocks that have no tag. -/
def reserved? (flags : Nat) : Option Nat := [13, 14, 15].find? flags.testBit

/-- The extents of the blocks after the header, if all bytes of it and of them are there. -/
def layout (b : List UInt8) : Option (List Extent × Nat) :=
  if b.length < 5 then none else walk b (wordAt b 1) (announced (wordAt b 3)) 5

/-- What blocks of these extents come to: the number of their properties, unless a text starts
behind the string area or a block without a tag is announced. -/
def outcome (b : List UInt8) (size flags : Nat) (extents : List Extent) : Except DecodeError Nat :=
  match (extents.flatMap (Extent.offsets b)).find? (size < ·) with
  | some offset => .error (.stringOffset offset size)
  | none =>
    match reserved? flags with
    | some n => .error (.reservedBlock n)
    | none => .ok (extents.map Extent.count).sum

/-- How many properties a byte string has, or what is wrong with it. -/
def verdict (b : List UInt8) : Except DecodeError Nat :=
  match b with
  | [] => .error .empty
  | v :: _ =>
    if v = 1 then .error .versionOne
    else if v ≠ formatVersion then .error (.version v)
    else if b.length < 5 then .error .shortHeader
    else
      match layout b with
      | none => .error .truncated
      | some (extents, _) => outcome b (wordAt b 1) (wordAt b 3) extents

theorem takes_single (s : List UInt8) : Scan.Takes single s 4 := (Scan.takes_word32 s).map _

theorem takes_scaledByte (s : List UInt8) : Scan.Takes scaledByte s 1 := (Scan.takes_byte s).map _

theorem takes_fixedValue {tag : Tag} {value : Scan Value} (hv : fixedValue? tag = some value)
    (s : List UInt8) : Scan.Takes value s (width tag) := by
  have hs := takes_single
  have hb := takes_scaledByte
  cases tag <;> simp only [fixedValue?, Option.some.injEq, reduceCtorEq] at hv <;> subst hv
  case int32 => exact (Scan.takes_word32 s).map _
  case float => exact (hs s).map _
  case scaled => exact (hb s).map _
  case int16 => exact (Scan.takes_word16 s).map _
  case byte => exact (Scan.takes_byte s).map _
  case vec3Scaled => exact (((hb s).map _).seq hb).seq hb
  case vec3 => exact (((hs s).map _).seq hs).seq hs
  case vec2Scaled => exact ((hb s).map _).seq hb
  case vec2 => exact ((hs s).map _).seq hs
  case vec4Scaled => exact ((((hb s).map _).seq hb).seq hb).seq hb
  case vec4 => exact ((((hs s).map _).seq hs).seq hs).seq hs

theorem takes_hashes (s : List UInt8) : Scan.Takes hashes s (2 + 4 * wordAt s 0) := by
  refine (Scan.takes_nat 2 s).bind fun n hn ↦ ?_
  rw [← (Scan.nat_eq_wordAt hn).1, Nat.mul_comm]
  exact Scan.Takes.times Scan.takes_word32 n _

theorem length_of_hashes {s rest : List UInt8} {hs : List UInt32} (h : hashes s = .ok (hs, rest)) :
    hs.length = wordAt s 0 := by
  obtain ⟨n, mid, hn, htimes⟩ := bind_eq_ok.mp h
  rw [← (Scan.nat_eq_wordAt hn).1]
  exact ((yields_any Scan.word32).times n mid hs rest htimes).1

theorem takes_fixedBlock {tag : Tag} {value : Scan Value} (hv : fixedValue? tag = some value)
    (s : List UInt8) : Scan.Takes (fixedBlock tag value) s
      (2 + 4 * wordAt s 0 + wordAt s 0 * width tag) := by
  refine (takes_hashes s).bind fun hs hhs ↦ ?_
  rw [← length_of_hashes hhs]
  exact (Scan.Takes.times (takes_fixedValue hv) hs.length _).bind fun _ _ ↦ Scan.takes_pure _ _

theorem takes_boolBlock (s : List UInt8) : Scan.Takes boolBlock s
    (2 + 4 * wordAt s 0 + (wordAt s 0 + 7) / 8) := by
  refine (takes_hashes s).bind fun hs hhs ↦ ?_
  rw [← length_of_hashes hhs]
  exact (Scan.takes_take _ _).bind fun _ _ ↦ Scan.takes_pure _ _

theorem takes_stringBlock (size : Nat) (s : List UInt8) : Scan.Takes (stringBlock size) s
    (2 + 4 * wordAt s 0 + (2 * wordAt s 0 + size)) := by
  refine (takes_hashes s).bind fun hs hhs ↦ ?_
  rw [← length_of_hashes hhs, Nat.mul_comm 2]
  exact (Scan.Takes.times (Scan.takes_nat 2) hs.length _).bind fun _ _ ↦
    (Scan.takes_take size _).bind fun _ _ ↦ Scan.takes_pure _ _

theorem length_withValues {tag : Tag} {hs : List UInt32} {values : List Value}
    (h : hs.length ≤ values.length) : (withValues tag hs values).length = hs.length := by
  rw [withValues, List.length_zipWith, Nat.min_eq_left h]

theorem length_of_fixedBlock {tag : Tag} {value : Scan Value} {s rest : List UInt8}
    {ps : List Property} (h : fixedBlock tag value s = .ok (ps, rest)) :
    ps.length = wordAt s 0 := by
  obtain ⟨hs, mid, hhs, h⟩ := bind_eq_ok.mp h
  obtain ⟨values, mid', hvalues, h⟩ := bind_eq_ok.mp h
  obtain ⟨rfl, -⟩ := pure_eq_ok.mp h
  have hlen := ((yields_any value).times hs.length mid values mid' hvalues).1
  rw [length_withValues hlen.ge, length_of_hashes hhs]

theorem length_of_boolBlock {s rest : List UInt8} {ps : List Property}
    (h : boolBlock s = .ok (ps, rest)) : ps.length = wordAt s 0 := by
  obtain ⟨hs, mid, hhs, h⟩ := bind_eq_ok.mp h
  obtain ⟨bytes, mid', hbytes, h⟩ := bind_eq_ok.mp h
  obtain ⟨rfl, -⟩ := pure_eq_ok.mp h
  have hlen := (Scan.take_eq_ok hbytes).2
  have hbits : ((bytes.flatMap bits).map Value.bool).length = bytes.length * 8 := by
    rw [List.length_map, List.length_flatMap]
    simp [bits]
  rw [length_withValues (by omega), length_of_hashes hhs]

theorem stringBlock_eq {size : Nat} {s rest : List UInt8} {hs : List UInt32} {offsets : List Nat}
    {area : Array UInt8} (h : stringBlock size s = .ok ((hs, offsets, area), rest)) :
    hs.length = wordAt s 0 ∧ offsets = (List.range (wordAt s 0)).map fun k ↦
      wordAt s (2 + 4 * wordAt s 0 + 2 * k) := by
  obtain ⟨hs', mid, hhs, h⟩ := bind_eq_ok.mp h
  obtain ⟨offsets', mid', hoffsets, h⟩ := bind_eq_ok.mp h
  obtain ⟨area', mid'', harea, h⟩ := bind_eq_ok.mp h
  obtain ⟨hresult, -⟩ := pure_eq_ok.mp h
  rw [Prod.mk.injEq, Prod.mk.injEq] at hresult
  obtain ⟨rfl, rfl, -⟩ := hresult
  have hlen := length_of_hashes hhs
  have hmid : mid = s.drop (2 + 4 * wordAt s 0) := (takes_hashes s).rest_eq hhs
  refine ⟨hlen, ?_⟩
  rw [Scan.times_nat_eq hoffsets, hlen, hmid]
  simp only [wordAt_drop]

variable {b s : List UInt8} {size n : Nat} {tag : Tag}

theorem payloadSize_of_fixed {value : Scan Value} (hv : fixedValue? tag = some value) (n : Nat) :
    payloadSize size tag n = n * width tag := by
  cases tag with
  | bool | string | table => cases hv
  | _ => rfl

theorem block_of_short (hn : Tag.ofBlock? n = some tag)
    (hlt : s.length < blockSize size tag (wordAt s 0)) : block size n s = .error .truncated := by
  rcases block_cases hn size with ⟨rfl, hb⟩ | ⟨rfl, hb⟩ | ⟨value, hv, hb⟩
  · rw [hb, strings, bind_apply_error]
    exact Scan.orFail_of_error ((takes_stringBlock size s).eq_error hlt) _
  · rw [hb]
    exact Scan.orFail_of_error ((takes_boolBlock s).eq_error hlt) _
  · rw [blockSize, payloadSize_of_fixed hv] at hlt
    rw [hb]
    exact Scan.orFail_of_error ((takes_fixedBlock hv s).eq_error hlt) _

theorem reads_block_of_le (hn : Tag.ofBlock? n = some tag) (ht : tag ≠ .string)
    (hle : blockSize size tag (wordAt s 0) ≤ s.length) : ∃ ps, ps.length = wordAt s 0 ∧
      Reads (block size n) (s.take (blockSize size tag (wordAt s 0))) ps := by
  rcases block_cases hn size with ⟨rfl, hb⟩ | ⟨rfl, hb⟩ | ⟨value, hv, hb⟩
  · contradiction
  · obtain ⟨ps, hps⟩ := (takes_boolBlock s).eq_ok hle
    rw [hb]
    exact ⟨ps, length_of_boolBlock hps,
      Scan.reads_orFail (Scan.reads_of_exact exact_boolBlock hps) _⟩
  · rw [blockSize, payloadSize_of_fixed hv] at hle ⊢
    obtain ⟨ps, hps⟩ := (takes_fixedBlock hv s).eq_ok hle
    rw [hb]
    exact ⟨ps, length_of_fixedBlock hps,
      Scan.reads_orFail (Scan.reads_of_exact (exact_fixedBlock hv) hps) _⟩

theorem block_string (hn : Tag.ofBlock? n = some .string) (size : Nat) :
    block size n = strings size := by
  rcases block_cases hn size with ⟨-, hb⟩ | ⟨ht, -⟩ | ⟨value, hv, -⟩
  · exact hb
  · contradiction
  · contradiction

def textOffsets (s : List UInt8) : List Nat :=
  (List.range (wordAt s 0)).map fun k ↦ wordAt s (2 + 4 * wordAt s 0 + 2 * k)

theorem reads_stringBlock_of_le (hle : blockSize size .string (wordAt s 0) ≤ s.length) :
    ∃ hs area, hs.length = wordAt s 0 ∧ Reads (stringBlock size)
      (s.take (blockSize size .string (wordAt s 0))) (hs, textOffsets s, area) := by
  obtain ⟨⟨hs, offsets, area⟩, hblock⟩ := (takes_stringBlock size s).eq_ok hle
  obtain ⟨hlen, rfl⟩ := stringBlock_eq hblock
  exact ⟨hs, area, hlen, Scan.reads_of_exact (exact_stringBlock size) hblock⟩

theorem fails_strings_of_le (hle : blockSize size .string (wordAt s 0) ≤ s.length) {offset : Nat}
    (hbad : (textOffsets s).find? (size < ·) = some offset) :
    Fails (strings size) (s.take (blockSize size .string (wordAt s 0)))
      (.stringOffset offset size) := by
  obtain ⟨hs, area, -, hreads⟩ := reads_stringBlock_of_le hle
  intro rest
  rw [strings, bind_apply_ok (Scan.reads_orFail hreads DecodeError.truncated rest)]
  simp only [hbad]
  rfl

theorem reads_strings_of_le (hle : blockSize size .string (wordAt s 0) ≤ s.length)
    (hgood : (textOffsets s).find? (size < ·) = none) : ∃ ps, ps.length = wordAt s 0 ∧
      Reads (strings size) (s.take (blockSize size .string (wordAt s 0))) ps := by
  obtain ⟨hs, area, hlen, hreads⟩ := reads_stringBlock_of_le hle
  refine ⟨withValues .string hs ((textOffsets s).map fun o ↦ .string (textAt area o)), ?_,
    fun rest ↦ ?_⟩
  · rw [length_withValues, hlen]
    simp [textOffsets, hlen]
  · rw [strings, bind_apply_ok (Scan.reads_orFail hreads DecodeError.truncated rest)]
    simp only [hgood]
    rfl

def slice (b : List UInt8) (i j : Nat) : List UInt8 := (b.drop i).take (j - i)

theorem slice_append_drop (b : List UInt8) {i j : Nat} (hij : i ≤ j) :
    slice b i j ++ b.drop j = b.drop i := by
  obtain ⟨m, rfl⟩ := Nat.exists_eq_add_of_le hij
  rw [slice, Nat.add_sub_cancel_left, ← List.drop_drop, List.take_append_drop]

theorem slice_append (b : List UInt8) {i j k : Nat} (hij : i ≤ j) (hjk : j ≤ k) :
    slice b i j ++ slice b j k = slice b i k := by
  refine (List.append_left_inj (b.drop k)).mp ?_
  rw [List.append_assoc, slice_append_drop b hjk, slice_append_drop b hij,
    slice_append_drop b (hij.trans hjk)]

variable {tags : List Tag} {ns : List Nat} {es : List Extent} {i stop : Nat}

theorem walk_cons_none (h : walk b size (tag :: tags) i = none) :
    b.length < i + blockSize size tag (wordAt b i) ∨
      i + blockSize size tag (wordAt b i) ≤ b.length ∧
        walk b size tags (i + blockSize size tag (wordAt b i)) = none := by
  rw [walk] at h
  split at h
  · next hlt => exact .inl hlt
  · next hle => exact .inr ⟨Nat.not_lt.mp hle, Option.map_eq_none_iff.mp h⟩

theorem walk_cons_some (h : walk b size (tag :: tags) i = some (es, stop)) :
    i + blockSize size tag (wordAt b i) ≤ b.length ∧ ∃ es', es = ⟨tag, i, wordAt b i⟩ :: es' ∧
      walk b size tags (i + blockSize size tag (wordAt b i)) = some (es', stop) := by
  rw [walk] at h
  split at h
  · contradiction
  · next hle =>
    obtain ⟨⟨es', stop'⟩, hwalk, heq⟩ := Option.map_eq_some_iff.mp h
    obtain ⟨rfl, rfl⟩ := Prod.mk.inj heq
    exact ⟨Nat.not_lt.mp hle, es', rfl, hwalk⟩

theorem walk_bounds (hi : i ≤ b.length) (h : walk b size tags i = some (es, stop)) :
    i ≤ stop ∧ stop ≤ b.length := by
  induction tags generalizing i es with
  | nil =>
    obtain ⟨-, rfl⟩ := Prod.mk.inj (Option.some.inj h)
    exact ⟨Nat.le_refl _, hi⟩
  | cons tag tags ih =>
    obtain ⟨hle, es', -, hwalk⟩ := walk_cons_some h
    have hrest := ih hle hwalk
    omega

theorem wordAt_drop_zero (b : List UInt8) (i : Nat) : wordAt (b.drop i) 0 = wordAt b i :=
  wordAt_drop b i 0

theorem slice_eq_take (b : List UInt8) (i w : Nat) : slice b i (i + w) = (b.drop i).take w := by
  rw [slice, Nat.add_sub_cancel_left]

theorem exists_tag (hn : n < 13) : ∃ tag, Tag.ofBlock? n = some tag :=
  ⟨_, List.getElem?_eq_getElem (show n < Tag.blocks.length from hn)⟩

theorem eq_nil_of_string (hns : (n :: ns).Pairwise (· < ·)) (hlt : ∀ m ∈ ns, m < 13)
    (hn : Tag.ofBlock? n = some .string) : ns = [] := by
  obtain rfl : 12 = n := Option.some.inj (Tag.ofBlock?_eq_some_iff.mp hn)
  refine List.eq_nil_iff_forall_not_mem.mpr fun m hm ↦ ?_
  have hlast := List.rel_of_pairwise_cons hns hm
  have hbound := hlt m hm
  omega

theorem offsets_string (b : List UInt8) (i : Nat) :
    Extent.offsets b ⟨.string, i, wordAt b i⟩ = textOffsets (b.drop i) := by
  rw [Extent.offsets, if_pos rfl, textOffsets, wordAt_drop_zero]
  simp only [wordAt_drop]

theorem offsets_of_ne (b : List UInt8) (ht : tag ≠ .string) (i n : Nat) :
    Extent.offsets b ⟨tag, i, n⟩ = [] := if_neg ht

theorem fails_block_at (hn : Tag.ofBlock? n = some .string)
    (hle : i + blockSize size .string (wordAt b i) ≤ b.length) {offset : Nat}
    (hbad : (Extent.offsets b ⟨.string, i, wordAt b i⟩).find? (size < ·) = some offset) :
    Fails (block size n) (slice b i (i + blockSize size .string (wordAt b i)))
      (.stringOffset offset size) := by
  rw [offsets_string] at hbad
  rw [← wordAt_drop_zero] at hle ⊢
  rw [block_string hn, slice_eq_take]
  refine fails_strings_of_le ?_ hbad
  rw [List.length_drop]
  omega

theorem reads_block_at (hn : Tag.ofBlock? n = some tag)
    (hle : i + blockSize size tag (wordAt b i) ≤ b.length)
    (hgood : (Extent.offsets b ⟨tag, i, wordAt b i⟩).find? (size < ·) = none) :
    ∃ ps, ps.length = wordAt b i ∧
      Reads (block size n) (slice b i (i + blockSize size tag (wordAt b i))) ps := by
  have hfit : blockSize size tag (wordAt (b.drop i) 0) ≤ (b.drop i).length := by
    rw [wordAt_drop_zero, List.length_drop]
    omega
  rw [slice_eq_take, ← wordAt_drop_zero]
  by_cases ht : tag = .string
  · subst ht
    rw [offsets_string] at hgood
    rw [block_string hn]
    exact reads_strings_of_le hfit hgood
  · exact reads_block_of_le hn ht hfit

/-- If the walk leaves the bytes, so does the reader; it has not come to the strings before. -/
theorem mapM_of_none (hns : ns.Pairwise (· < ·)) (hlt : ∀ n ∈ ns, n < 13) (hi : i ≤ b.length)
    (h : walk b size (ns.filterMap Tag.ofBlock?) i = none) :
    ns.mapM (block size) (b.drop i) = .error .truncated := by
  induction ns generalizing i with
  | nil => contradiction
  | cons n ns ih =>
    obtain ⟨hn, htail⟩ := List.forall_mem_cons.mp hlt
    obtain ⟨tag, htag⟩ := exists_tag hn
    rw [List.filterMap_cons_some htag] at h
    rw [List.mapM_cons]
    rcases walk_cons_none h with hshort | ⟨hle, hnone⟩
    · refine bind_apply_error (block_of_short htag ?_) _
      rw [wordAt_drop_zero, List.length_drop]
      omega
    · have ht : tag ≠ .string := by
        rintro rfl
        rw [eq_nil_of_string hns htail htag] at hnone
        contradiction
      obtain ⟨ps, -, hreads⟩ := reads_block_at htag hle (by rw [offsets_of_ne b ht]; rfl)
      rw [← slice_append_drop b (Nat.le_add_right i _), bind_apply_ok (hreads _),
        bind_apply_error (ih hns.of_cons htail hle hnone)]

theorem fails_mapM (hns : ns.Pairwise (· < ·)) (hlt : ∀ n ∈ ns, n < 13)
    (h : walk b size (ns.filterMap Tag.ofBlock?) i = some (es, stop)) {offset : Nat}
    (hbad : (es.flatMap (Extent.offsets b)).find? (size < ·) = some offset) :
    Fails (ns.mapM (block size)) (slice b i stop) (.stringOffset offset size) := by
  induction ns generalizing i es with
  | nil =>
    obtain ⟨rfl, -⟩ := Prod.mk.inj (Option.some.inj h)
    contradiction
  | cons n ns ih =>
    obtain ⟨hn, htail⟩ := List.forall_mem_cons.mp hlt
    obtain ⟨tag, htag⟩ := exists_tag hn
    rw [List.filterMap_cons_some htag] at h
    obtain ⟨hle, es', rfl, hwalk⟩ := walk_cons_some h
    rw [List.mapM_cons, ← slice_append b (Nat.le_add_right i _) (walk_bounds hle hwalk).1]
    by_cases ht : tag = .string
    · subst ht
      -- There is no other block, so that the offset is one of this block.
      obtain rfl := eq_nil_of_string hns htail htag
      obtain ⟨rfl, -⟩ := Prod.mk.inj (Option.some.inj hwalk)
      rw [List.flatMap_singleton] at hbad
      exact (fails_block_at htag hle hbad).bind _ _
    · rw [List.flatMap_cons, offsets_of_ne b ht, List.nil_append] at hbad
      obtain ⟨ps, -, hreads⟩ := reads_block_at htag hle (by rw [offsets_of_ne b ht]; rfl)
      refine hreads.bind_fails ?_
      rw [← List.append_nil (slice b _ stop)]
      exact (ih hns.of_cons htail hwalk hbad).bind _ _

theorem reads_mapM_of_walk (hns : ns.Pairwise (· < ·)) (hlt : ∀ n ∈ ns, n < 13)
    (h : walk b size (ns.filterMap Tag.ofBlock?) i = some (es, stop))
    (hgood : (es.flatMap (Extent.offsets b)).find? (size < ·) = none) :
    ∃ pss, pss.flatten.length = (es.map Extent.count).sum ∧
      Reads (ns.mapM (block size)) (slice b i stop) pss := by
  induction ns generalizing i es with
  | nil =>
    obtain ⟨rfl, rfl⟩ := Prod.mk.inj (Option.some.inj h)
    refine ⟨[], rfl, ?_⟩
    rw [slice, Nat.sub_self, List.take_zero]
    exact Reads.pure []
  | cons n ns ih =>
    obtain ⟨hn, htail⟩ := List.forall_mem_cons.mp hlt
    obtain ⟨tag, htag⟩ := exists_tag hn
    rw [List.filterMap_cons_some htag] at h
    obtain ⟨hle, es', rfl, hwalk⟩ := walk_cons_some h
    rw [List.flatMap_cons, List.find?_append, Option.or_eq_none_iff] at hgood
    obtain ⟨ps, hps, hreads⟩ := reads_block_at htag hle hgood.1
    obtain ⟨pss, hpss, hrest⟩ := ih hns.of_cons htail hwalk hgood.2
    refine ⟨ps :: pss, ?_, ?_⟩
    · rw [List.flatten_cons, List.length_append, hps, hpss, List.map_cons, List.sum_cons]
    · rw [List.mapM_cons, ← slice_append b (Nat.le_add_right i _) (walk_bounds hle hwalk).1]
      refine hreads.bind ?_
      rw [← map_eq_bind]
      exact hrest.map _

variable {flags : Nat}

theorem present_eq (flags : Nat) : present flags =
    (List.range 13).filter flags.testBit ++ [13, 14, 15].filter flags.testBit := by
  rw [present, show List.range 16 = List.range 13 ++ [13, 14, 15] from rfl, List.filter_append]

theorem mapM_reserved (size flags : Nat) :
    ([13, 14, 15].filter flags.testBit).mapM (block size) =
      match reserved? flags with
      | some n => throw (.reservedBlock n)
      | none => pure [] := by
  rw [reserved?, ← List.head?_filter]
  have hreserved : ∀ n ∈ [13, 14, 15].filter flags.testBit,
      block size n = throw (.reservedBlock n) := by
    intro n hn
    have hnone : ∀ n ∈ [13, 14, 15], Tag.ofBlock? n = none := by decide
    simp only [block, hnone n (List.mem_filter.mp hn).1]
  cases hfilter : [13, 14, 15].filter flags.testBit with
  | nil => exact List.mapM_nil
  | cons n ns =>
    rw [hfilter] at hreserved
    rw [List.mapM_cons, hreserved n List.mem_cons_self]
    rfl

theorem blocks_eq (size flags : Nat) : blocks size flags =
    ((List.range 13).filter flags.testBit).mapM (block size) >>= fun pss ↦
      match reserved? flags with
      | some n => throw (.reservedBlock n)
      | none => pure pss.flatten := by
  rw [blocks, present_eq, List.mapM_append, mapM_reserved, map_eq_bind, bind_assoc]
  refine bind_congr fun pss ↦ ?_
  cases reserved? flags with
  | none => simp only [pure_bind, List.append_nil]
  | some n => rfl

theorem pairwise_announced (flags : Nat) :
    ((List.range 13).filter flags.testBit).Pairwise (· < ·) := List.pairwise_lt_range.filter _

theorem lt_of_mem_announced {n : Nat} (h : n ∈ (List.range 13).filter flags.testBit) : n < 13 :=
  List.mem_range.mp (List.mem_filter.mp h).1

theorem blocks_of_none (hi : i ≤ b.length) (h : walk b size (announced flags) i = none) :
    blocks size flags (b.drop i) = .error .truncated := by
  rw [blocks_eq]
  exact bind_apply_error
    (mapM_of_none (pairwise_announced flags) (fun _ ↦ lt_of_mem_announced) hi h) _

theorem blocks_of_walk (h : walk b size (announced flags) i = some (es, stop)) :
    ∃ r : Except DecodeError (List Property), r.map List.length = outcome b size flags es ∧
      ∀ x, blocks size flags (slice b i stop ++ x) = r.map fun ps ↦ (ps, x) := by
  have hlt : ∀ n ∈ (List.range 13).filter flags.testBit, n < 13 := fun _ ↦ lt_of_mem_announced
  rw [outcome, blocks_eq]
  cases hbad : (es.flatMap (Extent.offsets b)).find? (size < ·) with
  | some offset =>
    refine ⟨.error (.stringOffset offset size), rfl, fun x ↦ ?_⟩
    exact bind_apply_error (fails_mapM (pairwise_announced flags) hlt h hbad x) _
  | none =>
    obtain ⟨pss, hlen, hreads⟩ := reads_mapM_of_walk (pairwise_announced flags) hlt h hbad
    cases reserved? flags with
    | some n =>
      refine ⟨.error (.reservedBlock n), rfl, fun x ↦ ?_⟩
      rw [bind_apply_ok (hreads x)]
      rfl
    | none =>
      refine ⟨.ok pss.flatten, congrArg Except.ok hlen, fun x ↦ ?_⟩
      rw [bind_apply_ok (hreads x)]
      rfl

theorem takes_headerWords (s : List UInt8) : Scan.Takes headerWords s 4 :=
  ((Scan.takes_nat 2 s).map _).seq (Scan.takes_nat 2)

theorem headerWords_eq {r : Nat × Nat} {rest : List UInt8} (h : headerWords s = .ok (r, rest)) :
    r = (wordAt s 0, wordAt s 2) ∧ rest = s.drop 4 := by
  refine ⟨?_, (takes_headerWords s).rest_eq h⟩
  rw [headerWords, seq_eq_bind, map_eq_bind, bind_assoc, bind_eq_ok] at h
  obtain ⟨a, mid, ha, h⟩ := h
  rw [pure_bind, bind_eq_ok] at h
  obtain ⟨c, mid', hc, h⟩ := h
  obtain ⟨rfl, -⟩ := pure_eq_ok.mp h
  obtain ⟨rfl, rfl⟩ := Scan.nat_eq_wordAt ha
  obtain ⟨rfl, -⟩ := Scan.nat_eq_wordAt hc
  rw [wordAt_drop]

theorem decode_header_append (hv : b.head? = some formatVersion) (hlen : 5 ≤ b.length)
    (x : List UInt8) : decode (b.take 5 ++ x) =
      (treeOf ·.1) <$> blocks (wordAt b 1) (wordAt b 3) x := by
  obtain ⟨rest, rfl⟩ := List.head?_eq_some_iff.mp hv
  obtain ⟨r, hr⟩ := (takes_headerWords rest).eq_ok (Nat.le_of_succ_le_succ hlen)
  obtain ⟨rfl, -⟩ := headerWords_eq hr
  exact decode_of_header (Scan.reads_of_exact exact_headerWords hr x)

theorem decode_of_version {v : UInt8} (hv : v ≠ formatVersion) (rest : List UInt8) :
    decode (v :: rest) = .error (if v = 1 then .versionOne else .version v) := by
  rw [decode, if_neg hv]
  split <;> rfl

theorem layout_eq_some (h : layout b = some (es, stop)) : 5 ≤ b.length ∧
    walk b (wordAt b 1) (announced (wordAt b 3)) 5 = some (es, stop) := by
  rw [layout] at h
  split at h
  · contradiction
  · next hle => exact ⟨Nat.not_lt.mp hle, h⟩

/-- Bytes behind the last block do not count. -/
theorem decode_take_append (h : layout b = some (es, stop)) (x : List UInt8) :
    decode (b.take stop ++ x) = decode b := by
  obtain ⟨hlen, hwalk⟩ := layout_eq_some h
  have hle := (walk_bounds hlen hwalk).1
  by_cases hv : b.head? = some formatVersion
  · obtain ⟨r, -, hblocks⟩ := blocks_of_walk hwalk
    have hdecode : ∀ y, decode (b.take stop ++ y) = r.map treeOf := by
      intro y
      obtain ⟨m, rfl⟩ := Nat.exists_eq_add_of_le hle
      rw [List.take_add, ← slice_eq_take, List.append_assoc, decode_header_append hv hlen, hblocks]
      cases r <;> rfl
    have hall := hdecode (b.drop stop)
    rw [List.take_append_drop] at hall
    rw [hdecode, hall]
  · cases b with
    | nil => contradiction
    | cons v rest =>
      have hne : v ≠ formatVersion := fun heq ↦ hv (congrArg some heq)
      obtain ⟨m, rfl⟩ := Nat.exists_eq_add_of_le hle
      rw [Nat.add_comm, List.take_succ_cons, List.cons_append, decode_of_version hne,
        decode_of_version hne]

theorem size_treeOf (ps : List Property) : (treeOf ps).size = ps.length := by
  rw [Tree.size, properties_treeOf]

theorem map_size_blocks (hlen : 5 ≤ b.length) :
    ((treeOf ·.1) <$> blocks (wordAt b 1) (wordAt b 3) (b.drop 5)).map Tree.size =
      match layout b with
      | none => .error .truncated
      | some (es, _) => outcome b (wordAt b 1) (wordAt b 3) es := by
  rw [layout, if_neg (Nat.not_lt.mpr hlen)]
  cases hwalk : walk b (wordAt b 1) (announced (wordAt b 3)) 5 with
  | none =>
    rw [blocks_of_none hlen hwalk]
    rfl
  | some l =>
    obtain ⟨r, hr, hblocks⟩ := blocks_of_walk hwalk
    rw [← slice_append_drop b (walk_bounds hlen hwalk).1, hblocks]
    show _ = outcome b (wordAt b 1) (wordAt b 3) l.1
    rw [← hr]
    cases r with
    | error e => rfl
    | ok ps => exact congrArg Except.ok (size_treeOf ps)

theorem map_size_decode (b : List UInt8) : (decode b).map Tree.size = verdict b := by
  cases b with
  | nil => rfl
  | cons v rest =>
    rw [verdict]
    by_cases hv : v = formatVersion
    · rw [if_neg (by rw [hv]; decide), if_neg (fun hne ↦ hne hv)]
      split
      · next hlt =>
        rw [hv, decode_of_short ((takes_headerWords rest).eq_error (Nat.lt_of_succ_lt_succ hlt))]
        rfl
      · next hle =>
        have hlen := Nat.not_lt.mp hle
        have hdecode := decode_header_append (b := v :: rest) (congrArg some hv) hlen
          ((v :: rest).drop 5)
        rw [List.take_append_drop] at hdecode
        rw [hdecode, map_size_blocks hlen]
    · rw [decode_of_version hv, if_pos hv]
      split <;> rfl

/-- What is read of a byte string is what its blocks' extents say, and nothing behind the last block
has a part in it. -/
theorem decode_eq_verdict (b : List UInt8) : (decode b).map Tree.size = verdict b ∧
    ∀ es stop, layout b = some (es, stop) → ∀ x, decode (b.take stop ++ x) = decode b :=
  ⟨map_size_decode b, fun _ _ h x ↦ decode_take_append h x⟩

def oneByte : List UInt8 := [2, 0, 0, 16, 0, 1, 0, 7, 0, 0, 0, 9]

theorem oneByte_extents : layout oneByte = some ([⟨.byte, 5, 1⟩], 12) ∧
    (decode oneByte).map Tree.size = .ok 1 ∧ ∀ x, decode (oneByte ++ x) = decode oneByte := by
  have hlayout : layout oneByte = some ([⟨.byte, 5, 1⟩], 12) := by decide
  obtain ⟨hsize, hrest⟩ := decode_eq_verdict oneByte
  exact ⟨hlayout, hsize.trans (by rfl), hrest _ _ hlayout⟩

end PropertyFile.Inibin
