import Mathlib.Data.Fin.Tuple.Basic
import Mathlib.Data.List.Permutation
import PropertyFile.Proofs.Inibin.Blocks

namespace PropertyFile.Inibin

open Reader

def tagAt (n : Nat) : Tag := (Tag.ofBlock? n).getD .table

theorem blocks_eq_map : Tag.blocks = (List.range 13).map tagAt := by decide

theorem block?_tagAt {n : Nat} (h : n < 13) : (tagAt n).block? = some n := by
  revert n
  decide

theorem tagAt_eq_string {n : Nat} (h : n < 13) : tagAt n = .string ↔ n = 12 := by
  revert n
  decide

theorem flatMap_filter {α β : Type} (q : α → Bool) (f : α → List β) (l : List α)
    (h : ∀ a ∈ l, q a = false → f a = []) : (l.filter q).flatMap f = l.flatMap f := by
  induction l with
  | nil => rfl
  | cons a l ih =>
    have hl := ih fun b hb ↦ h b (List.mem_cons_of_mem a hb)
    rw [List.flatMap_cons, ← hl]
    cases hq : q a with
    | false => rw [List.filter_cons_of_neg (by simp only [hq, Bool.false_eq_true,
        not_false_eq_true]), h a List.mem_cons_self hq, List.nil_append]
    | true => rw [List.filter_cons_of_pos hq, List.flatMap_cons]

variable (entries : List Entry)

def occupied (n : Nat) : Bool := !(blockEntries (tagAt n) entries).isEmpty

theorem typeBlocks_eq : typeBlocks entries =
    ((List.range 13).filter (occupied entries)).map fun n ↦
      (tagAt n, blockEntries (tagAt n) entries) := by
  rw [typeBlocks, blocks_eq_map, List.map_map, List.filter_map]
  rfl

theorem flags_typeBlocks : flags (typeBlocks entries) = flagsOf (occupied entries) 13 := by
  rw [typeBlocks_eq, flags, List.foldr_map, flagsOf]
  refine List.foldr_ext _ _ _ fun n hn m ↦ ?_
  rw [block?_tagAt (List.mem_range.mp (List.mem_filter.mp hn).1), Option.getD_some]

theorem readBack_of_vacant {n : Nat} (h : occupied entries n = false) :
    readBack (blockEntries (tagAt n) entries) = [] := by
  rw [occupied, Bool.not_eq_false', List.isEmpty_iff] at h
  rw [h]
  rfl

theorem readBack_blockEntries (ps : List Property) :
    ((List.range 13).filter (occupied (placed 0 ps))).flatMap
      (fun n ↦ readBack (blockEntries (tagAt n) (placed 0 ps))) = (inBlocks ps).map stored := by
  rw [flatMap_filter _ _ _ fun n _ ↦ readBack_of_vacant (placed 0 ps), inBlocks, blocks_eq_map,
    List.flatMap_map, List.map_flatMap]
  refine List.flatMap_congr fun n _ ↦ ?_
  rw [← map_property_blockEntries _ 0, List.map_map]
  rfl

theorem stringArea_of_vacant {ps : List Property} (hfit : ∀ p ∈ ps, Fits p)
    (h : occupied (placed 0 ps) 12 = false) : stringArea ps = [] := by
  rw [occupied, Bool.not_eq_false', List.isEmpty_iff] at h
  rw [stringArea, List.flatMap_eq_nil_iff]
  intro p hp
  have hcount := length_blockEntries (tagAt 12) 0 ps
  rw [h] at hcount
  have hempty := List.filter_eq_nil_iff.mp (List.length_eq_zero_iff.mp hcount.symm) p hp
  have ht : p.tag ≠ .string := fun h ↦ hempty (decide_eq_true h)
  have ha := (hfit p hp).2
  cases hv : p.value <;> simp only [areaPart, hv]
  cases htag : p.tag <;> simp only [htag, hv, Tag.accepts, Bool.false_eq_true] at ha
  exact absurd htag ht

/-- The bytes that a block is read from: the string area is read with the string block. -/
def blockExtent (ps : List Property) (n : Nat) : List UInt8 :=
  blockSpelling (tagAt n) (blockEntries (tagAt n) (placed 0 ps)) ++
    if tagAt n = .string then stringArea ps else []

theorem body_eq {ps : List Property} (hfit : ∀ p ∈ ps, Fits p) :
    ((typeBlocks (placed 0 ps)).flatMap fun b ↦ blockSpelling b.1 b.2) ++ stringArea ps =
      ((List.range 13).filter (occupied (placed 0 ps))).flatMap (blockExtent ps) := by
  have hr : List.range 13 = List.range 12 ++ [12] := by decide
  have hlow : ∀ l : List Nat, (∀ n ∈ l, n < 12) → l.flatMap (blockExtent ps) =
      l.flatMap fun n ↦ blockSpelling (tagAt n) (blockEntries (tagAt n) (placed 0 ps)) := by
    intro l hl
    refine List.flatMap_congr fun n hn ↦ ?_
    have hlt := hl n hn
    have hs : tagAt n ≠ .string := fun h ↦ by
      have := (tagAt_eq_string (by omega)).mp h
      omega
    rw [blockExtent, if_neg hs, List.append_nil]
  have hmem : ∀ n ∈ (List.range 12).filter (occupied (placed 0 ps)), n < 12 :=
    fun n hn ↦ List.mem_range.mp (List.mem_filter.mp hn).1
  rw [typeBlocks_eq, List.flatMap_map, hr, List.filter_append, List.flatMap_append,
    List.flatMap_append, hlow _ hmem]
  cases ho : occupied (placed 0 ps) 12 with
  | false =>
    rw [List.filter_cons_of_neg (by simp only [ho, Bool.false_eq_true, not_false_eq_true]),
      List.filter_nil, stringArea_of_vacant hfit ho]
    simp only [List.flatMap_nil, List.append_nil]
  | true =>
    rw [List.filter_cons_of_pos ho, List.filter_nil, List.flatMap_singleton, List.flatMap_singleton,
      List.append_assoc]
    rfl

theorem mem_placed {ps : List Property} {tag : Tag} (hfit : ∀ p ∈ ps, Fits p) {e : Entry}
    (h : e ∈ blockEntries tag (placed 0 ps)) :
    e ∈ placed 0 ps ∧ e.property.tag = tag ∧ Fits e.property := by
  obtain ⟨hmem, ht⟩ := mem_of_mem_blockEntries h
  refine ⟨hmem, ht, hfit _ ?_⟩
  rw [← map_property_placed 0 ps]
  exact List.mem_map_of_mem hmem

theorem reads_blocks {ps : List Property} (hfit : ∀ p ∈ ps, Fits p)
    (harea : (stringArea ps).length ≤ limit)
    (hcount : ∀ tag, (ps.filter (·.tag = tag)).length ≤ limit) :
    Reads (blocks (stringArea ps).length (flags (typeBlocks (placed 0 ps))))
      (((typeBlocks (placed 0 ps)).flatMap fun b ↦ blockSpelling b.1 b.2) ++ stringArea ps)
      ((inBlocks ps).map stored) := by
  rw [blocks, flags_typeBlocks, present_flagsOf, body_eq hfit, ← readBack_blockEntries,
    List.flatMap_def]
  refine Reads.map (reads_mapM fun n hn ↦ ?_) List.flatten
  have h13 := List.mem_range.mp (List.mem_filter.mp hn).1
  refine reads_block (block?_tagAt h13) harea ?_ fun e he ↦ mem_placed hfit he
  rw [length_blockEntries]
  exact hcount _

def headerWords : Scan (Nat × Nat) := Prod.mk <$> Scan.nat 2 <*> Scan.nat 2

theorem reads_headerWords {size flags : Nat} (hs : size < 65536) (hf : flags < 65536) :
    Reads headerWords (leBytes 2 size ++ leBytes 2 flags) (size, flags) :=
  ((Scan.reads_nat (show size < Nat.pow 256 2 from hs)).map Prod.mk).seq
    (Scan.reads_nat (show flags < Nat.pow 256 2 from hf))

theorem exact_headerWords : Exact headerWords .outOfBytes :=
  ((Scan.exact_nat 2).map Prod.mk).seq (Scan.exact_nat 2)

theorem decode_of_header {rest body : List UInt8} {size flags : Nat}
    (h : headerWords rest = .ok ((size, flags), body)) :
    decode (formatVersion :: rest) = (treeOf ·.1) <$> blocks size flags body := by
  rw [headerWords] at h
  simp only [decode, if_true, h]
  rfl

theorem decode_of_short {rest : List UInt8} (h : headerWords rest = .error .outOfBytes) :
    decode (formatVersion :: rest) = .error .shortHeader := by
  rw [headerWords] at h
  simp only [decode, if_true, h]

/-- Bytes that are read to their end cannot do without any of their last ones. -/
theorem decode_cut_short {rest body x y : List UInt8} {size flags : Nat} {ps : List Property}
    (hheader : headerWords rest = .ok ((size, flags), body))
    (hbody : blocks size flags body = .ok (ps, [])) (hx : formatVersion :: rest = x ++ y)
    (hy : y ≠ []) : ∃ e, decode x = .error e := by
  cases x with
  | nil => exact ⟨.empty, rfl⟩
  | cons v x =>
    obtain ⟨rfl, hrest⟩ := List.cons.inj hx
    obtain ⟨used, rfl, hreads, hfail⟩ := exact_headerWords _ _ _ hheader
    rcases List.append_eq_append_iff.mp hrest with ⟨w, rfl, hw⟩ | ⟨w, rfl, hw⟩
    · refine ⟨.truncated, ?_⟩
      rw [decode_of_header (hreads w), (exact_blocks size flags).cut_short hbody hw hy]
      rfl
    · cases w with
      | nil =>
        have hused := hreads []
        rw [List.append_nil, List.append_nil] at hused
        refine ⟨.truncated, ?_⟩
        have hall : body = [] ++ y := hw.symm
        rw [decode_of_header hused, (exact_blocks size flags).cut_short hbody hall hy]
        rfl
      | cons c w =>
        exact ⟨.shortHeader, decode_of_short (hfail x (c :: w) rfl (List.cons_ne_nil c w))⟩

theorem inBlocks_perm {ps : List Property} (h : ∀ p ∈ ps, p.tag ≠ .table) :
    (inBlocks ps).Perm ps := by
  have hnone : ps.filter (·.tag ∉ Tag.blocks) = [] := by
    rw [List.filter_eq_nil_iff]
    intro p hp
    simp only [mem_blocks (h p hp), not_true_eq_false, decide_false, Bool.false_eq_true,
      not_false_eq_true]
  have hperm := StableSort.perm_flatMap_filter Property.tag ps Tag.blocks (by decide)
  rw [hnone, List.append_nil] at hperm
  exact (List.Perm.flatMap_left _ fun t _ ↦ List.mergeSort_perm _ _).trans hperm

def readTree (ps : List Property) : Tree :=
  ⟨formatVersion, if ps.isEmpty then [] else [⟨0, rawSection, (inBlocks ps).map stored⟩]⟩

theorem treeOf_inBlocks {ps : List Property} (hfit : ∀ p ∈ ps, Fits p) :
    treeOf ((inBlocks ps).map stored) = readTree ps := by
  have hperm := inBlocks_perm fun p hp ↦ (hfit p hp).1
  have hempty : ((inBlocks ps).map stored).isEmpty = ps.isEmpty := by
    rw [List.isEmpty_map]
    exact hperm.isEmpty_eq
  rw [treeOf, readTree, hempty]

theorem packed_eq (ps : List Property) : packed ps =
    formatVersion :: ((leBytes 2 (stringArea ps).length ++
      leBytes 2 (flags (typeBlocks (placed 0 ps)))) ++
      (((typeBlocks (placed 0 ps)).flatMap fun b ↦ blockSpelling b.1 b.2) ++ stringArea ps)) := by
  simp only [packed, header, List.cons_append, List.append_assoc]

theorem flags_typeBlocks_lt (ps : List Property) : flags (typeBlocks (placed 0 ps)) < 65536 := by
  rw [flags_typeBlocks]
  exact (flagsOf_lt _ 13).trans_le (by decide)

theorem decode_packed {ps : List Property} (hfit : ∀ p ∈ ps, Fits p)
    (harea : (stringArea ps).length ≤ limit)
    (hcount : ∀ tag, (ps.filter (·.tag = tag)).length ≤ limit) :
    decode (packed ps) = .ok (readTree ps) ∧
      ∀ x y, packed ps = x ++ y → y ≠ [] → ∃ e, decode x = .error e := by
  have hheader := reads_headerWords (Nat.lt_succ_of_le harea) (flags_typeBlocks_lt ps)
    (((typeBlocks (placed 0 ps)).flatMap fun b ↦ blockSpelling b.1 b.2) ++ stringArea ps)
  have hbody := reads_blocks hfit harea hcount []
  rw [List.append_nil] at hbody
  rw [packed_eq]
  refine ⟨?_, fun x y hx hy ↦ decode_cut_short hheader hbody hx hy⟩
  rw [decode_of_header hheader, hbody, ← treeOf_inBlocks hfit]
  rfl

/-- What is read of a tree's properties is what the format keeps of them, each once. -/
theorem properties_readTree {ps : List Property} (hfit : ∀ p ∈ ps, Fits p) :
    (readTree ps).properties.Perm (ps.map stored) := by
  have hperm := (inBlocks_perm fun p hp ↦ (hfit p hp).1).map stored
  cases ps with
  | nil => exact List.Perm.refl []
  | cons p ps =>
    simpa only [readTree, List.isEmpty_cons, Bool.false_eq_true, if_false, Tree.properties,
      List.flatMap_singleton] using hperm

/-- What was written is read back: the properties block by block, each once, with what the format
keeps of its value. No byte at the end can be left out. -/
theorem decode_encode (t : Tree) (bytes : List UInt8) (h : encode t = .ok bytes) :
    decode bytes = .ok (readTree t.properties) ∧
      (readTree t.properties).properties.Perm (t.properties.map stored) ∧
      ∀ x y, bytes = x ++ y → y ≠ [] → ∃ e, decode x = .error e := by
  obtain ⟨-, hfit, harea, hcount, rfl⟩ := encode_eq_ok_iff.mp h
  obtain ⟨hread, hshort⟩ := decode_packed hfit harea hcount
  exact ⟨hread, properties_readTree hfit, hshort⟩

def mixedTree : Tree :=
  ⟨2, [⟨1, "A", [⟨30, none, .bool true, .bool⟩, ⟨10, some "b", .bool false, .bool⟩]⟩,
    ⟨2, "B", [⟨7, none, .string "hi\x00u", .string⟩]⟩]⟩

def mixedBytes : List UInt8 :=
  [2, 5, 0, 32, 16, 2, 0, 10, 0, 0, 0, 30, 0, 0, 0, 2, 1, 0, 7, 0, 0, 0, 0, 0, 104, 105, 0, 117, 0]

theorem encode_mixedTree : encode mixedTree = .ok mixedBytes := by
  have hblocks : typeBlocks (placed 0 mixedTree.properties) =
      [(.bool, [⟨⟨10, some "b", .bool false, .bool⟩, 0⟩, ⟨⟨30, none, .bool true, .bool⟩, 0⟩]),
        (.string, [⟨⟨7, none, .string "hi\x00u", .string⟩, 0⟩])] := by cbv
  have hflags : flags (typeBlocks (placed 0 mixedTree.properties)) = 4128 := by
    rw [hblocks]
    rfl
  refine encode_eq_ok_iff.mpr ⟨rfl, ?_, by cbv, fun tag ↦ ?_, ?_⟩
  · simp [mixedTree, Tree.properties, Fits, Tag.accepts]
  · exact (List.length_filter_le _ _).trans (by decide)
  · simp only [packed]
    rw [hflags, hblocks]
    cbv

theorem decode_mixedBytes : encode mixedTree = .ok mixedBytes ∧
    decode mixedBytes = .ok ⟨2, [⟨0, "Unknown Section",
      [⟨10, none, .bool false, .bool⟩, ⟨30, none, .bool true, .bool⟩,
        ⟨7, none, .string "hi", .string⟩]⟩]⟩ := by
  refine ⟨encode_mixedTree, (decode_encode mixedTree mixedBytes encode_mixedTree).1.trans ?_⟩
  cbv

end PropertyFile.Inibin
