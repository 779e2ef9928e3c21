import PropertyFile.Proofs.Inibin.Stored

namespace PropertyFile.Inibin

/-- A property whose tag has a block and names the shape of its value. -/
def Fits (p : Property) : Prop := p.tag ≠ .table ∧ p.tag.accepts p.value = true

def placed (size : Nat) : List Property → List Entry
  | [] => []
  | p :: ps => ⟨p, size⟩ :: placed (size + (areaPart p).length) ps

theorem map_property_placed (size : Nat) (ps : List Property) :
    (placed size ps).map Entry.property = ps := by
  induction ps generalizing size with
  | nil => rfl
  | cons p ps ih => rw [placed, List.map_cons, ih]

theorem fault?_eq_none_iff {size : Nat} {p : Property} :
    fault? size p = none ↔ Fits p ∧ ¬ (p.tag = .string ∧ limit < size) := by
  simp only [fault?, Fits]
  constructor
  · intro h
    split at h
    · cases h
    · next ht =>
      split at h
      · cases h
      · next ha =>
        split at h
        · cases h
        · next hs =>
          simp only [Bool.not_eq_true', Bool.not_eq_false] at ha
          exact ⟨⟨ht, ha⟩, hs⟩
  · rintro ⟨⟨ht, ha⟩, hs⟩
    rw [if_neg ht, ha, Bool.not_true, if_neg Bool.false_ne_true, if_neg hs]

theorem length_stringArea_cons (p : Property) (ps : List Property) :
    (stringArea (p :: ps)).length = (areaPart p).length + (stringArea ps).length := by
  rw [stringArea, List.flatMap_cons, List.length_append]
  rfl

theorem layOutFrom_eq_ok_iff {size : Nat} {done entries : List Entry} {ps : List Property} :
    layOutFrom size done ps = .ok entries ↔ entries = done.reverse ++ placed size ps ∧
      (∀ p ∈ ps, Fits p) ∧ size + (stringArea ps).length ≤ limit := by
  induction ps generalizing size done with
  | nil =>
    simp only [layOutFrom, placed, List.append_nil, stringArea, List.flatMap_nil, List.length_nil,
      Nat.add_zero, List.not_mem_nil, false_imp_iff, implies_true, true_and]
    split
    · next h =>
      constructor
      · intro h'
        cases h'
      · rintro ⟨-, h'⟩
        omega
    · next h =>
      constructor
      · intro h'
        injection h' with h'
        exact ⟨h'.symm, by omega⟩
      · rintro ⟨rfl, -⟩
        rfl
  | cons p ps ih =>
    rw [layOutFrom, length_stringArea_cons, ← Nat.add_assoc]
    cases hf : fault? size p with
    | some e =>
      constructor
      · intro h
        cases h
      · rintro ⟨-, hall, hsize⟩
        have hnone : fault? size p = none :=
          fault?_eq_none_iff.mpr ⟨hall p List.mem_cons_self, by omega⟩
        rw [hf] at hnone
        cases hnone
    | none =>
      have hp := (fault?_eq_none_iff.mp hf).1
      rw [ih]
      simp only [placed, List.reverse_cons, List.append_assoc, List.singleton_append,
        List.forall_mem_cons, hp, true_and]

theorem layOut_eq_ok_iff {entries : List Entry} {ps : List Property} :
    layOut ps = .ok entries ↔
      entries = placed 0 ps ∧ (∀ p ∈ ps, Fits p) ∧ (stringArea ps).length ≤ limit := by
  rw [layOut, layOutFrom_eq_ok_iff, List.reverse_nil, List.nil_append, Nat.zero_add]

theorem map_property_blockEntries (tag : Tag) (size : Nat) (ps : List Property) :
    (blockEntries tag (placed size ps)).map Entry.property =
      (ps.filter (·.tag = tag)).mergeSort byHash := by
  have hsort : ∀ es : List Entry,
      (es.mergeSort fun a b ↦ decide (a.property.hash ≤ b.property.hash)).map Entry.property =
        (es.map Entry.property).mergeSort byHash := fun es ↦ List.map_mergeSort fun _ _ _ _ ↦ rfl
  rw [blockEntries, hsort]
  congr 1
  conv_rhs => rw [← map_property_placed size ps, List.filter_map]
  rfl

theorem length_blockEntries (tag : Tag) (size : Nat) (ps : List Property) :
    (blockEntries tag (placed size ps)).length = (ps.filter (·.tag = tag)).length := by
  have h := congrArg List.length (map_property_blockEntries tag size ps)
  rwa [List.length_map, List.length_mergeSort] at h

theorem mem_of_mem_blockEntries {tag : Tag} {entries : List Entry} {e : Entry}
    (h : e ∈ blockEntries tag entries) : e ∈ entries ∧ e.property.tag = tag := by
  rw [blockEntries, List.mem_mergeSort, List.mem_filter, decide_eq_true_eq] at h
  exact h

def blockSpelling (tag : Tag) (entries : List Entry) : List UInt8 :=
  leBytes 2 entries.length ++ entries.flatMap (fun e ↦ leBytes 4 e.property.hash.toNat) ++
    payload tag entries

def packed (ps : List Property) : List UInt8 :=
  let blocks := typeBlocks (placed 0 ps)
  header (stringArea ps).length (flags blocks) ++
    blocks.flatMap (fun b ↦ blockSpelling b.1 b.2) ++ stringArea ps

theorem blockBytes_eq_ok_iff {tag : Tag} {entries : List Entry} {bytes : List UInt8} :
    blockBytes tag entries = .ok bytes ↔
      entries.length ≤ limit ∧ bytes = blockSpelling tag entries := by
  rw [blockBytes]
  split
  · next h =>
    constructor
    · intro h'
      cases h'
    · rintro ⟨h', -⟩
      omega
  · next h =>
    constructor
    · intro h'
      injection h' with h'
      exact ⟨by omega, h'.symm⟩
    · rintro ⟨-, rfl⟩
      rfl

theorem blockBytes_eq_error {tag : Tag} {entries : List Entry} {e : EncodeError}
    (h : blockBytes tag entries = .error e) :
    limit < entries.length ∧ e = .tooMany entries.length tag := by
  rw [blockBytes] at h
  split at h
  · next hcount =>
    cases h
    exact ⟨hcount, rfl⟩
  · cases h

theorem ofPieces_failure {pieces : List (Except EncodeError (List UInt8))}
    (h : (Written.ofPieces pieces).failure = none) : ∀ x ∈ pieces, ∃ bytes, x = .ok bytes := by
  induction pieces with
  | nil =>
    intro x hx
    cases hx
  | cons piece pieces ih =>
    cases piece with
    | error e => cases h
    | ok bytes =>
      intro x hx
      rcases List.mem_cons.mp hx with rfl | hx
      · exact ⟨bytes, rfl⟩
      · exact ih h x hx

theorem mem_of_ofPieces_failure {pieces : List (Except EncodeError (List UInt8))} {e : EncodeError}
    (h : (Written.ofPieces pieces).failure = some e) : .error e ∈ pieces := by
  induction pieces with
  | nil => cases h
  | cons piece pieces ih =>
    cases piece with
    | error e' =>
      obtain rfl : e' = e := Option.some.inj h
      exact List.mem_cons_self
    | ok bytes => exact List.mem_cons_of_mem _ (ih h)

theorem ofPieces_ok (spellings : List (List UInt8)) :
    Written.ofPieces (spellings.map .ok) = ⟨spellings.flatten, none⟩ := by
  induction spellings with
  | nil => rfl
  | cons bytes spellings ih =>
    rw [List.map_cons, Written.ofPieces, ih]
    rfl

theorem length_filter_table {ps : List Property} (h : ∀ p ∈ ps, Fits p) :
    (ps.filter (·.tag = .table)).length = 0 := by
  rw [List.length_eq_zero_iff, List.filter_eq_nil_iff]
  intro p hp
  simpa only [decide_eq_true_eq] using (h p hp).1

theorem mem_blocks {tag : Tag} (h : tag ≠ .table) : tag ∈ Tag.blocks := by
  cases tag with
  | table => exact absurd rfl h
  | _ => decide

theorem mem_typeBlocks {entries : List Entry} {b : Tag × List Entry} (h : b ∈ typeBlocks entries) :
    b.1 ∈ Tag.blocks ∧ b.2 = blockEntries b.1 entries := by
  obtain ⟨tag, htag, rfl⟩ := List.mem_map.mp (List.mem_filter.mp h).1
  exact ⟨htag, rfl⟩

theorem typeBlocks_le_iff {ps : List Property} (h : ∀ p ∈ ps, Fits p) :
    (∀ b ∈ typeBlocks (placed 0 ps), b.2.length ≤ limit) ↔
      ∀ tag, (ps.filter (·.tag = tag)).length ≤ limit := by
  simp only [typeBlocks, List.mem_filter, List.mem_map]
  constructor
  · intro hb tag
    by_cases ht : tag = .table
    · subst ht
      rw [length_filter_table h]
      exact Nat.zero_le limit
    · rw [← length_blockEntries tag 0 ps]
      cases he : blockEntries tag (placed 0 ps) with
      | nil => exact Nat.zero_le limit
      | cons e es =>
        rw [← he]
        exact hb (tag, blockEntries tag (placed 0 ps)) ⟨⟨tag, mem_blocks ht, rfl⟩, by
          rw [he]
          rfl⟩
  · rintro hb _ ⟨⟨tag, -, rfl⟩, -⟩
    rw [length_blockEntries]
    exact hb tag

def pieces (ps : List Property) : List (Except EncodeError (List UInt8)) :=
  let blocks := typeBlocks (placed 0 ps)
  .ok (header (stringArea ps).length (flags blocks)) ::
    (blocks.map fun b ↦ blockBytes b.1 b.2) ++ [.ok (stringArea ps)]

theorem ofPieces_pieces {ps : List Property}
    (h : ∀ b ∈ typeBlocks (placed 0 ps), b.2.length ≤ limit) :
    Written.ofPieces (pieces ps) = ⟨packed ps, none⟩ := by
  have hblocks : ((typeBlocks (placed 0 ps)).map fun b ↦ blockBytes b.1 b.2) =
      ((typeBlocks (placed 0 ps)).map fun b ↦ blockSpelling b.1 b.2).map .ok := by
    rw [List.map_map]
    exact List.map_congr_left fun b hb ↦ blockBytes_eq_ok_iff.mpr ⟨h b hb, rfl⟩
  have hp : pieces ps = (header (stringArea ps).length (flags (typeBlocks (placed 0 ps))) ::
      ((typeBlocks (placed 0 ps)).map fun b ↦ blockSpelling b.1 b.2) ++
        [stringArea ps]).map .ok := by
    simp only [pieces, hblocks, List.map_append, List.map_cons, List.map_nil]
  rw [hp, ofPieces_ok]
  simp only [packed, List.flatten_append, List.flatten_cons, List.flatten_nil, List.append_nil,
    List.flatMap_def, List.cons_append, List.append_assoc]

theorem write_of_layOut {t : Tree} (hv : t.version = formatVersion)
    (hfit : ∀ p ∈ t.properties, Fits p) (hsize : (stringArea t.properties).length ≤ limit) :
    write t = .ofPieces (pieces t.properties) := by
  have hl := layOut_eq_ok_iff.mpr ⟨rfl, hfit, hsize⟩
  simp only [write, hl, hv, ne_eq, not_true_eq_false, if_false]
  rfl

theorem encode_of_version_ne {t : Tree} (h : t.version ≠ formatVersion) :
    encode t = .error (.version t.version) := by
  rw [encode, write, if_pos h]

theorem encode_of_layOut_eq_error {t : Tree} {e : EncodeError} (hv : t.version = formatVersion)
    (h : layOut t.properties = .error e) : encode t = .error e := by
  simp only [encode, write, hv, h, ne_eq, not_true_eq_false, if_false]

/-- A tree is written exactly if its version is the known one, every property fits, and no count
and no size exceeds the format. -/
theorem encode_eq_ok_iff {t : Tree} {bytes : List UInt8} :
    encode t = .ok bytes ↔ t.version = formatVersion ∧ (∀ p ∈ t.properties, Fits p) ∧
      (stringArea t.properties).length ≤ limit ∧
      (∀ tag, (t.properties.filter (·.tag = tag)).length ≤ limit) ∧
      bytes = packed t.properties := by
  constructor
  · intro h
    have hv : t.version = formatVersion := by
      by_contra hne
      rw [encode_of_version_ne hne] at h
      cases h
    obtain ⟨entries, hl⟩ : ∃ entries, layOut t.properties = .ok entries := by
      cases hl : layOut t.properties with
      | ok entries => exact ⟨entries, rfl⟩
      | error e =>
        rw [encode_of_layOut_eq_error hv hl] at h
        cases h
    obtain ⟨-, hfit, hsize⟩ := layOut_eq_ok_iff.mp hl
    have hw := write_of_layOut hv hfit hsize
    have hfail : (Written.ofPieces (pieces t.properties)).failure = none := by
      cases hf : (Written.ofPieces (pieces t.properties)).failure with
      | none => rfl
      | some e =>
        simp only [encode, hw, hf] at h
        cases h
    have hcount : ∀ b ∈ typeBlocks (placed 0 t.properties), b.2.length ≤ limit := by
      intro b hb
      obtain ⟨spelled, hs⟩ := ofPieces_failure hfail (blockBytes b.1 b.2)
        (List.mem_append_left _ (List.mem_cons_of_mem _ (List.mem_map_of_mem hb)))
      exact (blockBytes_eq_ok_iff.mp hs).1
    refine ⟨hv, hfit, hsize, (typeBlocks_le_iff hfit).mp hcount, ?_⟩
    simp only [encode, hw, ofPieces_pieces hcount] at h
    injection h with h
    exact h.symm
  · rintro ⟨hv, hfit, hsize, hcount, rfl⟩
    have hp := ofPieces_pieces ((typeBlocks_le_iff hfit).mpr hcount)
    simp only [encode, write_of_layOut hv hfit hsize, hp]

/-- A text that was placed stands in the area at its place, and a zero byte follows it. -/
theorem text_at_offset {size : Nat} {ps : List Property} {e : Entry} {s : String}
    (he : e ∈ placed size ps) (hs : e.property.value = .string s) :
    ∃ before after, stringArea ps = before ++ (Text.utf8 s ++ 0 :: after) ∧
      e.offset = size + before.length := by
  induction ps generalizing size with
  | nil => cases he
  | cons p ps ih =>
    rw [placed] at he
    rw [stringArea, List.flatMap_cons]
    rcases List.mem_cons.mp he with rfl | he
    · have hpart : areaPart p = Text.utf8 s ++ [0] := by
        have hv : p.value = .string s := hs
        simp only [areaPart, hv]
      refine ⟨[], stringArea ps, ?_, rfl⟩
      rw [hpart, List.append_assoc, List.singleton_append, List.nil_append]
      rfl
    · obtain ⟨before, after, harea, hoffset⟩ := ih he
      refine ⟨areaPart p ++ before, after, ?_, ?_⟩
      · rw [List.append_assoc, ← harea]
        rfl
      · rw [hoffset, List.length_append, Nat.add_assoc]

theorem textEnd_eq (area : Array UInt8) (i : Nat) :
    textEnd area i = i + ((area.toList.drop i).takeWhile (· ≠ 0)).length := by
  induction i using textEnd.induct area with
  | case1 i h hz =>
    rw [textEnd, dif_pos h, if_pos hz, List.drop_eq_getElem_cons (by simpa using h),
      List.takeWhile_cons_of_neg (by simpa using hz)]
    rfl
  | case2 i h hz ih =>
    rw [List.drop_eq_getElem_cons (by simpa using h),
      List.takeWhile_cons_of_pos (by simpa using hz), List.length_cons, textEnd, dif_pos h,
      if_neg hz, ih]
    omega
  | case3 i h =>
    rw [textEnd, dif_neg h, List.drop_of_length_le (by simpa using h)]
    rfl

theorem textAt_eq (area : Array UInt8) (i : Nat) :
    textAt area i = Text.ofBytes ((area.toList.drop i).takeWhile (· ≠ 0)) := by
  rw [textAt, textEnd_eq, Array.toList_extract, List.extract_eq_take_drop]
  rw [Nat.add_sub_cancel_left, ← List.prefix_iff_eq_take.mp ( List.takeWhile_prefix _)]

theorem textAt_of_append {before after : List UInt8} (s : String) {area : Array UInt8}
    (h : area.toList = before ++ (Text.utf8 s ++ 0 :: after)) :
    textAt area before.length = Text.beforeZero s := by
  rw [textAt_eq, h, List.drop_left, Text.utf8, Text.takeWhile_flatMap, Text.ofBytes_flatMap]
  rfl

theorem zero_notMem_textAt (area : Array UInt8) (i : Nat) :
    '\x00' ∉ (textAt area i).toList := by
  rw [textAt_eq]
  refine Text.zero_notMem_ofBytes fun h ↦ ?_
  simpa using List.mem_takeWhile_imp h

end PropertyFile.Inibin
