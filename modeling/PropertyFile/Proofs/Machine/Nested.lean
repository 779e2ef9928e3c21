import PropertyFile.Proofs.Machine.Produced
import PropertyFile.Proofs.Machine.Tables
import PropertyFile.Proofs.Number.Texts

namespace PropertyFile.Machine

open Number Bytecode

namespace CellKey

/-- The text under which a boolean stands, and a number that is no integer of 64 bits. -/
inductive SpelledBy : CellKey → String → Prop
  | bool (b : Bool) : SpelledBy (.bool b) (if b then "true" else "false")
  | number {x : Double} (h : ∀ n, x.toInt? = some n → Int64.maxValue.toInt < n.natAbs) :
    SpelledBy (.number x) ("[" ++ x.text ++ "]")

theorem toKey_of_index {x : Double} {n : Int} (h : x.toInt? = some n)
    (hn : n.natAbs ≤ Int64.maxValue.toInt) : (number x).toKey = .index (Int64.ofInt n) := by
  rw [toKey, h]
  exact if_pos hn

theorem SpelledBy.toKey_eq {k : CellKey} {s : String} (h : k.SpelledBy s) : k.toKey = .name s := by
  cases h with
  | bool b => rfl
  | number h =>
    rw [toKey]
    split
    · next n hn => exact if_neg (Int.not_le.mpr (h n hn))
    · rfl

theorem toKey_cases (k : CellKey) :
    (∃ x n, k = number x ∧ x.toInt? = some n ∧ n.natAbs ≤ Int64.maxValue.toInt) ∨
      (∃ s, k = string s) ∨ ∃ s, k.SpelledBy s := by
  cases k with
  | number x =>
    by_cases h : ∃ n, x.toInt? = some n ∧ n.natAbs ≤ Int64.maxValue.toInt
    · obtain ⟨n, hn, hle⟩ := h
      exact .inl ⟨x, n, rfl, hn, hle⟩
    · exact .inr (.inr ⟨_, .number fun n hn ↦ Int.not_le.mp fun hle ↦ h ⟨n, hn, hle⟩⟩)
  | bool b => exact .inr (.inr ⟨_, .bool b⟩)
  | string s => exact .inr (.inl ⟨s, rfl⟩)

theorem isZero_of_toInt? {x : Double} (h : x.toInt? = some 0) : x.isZero = true := by
  obtain ⟨negative, m, e, hdatum, heq, -⟩ := Double.toInt?_eq_some h
  obtain ⟨hcanonical, hpattern, -, -⟩ := Format.decode_finite Format.double hdatum
  have hm : m = 0 := by
    rw [Int.natAbs_zero, Nat.zero_mul] at heq
    exact (Nat.mul_eq_zero.mp heq.symm).resolve_right (Nat.ne_of_gt (Nat.two_pow_pos _))
  have he := hcanonical.normal.resolve_right (by rw [Double.fractions_eq]; omega)
  rw [hm, he, Format.pattern, Int.sub_self] at hpattern
  rw [Double.isZero, beq_iff_eq, ← hpattern]
  rfl

theorem eq_of_index {x y : Double} {n : Int} (hx : (number x).Proper) (hy : (number y).Proper)
    (hxn : x.toInt? = some n) (hyn : y.toInt? = some n) : x = y := by
  by_cases hn : n = 0
  · subst hn
    rw [hx.2 (isZero_of_toInt? hxn), hy.2 (isZero_of_toInt? hyn)]
  · rw [Double.eq_ofInt hxn hn, Double.eq_ofInt hyn hn]

theorem brackets_injective {s t : String} (h : "[" ++ s ++ "]" = "[" ++ t ++ "]") : s = t := by
  have hlist := congrArg String.toList h
  simp only [String.toList_append] at hlist
  exact String.toList_inj.mp (List.append_cancel_left (List.append_cancel_right hlist))

theorem brackets_ne_bool (s : String) (b : Bool) :
    "[" ++ s ++ "]" ≠ if b then "true" else "false" := by
  intro h
  have hhead := congrArg (fun t ↦ t.toList.head?) h
  simp only [String.toList_append] at hhead
  cases b <;> cases hhead

theorem SpelledBy.injective {k k' : CellKey} {s : String} (hk : k.Proper) (hk' : k'.Proper)
    (h : k.SpelledBy s) (h' : k'.SpelledBy s) : k = k' := by
  generalize hs : s = t at h'
  cases h with
  | bool b =>
    cases h' with
    | bool b' => cases b <;> cases b' <;> first | rfl | exact absurd hs (by decide)
    | number _ => exact (brackets_ne_bool _ _ hs.symm).elim
  | @number x _ =>
    cases h' with
    | bool b' => exact (brackets_ne_bool _ _ hs).elim
    | @number y _ => rw [Double.text_injective hk.1 hk'.1 (brackets_injective hs)]

/-- Two keys of a table become one exactly if one of them is a string that spells the other. -/
theorem toKey_eq_iff {k k' : CellKey} (hk : k.Proper) (hk' : k'.Proper) (hne : k ≠ k') :
    k.toKey = k'.toKey ↔
      (∃ s, k' = string s ∧ k.SpelledBy s) ∨ ∃ s, k = string s ∧ k'.SpelledBy s := by
  constructor
  · intro h
    rcases toKey_cases k with ⟨x, n, rfl, hn, hle⟩ | ⟨s, rfl⟩ | ⟨s, hs⟩
    · rw [toKey_of_index hn hle] at h
      rcases toKey_cases k' with ⟨y, n', rfl, hn', hle'⟩ | ⟨t, rfl⟩ | ⟨t, ht⟩
      · rw [toKey_of_index hn' hle'] at h
        have hmax : Int64.maxValue.toInt = 9223372036854775807 := rfl
        have hint := congrArg Int64.toInt (Key.index.inj h)
        rw [Int64.toInt_ofInt_of_le (by omega) (by omega),
          Int64.toInt_ofInt_of_le (by omega) (by omega)] at hint
        subst hint
        exact (hne (congrArg number (eq_of_index hk hk' hn hn'))).elim
      · cases h
      · rw [ht.toKey_eq] at h
        cases h
    · rcases toKey_cases k' with ⟨y, n', rfl, hn', hle'⟩ | ⟨t, rfl⟩ | ⟨t, ht⟩
      · rw [toKey_of_index hn' hle'] at h
        cases h
      · exact (hne (congrArg string (Key.name.inj h))).elim
      · rw [ht.toKey_eq] at h
        obtain rfl : s = t := Key.name.inj h
        exact .inr ⟨s, rfl, ht⟩
    · rw [hs.toKey_eq] at h
      rcases toKey_cases k' with ⟨y, n', rfl, hn', hle'⟩ | ⟨t, rfl⟩ | ⟨t, ht⟩
      · rw [toKey_of_index hn' hle'] at h
        cases h
      · obtain rfl : s = t := Key.name.inj h
        exact .inl ⟨s, rfl, hs⟩
      · rw [ht.toKey_eq] at h
        obtain rfl : s = t := Key.name.inj h
        exact (hne (hs.injective hk hk' ht)).elim
  · rintro (⟨s, rfl, hs⟩ | ⟨s, rfl, hs⟩)
    · exact hs.toKey_eq
    · exact hs.toKey_eq.symm

end CellKey

def Cell.converts (path : List Nat) : Cell → Bool
  | nil | function _ => false
  | table id => id ∉ path
  | _ => true

/-- The depth is more than the number of tables that are not on the path. -/
def Room (heap : Array Table) (depth : Nat) (path : List Nat) : Prop :=
  ((List.range heap.size).filter (· ∉ path)).length < depth

variable {heap : Array Table} {depth id : Nat} {path : List Nat}

theorem room_section (h : id < heap.size) : Room heap heap.size [id] := by
  have hlt : ((List.range heap.size).filter (· ∉ [id])).length < (List.range heap.size).length :=
    List.length_filter_lt_length_iff_exists.mpr
      ⟨id, List.mem_range.mpr h, by simp only [List.mem_singleton, not_true, decide_false]; decide⟩
  rwa [List.length_range] at hlt

theorem Room.enter (h : Room heap (depth + 1) path) (hlt : id < heap.size) (hid : id ∉ path) :
    Room heap depth (id :: path) := by
  have hfilter : (List.range heap.size).filter (· ∉ id :: path) =
      ((List.range heap.size).filter (· ∉ path)).filter (· ≠ id) := by
    rw [List.filter_filter]
    refine List.filter_congr fun i _ ↦ ?_
    simp only [List.mem_cons, not_or, ne_eq, Bool.decide_and]
  have hless : ((List.range heap.size).filter (· ∉ id :: path)).length <
      ((List.range heap.size).filter (· ∉ path)).length := by
    rw [hfilter, List.length_filter_lt_length_iff_exists]
    refine ⟨id, List.mem_filter.mpr ⟨List.mem_range.mpr hlt, decide_eq_true hid⟩, ?_⟩
    simp only [ne_eq, not_true, decide_false]
    decide
  rw [Room] at h ⊢
  omega

theorem isSome_convert (h : Room heap depth path) (v : Cell) :
    (convert heap depth path v).isSome = v.converts path := by
  cases depth with
  | zero => exact (Nat.not_lt_zero _ h).elim
  | succ depth =>
    cases v with
    | table id =>
      rw [convert, Cell.converts]
      by_cases hid : id ∈ path
      · rw [if_pos hid, decide_eq_false (not_not.mpr hid)]
        rfl
      · rw [if_neg hid, decide_eq_true hid]
        rfl
    | _ => rfl

def converted (heap : Array Table) (depth : Nat) (path : List Nat) (t : Table) :
    List (Key × Value) :=
  t.toList.filterMap fun e ↦ (convert heap depth path e.2).map fun v ↦ (e.1.toKey, v)

theorem map_fst_converted (t : Table)
    (h : ∀ e ∈ t.toList, (convert heap depth path e.2).isSome = e.2.converts path) :
    (converted heap depth path t).map Prod.fst =
      (t.toList.filter (·.2.converts path)).map (·.1.toKey) := by
  rw [converted, List.map_filterMap, ← List.filterMap_eq_map, List.filterMap_filter]
  refine List.filterMap_congr fun e he ↦ ?_
  rw [← h e he]
  cases convert heap depth path e.2 <;> rfl

/-- Entries of which no two have one key are all in the table that is made of them, and only such
entries are. -/
theorem perm_tableEntries_iff (l : List (Key × Value)) :
    (Value.tableEntries l).Perm l ↔ (l.map Prod.fst).Nodup := by
  constructor
  · intro h
    have hkeys := (Value.inOrder_tableEntries l).distinct
    exact (h.map Prod.fst).nodup_iff.mp (List.pairwise_map.mpr hkeys)
  · intro h
    exact Value.perm_tableEntries (List.pairwise_map.mp h)

theorem nodup_map_toKey_iff {l : List (CellKey × Cell)} (hnodup : (l.map Prod.fst).Nodup)
    (hproper : ∀ e ∈ l, e.1.Proper) : (l.map (·.1.toKey)).Nodup ↔
      ∀ e ∈ l, ∀ e' ∈ l, ∀ s, e'.1 = .string s → ¬e.1.SpelledBy s := by
  constructor
  · intro h e he e' he' s hs hspelled
    have hkeys : e.1.toKey = e'.1.toKey := by
      rw [hspelled.toKey_eq, hs]
      rfl
    have hsame := List.inj_on_of_nodup_map h he he' hkeys
    rw [hsame, hs] at hspelled
    cases hspelled
  · intro h
    refine List.pairwise_map.mpr ((List.pairwise_map.mp hnodup).imp_of_mem ?_)
    intro e e' he he' hne heq
    rcases (CellKey.toKey_eq_iff (hproper e he) (hproper e' he') hne).mp heq with
      ⟨s, hs, hspelled⟩ | ⟨s, hs, hspelled⟩
    · exact h e he e' he' s hs hspelled
    · exact h e' he' e he s hs hspelled

theorem convert_table (hid : id ∉ path) : convert heap (depth + 1) path (.table id) =
    some (.table (Value.tableEntries
      (converted heap depth (id :: path) (heap.getD id ∅)))) := by
  rw [convert, if_neg hid]
  rfl

theorem lt_size_of_mem {e : CellKey × Cell} (he : e ∈ (heap.getD id ∅).toList) :
    id < heap.size := by
  by_contra hlt
  rw [Array.getD_eq_getD_getElem?, Array.getElem?_eq_none (Nat.not_lt.mp hlt),
    Option.getD_none] at he
  exact List.not_mem_nil he

theorem room_entries (h : Room heap (depth + 1) path) (hid : id ∉ path) :
    ∀ e ∈ (heap.getD id ∅).toList,
      (convert heap depth (id :: path) e.2).isSome = e.2.converts (id :: path) :=
  fun e he ↦ isSome_convert (h.enter (lt_size_of_mem he) hid) e.2

theorem Filled.getD {m : Machine} (h : m.Filled) (id : Nat) :
    (m.heap.getD id ∅).Filled m.heap.size := by
  rw [Array.getD_eq_getD_getElem?]
  cases ht : m.heap[id]? with
  | none => exact Table.filled_empty _
  | some t => exact h.heap id t ht

/-- A table that is not on the path has one entry for each of its entries that have a value, exactly
if no string among their keys spells another of them. -/
theorem nested_keeps_iff (cs : List Chunk) (depth : Nat) (path : List Nat) (id : Nat)
    (hroom : Room (cs.foldl run fresh).heap (depth + 1) path) (hid : id ∉ path) :
    let heap := (cs.foldl run fresh).heap
    let t := heap.getD id ∅
    (∀ e ∈ t.toList,
        (convert heap depth (id :: path) e.2).isSome = e.2.converts (id :: path)) ∧
      ∃ entries, convert heap (depth + 1) path (.table id) = some (.table entries) ∧
        (entries.Perm (converted heap depth (id :: path) t) ↔
          ∀ e ∈ t.toList, ∀ e' ∈ t.toList, e.2.converts (id :: path) = true →
            e'.2.converts (id :: path) = true → ∀ s, e'.1 = .string s → ¬e.1.SpelledBy s) := by
  intro heap t
  have hvalues := room_entries hroom hid
  refine ⟨hvalues, _, convert_table hid, ?_⟩
  have hsound : t.Sound := ((filled_fresh.runs cs).getD id).sound
  have hkept : ((t.toList.filter (·.2.converts (id :: path))).map Prod.fst).Nodup :=
    hsound.distinct.sublist (List.filter_sublist.map _)
  rw [perm_tableEntries_iff, map_fst_converted t hvalues, nodup_map_toKey_iff hkept
    fun e he ↦ (hsound.entries e (List.mem_of_mem_filter he)).1]
  simp only [List.mem_filter, and_imp]
  constructor
  · exact fun h e he e' he' hv hv' ↦ h e he hv e' he' hv'
  · exact fun h e he hv e' he' hv' ↦ h e he e' he' hv hv'

def twoKeys (key key' : Constant) : Chunk where
  code := [.abc .newTable 0 0 0, .abc .newTable 1 0 0, .abc .newTable 2 0 0,
    .abc .setTable 2 258 260, .abc .setTable 2 259 261, .abc .setTable 1 257 2,
    .abc .setTable 0 256 1]
  constants := #[.string "s", .string "n", key, key', .string "a", .string "b"]

def twoKeysHeap (key key' : Constant) : Array Table := ([twoKeys key key'].foldl run fresh).heap

set_option maxRecDepth 4000 in
theorem toList_twoKeys : ((twoKeysHeap (.bool true) (.string "false")).getD 2 ∅).toList =
    [(.bool true, .string "a"), (.string "false", .string "b")] := rfl

set_option maxRecDepth 4000 in
theorem size_twoKeys : (twoKeysHeap (.bool true) (.string "false")).size = 3 := rfl

theorem room_twoKeys : Room (twoKeysHeap (.bool true) (.string "false")) 3 [1] := by
  have hlt : 1 < (twoKeysHeap (.bool true) (.string "false")).size := by
    rw [size_twoKeys]
    decide
  have hroom := room_section hlt
  rwa [size_twoKeys] at hroom

theorem twoKeys_kept : Room (twoKeysHeap (.bool true) (.string "false")) 3 [1] ∧ 2 ∉ [1] ∧
    ∃ entries, convert (twoKeysHeap (.bool true) (.string "false")) 3 [1] (.table 2) =
        some (.table entries) ∧
      entries.Perm (converted (twoKeysHeap (.bool true) (.string "false")) 2 [2, 1]
        ((twoKeysHeap (.bool true) (.string "false")).getD 2 ∅)) := by
  have hid : 2 ∉ [1] := by decide
  obtain ⟨-, entries, hconvert, hkept⟩ :=
    nested_keeps_iff [twoKeys (.bool true) (.string "false")] 2 [1] 2 room_twoKeys hid
  refine ⟨room_twoKeys, hid, entries, hconvert, hkept.mpr ?_⟩
  intro e he e' he' _ _ s hs hspelled
  have hmem := toList_twoKeys ▸ he
  have hmem' := toList_twoKeys ▸ he'
  simp only [List.mem_cons, List.not_mem_nil, or_false] at hmem hmem'
  rcases hmem with rfl | rfl
  · cases hspelled
    rcases hmem' with rfl | rfl
    · cases hs
    · exact absurd hs (by decide)
  · cases hspelled

set_option maxRecDepth 4000 in
/-- The boolean `true` and the string `true` have each a value, and only that of the string is
kept. -/
theorem trueTwice_lost :
    ((twoKeysHeap (.bool true) (.string "true")).getD 2 ∅).toList =
        [(.bool true, .string "a"), (.string "true", .string "b")] ∧
      convert (twoKeysHeap (.bool true) (.string "true")) 3 [1] (.table 2) =
        some (.table [(.name "true", .string "b")]) :=
  ⟨rfl, rfl⟩

end PropertyFile.Machine
