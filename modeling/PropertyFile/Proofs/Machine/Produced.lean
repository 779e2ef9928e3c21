import Mathlib.Data.List.Perm.Subperm
import PropertyFile.Proofs.Machine.Echo
import PropertyFile.Proofs.Number.Exact

namespace PropertyFile

open Number Machine

section InOrder

variable {κ α : Type} {cmp : κ → κ → Ordering} {l l' : List (κ × α)}

def InOrder (cmp : κ → κ → Ordering) (l : List (κ × α)) : Prop :=
  l.Pairwise fun a b ↦ cmp a.1 b.1 = .lt

theorem InOrder.filter (h : InOrder cmp l) (p : κ × α → Bool) : InOrder cmp (l.filter p) :=
  List.Pairwise.filter p h

variable [Std.TransCmp cmp]

theorem ne_of_cmp_lt {k k' : κ} (h : cmp k k' = .lt) : k ≠ k' := by
  rintro rfl
  have hself : cmp k k = .eq := Std.ReflCmp.compare_self
  exact Ordering.noConfusion (h.symm.trans hself)

theorem InOrder.distinct (h : InOrder cmp l) : l.Pairwise fun a b ↦ a.1 ≠ b.1 :=
  h.imp ne_of_cmp_lt

theorem InOrder.nodup (h : InOrder cmp l) : l.Nodup :=
  h.distinct.imp fun hne heq ↦ hne (congrArg Prod.fst heq)

theorem InOrder.perm_of_subset (h : InOrder cmp l) (hsub : ∀ e ∈ l, e ∈ l')
    (hlen : l'.length = l.length) : l.Perm l' :=
  (h.nodup.subperm hsub).perm_of_length_le (Nat.le_of_eq hlen)

theorem InOrder.eq_of_perm (h : InOrder cmp l) (h' : InOrder cmp l') (hperm : l.Perm l') :
    l = l' := by
  refine hperm.eq_of_pairwise (fun a b _ _ hab hba ↦ ?_) h h'
  have hself : cmp a.1 a.1 = .lt := Std.TransCmp.lt_trans hab hba
  exact (ne_of_cmp_lt hself rfl).elim

end InOrder

section Gather

variable {α : Type} {entries : List (CellKey × α)}

theorem mem_of_getElem?_gather {k : CellKey} {v : α} (h : (gather entries)[k]? = some v) :
    (k, v) ∈ entries := by
  induction entries using List.reverseRecOn with
  | nil =>
    rw [getElem?_gather_nil] at h
    cases h
  | append_singleton entries e ih =>
    rw [getElem?_gather_concat] at h
    split at h
    · next hk =>
      obtain rfl := Option.some.inj h
      subst hk
      exact List.mem_concat_self
    · exact List.mem_append_left _ (ih h)

theorem mem_of_mem_gather {e : CellKey × α} (h : e ∈ (gather entries).toList) : e ∈ entries :=
  mem_of_getElem?_gather (Std.ExtTreeMap.mem_toList_iff_getElem?_eq_some.mp h)

theorem inOrder_gather (entries : List (CellKey × α)) :
    InOrder CellKey.order (gather entries).toList :=
  Std.ExtTreeMap.ordered_keys_toList

theorem perm_gather (h : entries.Pairwise fun a b ↦ a.1 ≠ b.1) :
    (gather entries).toList.Perm entries := by
  have hdistinct : entries.Pairwise fun a b ↦ ¬CellKey.order a.1 b.1 = .eq :=
    h.imp fun hne heq ↦ hne (Std.LawfulEqCmp.eq_of_compare heq)
  refine (inOrder_gather entries).perm_of_subset (fun e he ↦ mem_of_mem_gather he) ?_
  rw [Std.ExtTreeMap.length_toList, Std.ExtTreeMap.size_ofList hdistinct]

theorem InOrder.gather_of_perm {l : List (CellKey × α)} (h : InOrder CellKey.order l)
    (hperm : l.Perm entries) : (gather entries).toList = l := by
  have hdistinct : entries.Pairwise fun a b ↦ a.1 ≠ b.1 :=
    (hperm.pairwise_iff fun hne heq ↦ hne heq.symm).mp h.distinct
  exact (inOrder_gather entries).eq_of_perm h ((perm_gather hdistinct).trans hperm.symm)

theorem InOrder.gather (h : InOrder CellKey.order entries) : (gather entries).toList = entries :=
  h.gather_of_perm (.refl entries)

end Gather

namespace Key

instance : Std.OrientedCmp order where
  eq_swap {a b} := by
    cases a <;> cases b <;> simp only [order, Ordering.swap] <;> exact Std.OrientedCmp.eq_swap

instance : Std.TransCmp order where
  isLE_trans {a b c} := by
    cases a <;> cases b <;> cases c <;> simp [order] <;> exact Std.TransOrd.isLE_trans

instance : Std.LawfulEqCmp order where
  eq_of_compare {a b} h := by
    cases a <;> cases b <;> simp only [order, reduceCtorEq] at h
    · rw [Std.LawfulEqCmp.eq_of_compare h]
    · rw [Std.LawfulEqCmp.eq_of_compare h]

end Key

namespace Value

variable {k : Key} {v : Value} {l l' : List (Key × Value)}

theorem mem_insertNew {e : Key × Value} (h : e ∈ insertNew k v l) : e = (k, v) ∨ e ∈ l := by
  induction l with
  | nil => exact .inl (List.mem_singleton.mp h)
  | cons e' l ih =>
    rw [insertNew] at h
    split at h
    · exact List.mem_cons.mp h
    · exact .inr h
    · rcases List.mem_cons.mp h with rfl | h
      · exact .inr (List.mem_cons_self)
      · exact (ih h).imp_right (List.mem_cons_of_mem _)

theorem inOrder_insertNew (h : InOrder Key.order l) : InOrder Key.order (insertNew k v l) := by
  induction l with
  | nil => exact List.pairwise_singleton _ _
  | cons e' l ih =>
    obtain ⟨hhead, htail⟩ := List.pairwise_cons.mp h
    rw [insertNew]
    split
    · next hlt =>
      refine List.pairwise_cons.mpr ⟨fun e he ↦ ?_, h⟩
      rcases List.mem_cons.mp he with rfl | he
      · exact hlt
      · exact Std.TransCmp.lt_trans hlt (hhead e he)
    · exact h
    · next hgt =>
      refine List.pairwise_cons.mpr ⟨fun e he ↦ ?_, ih htail⟩
      rcases mem_insertNew he with rfl | he
      · exact Std.OrientedCmp.lt_of_gt hgt
      · exact hhead e he

theorem perm_insertNew (h : ∀ e ∈ l, k ≠ e.1) : (insertNew k v l).Perm ((k, v) :: l) := by
  induction l with
  | nil => exact .refl _
  | cons e' l ih =>
    rw [insertNew]
    split
    · exact .refl _
    · next heq => exact (h e' List.mem_cons_self (Std.LawfulEqCmp.eq_of_compare heq)).elim
    · exact ((ih fun e he ↦ h e (List.mem_cons_of_mem _ he)).cons e').trans (.swap ..)

def tableEntries (l : List (Key × Value)) : List (Key × Value) :=
  l.foldr (fun e ↦ insertNew e.1 e.2) []

theorem tableOf_eq (l : List (Key × Value)) : tableOf l = table (tableEntries l) := rfl

theorem inOrder_tableEntries (l : List (Key × Value)) : InOrder Key.order (tableEntries l) := by
  induction l with
  | nil => exact List.Pairwise.nil
  | cons e l ih => exact inOrder_insertNew ih

theorem mem_of_mem_tableEntries {e : Key × Value} (h : e ∈ tableEntries l) : e ∈ l := by
  induction l with
  | nil => exact h
  | cons e' l ih =>
    rcases mem_insertNew h with rfl | h
    · exact List.mem_cons_self
    · exact List.mem_cons_of_mem _ (ih h)

theorem perm_tableEntries (h : l.Pairwise fun a b ↦ a.1 ≠ b.1) : (tableEntries l).Perm l := by
  induction l with
  | nil => exact .refl _
  | cons e l ih =>
    obtain ⟨hhead, htail⟩ := List.pairwise_cons.mp h
    exact (perm_insertNew fun e' he' ↦ hhead e' (mem_of_mem_tableEntries he')).trans
      ((ih htail).cons e)

/-- The entries of a table make that table, whatever order they are given in. -/
theorem tableOf_of_perm (hperm : l'.Perm l) (h : InOrder Key.order l) : tableOf l' = table l := by
  have hdistinct : l'.Pairwise fun a b ↦ a.1 ≠ b.1 :=
    (hperm.pairwise_iff fun hne heq ↦ hne heq.symm).mpr h.distinct
  have hentries :=
    (inOrder_tableEntries l').eq_of_perm h ((perm_tableEntries hdistinct).trans hperm)
  rw [tableOf_eq, hentries]

/-- A value as tables are read: its numbers were converted, and the keys of its tables are in order
and stand for themselves. -/
inductive Read : Value → Prop
  | number (x : Double) : Read (numberValue x)
  | bool (b : Bool) : Read (.bool b)
  | string (s : String) : Read (.string s)
  | table {entries : List (Key × Value)} (inOrder : InOrder Key.order entries)
    (exact : ∀ e ∈ entries, e.1.cell.toKey = e.1) (values : ∀ e ∈ entries, Read e.2) :
    Read (.table entries)

end Value

theorem toKey_cell_toKey (k : CellKey) : k.toKey.cell.toKey = k.toKey := by
  cases k with
  | number x =>
    rw [CellKey.toKey]
    split
    · next n hn =>
      split
      · next hle =>
        have hi : (Int64.ofInt n).toInt = n := by
          have hmax : Int64.maxValue.toInt = 9223372036854775807 := rfl
          exact Int64.toInt_ofInt_of_le (by omega) (by omega)
        rw [Key.cell, hi, CellKey.toKey, Double.toInt?_ofInt hn]
        exact if_pos hle
      · rfl
    · rfl
  | bool b => rfl
  | string s => rfl

theorem read_convert {heap : Array Table} {depth : Nat} {path : List Nat} {cell : Cell} {v : Value}
    (h : convert heap depth path cell = some v) : v.Read := by
  induction depth generalizing path cell v with
  | zero =>
    cases cell <;> simp only [convert, Option.some.injEq, reduceCtorEq] at h <;> subst h <;>
      constructor
  | succ depth ih =>
    cases cell with
    | table id =>
      rw [convert] at h
      split at h
      · cases h
      · obtain rfl := Option.some.inj h
        have hmem : ∀ e ∈ Value.tableEntries ((heap.getD id ∅).toList.filterMap fun e ↦
            (convert heap depth (id :: path) e.2).map fun v ↦ (e.1.toKey, v)),
            (∃ k : CellKey, e.1 = k.toKey) ∧ e.2.Read := by
          intro e he
          obtain ⟨entry, -, hentry⟩ := List.mem_filterMap.mp (Value.mem_of_mem_tableEntries he)
          obtain ⟨w, hw, rfl⟩ := Option.map_eq_some_iff.mp hentry
          exact ⟨⟨entry.1, rfl⟩, ih hw⟩
        rw [Value.tableOf_eq]
        refine .table (Value.inOrder_tableEntries _) (fun e he ↦ ?_) fun e he ↦ (hmem e he).2
        obtain ⟨⟨k, hk⟩, -⟩ := hmem e he
        rw [hk, toKey_cell_toKey]
    | _ => simp only [convert, Option.some.injEq, reduceCtorEq] at h <;> subst h <;> constructor

def Number.Double.IsInt32 (x : Double) : Prop :=
  ∃ n, x.toInt? = some n ∧ Int32.minValue.toInt ≤ n ∧ n ≤ Int32.maxValue.toInt

mutual

def Value.Plain : Value → Prop
  | .float x => ¬x.widen.IsInt32
  | .table entries => PlainEntries entries
  | _ => True

def PlainEntries : List (Key × Value) → Prop
  | [] => True
  | (_, v) :: rest => v.Plain ∧ PlainEntries rest

end

theorem plainEntries_iff {entries : List (Key × Value)} :
    PlainEntries entries ↔ ∀ e ∈ entries, e.2.Plain := by
  induction entries with
  | nil => simp only [PlainEntries, List.not_mem_nil, false_implies, implies_true]
  | cons e entries ih => rw [PlainEntries, ih, List.forall_mem_cons]

theorem numberValue_of_isInt32 {x : Double} {n : Int} (h : x.toInt? = some n)
    (hlow : Int32.minValue.toInt ≤ n) (hhigh : n ≤ Int32.maxValue.toInt) :
    numberValue x = .int32 (Int32.ofInt n) := by
  rw [numberValue, h]
  exact if_pos ⟨hlow, hhigh⟩

theorem numberValue_of_not_isInt32 {x : Double} (h : ¬x.IsInt32) :
    numberValue x = .float x.narrow := by
  rw [numberValue]
  split
  · next n hn => exact if_neg fun hrange ↦ h ⟨n, hn, hrange⟩
  · rfl

theorem numberValue_cases (x : Double) :
    (∃ n, numberValue x = .int32 n) ∨ ∃ y, numberValue x = .float y := by
  by_cases hx : x.IsInt32
  · obtain ⟨n, hn, hlow, hhigh⟩ := hx
    exact .inl ⟨_, numberValue_of_isInt32 hn hlow hhigh⟩
  · exact .inr ⟨_, numberValue_of_not_isInt32 hx⟩

theorem echo_int32 (n : Int32) : (Value.int32 n).echo = .int32 n := by
  have hmin : Int32.minValue.toInt = -2147483648 := rfl
  have hmax : Int32.maxValue.toInt = 2147483647 := rfl
  have hlow := n.minValue_le_toInt
  have hhigh := n.toInt_le
  rw [Value.echo, numberValue_of_isInt32 (Double.toInt?_ofInt_of_lt (by omega)) hlow hhigh,
    Int32.ofInt_toInt]

/-- What was narrowed once is not changed again, unless it has become an integer. -/
theorem echo_float_iff (x : Double) :
    (Value.float x.narrow).echo = .float x.narrow ↔ (Value.float x.narrow).Plain := by
  rw [Value.echo, Value.Plain]
  by_cases h : x.narrow.widen.IsInt32
  · obtain ⟨n, hn, hlow, hhigh⟩ := h
    rw [numberValue_of_isInt32 hn hlow hhigh]
    exact ⟨fun heq ↦ Value.noConfusion heq, fun hnot ↦ (hnot ⟨n, hn, hlow, hhigh⟩).elim⟩
  · rw [numberValue_of_not_isInt32 h, Double.narrow_widen_narrow]
    exact iff_of_true rfl h

/-- A table whose keys are in order and stand for themselves is echoed entry by entry. -/
theorem echo_table {entries : List (Key × Value)} (inOrder : InOrder Key.order entries)
    (exact : ∀ e ∈ entries, e.1.cell.toKey = e.1) :
    (Value.table entries).echo = .table (entries.map fun e ↦ (e.1, e.2.echo)) := by
  have hcells : (entries.map fun e ↦ (e.1.cell, e.2.echo)).Pairwise fun a b ↦ a.1 ≠ b.1 := by
    refine List.pairwise_map.mpr (inOrder.distinct.imp_of_mem fun ha hb hne heq ↦ hne ?_)
    rw [← exact _ ha, ← exact _ hb]
    exact congrArg CellKey.toKey heq
  have hperm := (perm_gather hcells).map fun e ↦ (e.1.toKey, e.2)
  have hkeys : (entries.map fun e ↦ (e.1.cell, e.2.echo)).map (fun e ↦ (e.1.toKey, e.2)) =
      entries.map fun e ↦ (e.1, e.2.echo) := by
    rw [List.map_map]
    exact List.map_congr_left fun e he ↦ congrArg (·, e.2.echo) (exact e he)
  rw [hkeys] at hperm
  rw [Value.echo, entryEchoes_eq_map, tableFrom]
  exact Value.tableOf_of_perm hperm (List.pairwise_map.mpr inOrder)

theorem Value.Read.echo_eq_iff {v : Value} (h : v.Read) : v.echo = v ↔ v.Plain := by
  induction h with
  | number x =>
    by_cases hx : x.IsInt32
    · obtain ⟨n, hn, hlow, hhigh⟩ := hx
      rw [numberValue_of_isInt32 hn hlow hhigh]
      exact iff_of_true (echo_int32 _) trivial
    · rw [numberValue_of_not_isInt32 hx]
      exact echo_float_iff x
  | bool b => exact iff_of_true rfl trivial
  | string s => exact iff_of_true rfl trivial
  | @table entries inOrder exact values ih =>
    have hmap : entries.map (fun e ↦ (e.1, e.2.echo)) = entries ↔
        ∀ e ∈ entries, (e.1, e.2.echo) = e := by
      have h := List.map_inj_left (l := entries) (f := fun e ↦ (e.1, e.2.echo)) (g := id)
      rwa [List.map_id] at h
    rw [echo_table inOrder exact, Value.table.injEq, hmap, Value.Plain, plainEntries_iff]
    refine forall₂_congr fun e he ↦ ?_
    rw [← ih e he, Prod.ext_iff]
    exact and_iff_right rfl

/-- A section as it is read: its hash is that of its name, and its properties have names, the hashes
of these, and the tags of their values. -/
structure Section.Read (s : Section) : Prop where
  hash_eq : s.hash = nameHash s.name
  values : ∀ p ∈ s.properties, p.value.Read
  properties : ∀ p ∈ s.properties, ∃ n, p = ⟨pairHash s.name n, some n, p.value, p.value.tag⟩

structure Tree.Read (t : Tree) : Prop where
  version_eq : t.version = formatVersion
  sections : ∀ s ∈ t.sections, s.Read

theorem read_sectionProperties (heap : Array Table) (name : String) (path : List Nat) (t : Table) :
    Section.Read { Section.named name with properties := sectionProperties heap name path t } where
  hash_eq := rfl
  values p hp := by
    obtain ⟨e, -, he⟩ := List.mem_filterMap.mp hp
    obtain ⟨v, hv, rfl⟩ := Option.map_eq_some_iff.mp he
    exact read_convert hv
  properties p hp := by
    obtain ⟨e, -, he⟩ := List.mem_filterMap.mp hp
    obtain ⟨v, -, rfl⟩ := Option.map_eq_some_iff.mp he
    exact ⟨e.1.name, rfl⟩

theorem read_treeOf (heap : Array Table) (root : Table) : (treeOf heap root).Read where
  version_eq := rfl
  sections s hs := by
    have hmem : s = { Section.named globalsSection with
          properties :=
            sectionProperties heap globalsSection [] (root.filter fun _ v ↦ !isTable v) } ∨
        s ∈ root.toList.filterMap (section? heap) := by
      simp only [treeOf] at hs
      split at hs
      · exact .inr hs
      · exact List.mem_cons.mp hs
    rcases hmem with rfl | hmem
    · exact read_sectionProperties heap globalsSection [] _
    · obtain ⟨⟨key, cell⟩, -, he⟩ := List.mem_filterMap.mp hmem
      cases cell with
      | table id =>
        obtain rfl := Option.some.inj he
        exact read_sectionProperties heap key.name [id] _
      | _ => cases he

theorem read_tree (m : Machine) : m.tree.Read := by
  rw [Machine.tree]
  split
  · split
    · exact read_treeOf _ _
    · exact ⟨rfl, fun s hs ↦ (List.not_mem_nil hs).elim⟩
  · exact read_treeOf _ _

end PropertyFile
