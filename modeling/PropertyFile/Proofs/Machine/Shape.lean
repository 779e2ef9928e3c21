import Mathlib.Data.List.Forall2
import PropertyFile.Proofs.Machine.Nested

namespace PropertyFile.Machine

open Number Bytecode

variable {heap : Array Table} {path : List Nat} {root : Table}

def rootTable (m : Machine) : Table :=
  if m.globals.isEmpty then
    match m.tableAt? 0 with
    | some id => m.heap.getD id ∅
    | none => ∅
  else m.globals

def Cell.scalar? : Cell → Option Value
  | bool b => some (.bool b)
  | number x => some (numberValue x)
  | string s => some (.string s)
  | _ => none

def Cell.isScalar (v : Cell) : Bool := v.scalar?.isSome

def scalars (t : Table) : List (CellKey × Value) :=
  t.toList.filterMap fun e ↦ e.2.scalar?.map fun v ↦ (e.1, v)

def tableId? : Cell → Option Nat
  | .table id => some id
  | _ => none

def tables (t : Table) : List (CellKey × Nat) :=
  t.toList.filterMap fun e ↦ (tableId? e.2).map fun id ↦ (e.1, id)

/-- The entries that have a value, if a path leads to them. -/
def valued (heap : Array Table) (path : List Nat) (entries : List (CellKey × Cell)) :
    List (CellKey × Value) :=
  entries.filterMap fun e ↦ (convert heap heap.size path e.2).map fun v ↦ (e.1, v)

def keyedSection (key : CellKey) (found : List (CellKey × Value)) : Section :=
  { Section.named key.name with properties := found.map (keyedProperty key.name) }

theorem convert_of_scalar {v : Cell} (h : isTable v = false) (depth : Nat) :
    convert heap depth path v = v.scalar? := by
  cases v with
  | table id => cases h
  | _ => rw [convert]; rfl

theorem sectionProperties_eq (heap : Array Table) (name : String) (path : List Nat) (t : Table) :
    sectionProperties heap name path t =
      (valued heap path t.toList).map (keyedProperty name) := by
  rw [sectionProperties, valued, List.map_filterMap]
  simp only [Option.map_map]
  rfl

theorem scalarProperties_eq (heap : Array Table) (name : String) (root : Table) :
    sectionProperties heap name [] (root.filter fun _ v ↦ !isTable v) =
      (scalars root).map (keyedProperty name) := by
  rw [sectionProperties, scalars, Std.ExtTreeMap.toList_filter, List.filterMap_filter,
    List.map_filterMap]
  refine List.filterMap_congr fun e _ ↦ ?_
  rw [Option.map_map]
  cases htable : isTable e.2 with
  | true => cases hcell : e.2 <;> rw [hcell] at htable <;> first | rfl | cases htable
  | false =>
    rw [convert_of_scalar htable]
    rfl

def rootTree (root : Table) (sections : List Section) : Tree :=
  { Tree.empty with
    sections := globalSections ((scalars root).map (keyedProperty globalsSection)) ++ sections }

theorem treeOf_eq (heap : Array Table) (root : Table) : treeOf heap root =
    rootTree root ((tables root).map fun e ↦
      keyedSection e.1 (valued heap [e.2] (heap.getD e.2 ∅).toList)) := by
  have hsections : root.toList.filterMap (section? heap) = (tables root).map fun e ↦
      keyedSection e.1 (valued heap [e.2] (heap.getD e.2 ∅).toList) := by
    rw [tables, List.map_filterMap]
    refine List.filterMap_congr fun e _ ↦ ?_
    obtain ⟨key, cell⟩ := e
    cases cell with
    | table id =>
      rw [section?]
      simp only [sectionProperties_eq]
      rfl
    | _ => rfl
  rw [treeOf, rootTree, globalSections]
  simp only [scalarProperties_eq, hsections]
  split <;> rfl

theorem tree_eq (m : Machine) : m.tree = treeOf m.heap m.rootTable := by
  rw [tree, rootTable]
  split
  · cases m.tableAt? 0 with
    | some id => rfl
    | none =>
      rw [treeOf_eq]
      rfl
  · rfl

/-- A property stands for an entry: it is named by the key, and has the value of the cell. -/
structure StandsFor (heap : Array Table) (path : List Nat) (inSection : String) (p : Property)
    (e : CellKey × Cell) : Prop where
  name : p.name = some e.1.name
  hash : p.hash = pairHash inSection e.1.name
  value : convert heap heap.size path e.2 = some p.value
  tag : p.tag = p.value.tag
  accepts : p.tag.accepts p.value = true

/-- A section has one property for each of the entries, in their order. -/
structure ReadFrom (heap : Array Table) (path : List Nat) (name : String)
    (entries : List (CellKey × Cell)) (s : Section) : Prop where
  name_eq : s.name = name
  hash_eq : s.hash = nameHash name
  properties : List.Forall₂ (StandsFor heap path name) s.properties entries

theorem forall₂_filterMap {α β : Type} (f : α → Option β) (l : List α) :
    List.Forall₂ (fun b a ↦ f a = some b) (l.filterMap f) (l.filter fun a ↦ (f a).isSome) := by
  induction l with
  | nil => exact .nil
  | cons a l ih =>
    cases ha : f a with
    | none =>
      rwa [List.filterMap_cons_none ha,
        List.filter_cons_of_neg (by rw [ha]; exact Bool.false_ne_true)]
    | some b =>
      rw [List.filterMap_cons_some ha, List.filter_cons_of_pos (by rw [ha]; rfl)]
      exact .cons ha ih

theorem readFrom_valued (heap : Array Table) (path : List Nat) (name : String)
    (entries : List (CellKey × Cell)) : ReadFrom heap path name
      (entries.filter fun e ↦ (convert heap heap.size path e.2).isSome)
      { Section.named name with
        properties := (valued heap path entries).map (keyedProperty name) } where
  name_eq := rfl
  hash_eq := rfl
  properties := by
    have hvalued := forall₂_filterMap (fun e : CellKey × Cell ↦
      (convert heap heap.size path e.2).map fun v ↦ (e.1, v)) entries
    simp only [Option.isSome_map] at hvalued
    refine List.forall₂_map_left_iff.mpr (hvalued.imp fun found e he ↦ ?_)
    obtain ⟨v, hv, rfl⟩ := Option.map_eq_some_iff.mp he
    exact ⟨rfl, rfl, hv, rfl, Tag.accepts_tag v⟩

theorem readFrom_table (heap : Array Table) (key : CellKey) (id : Nat) :
    ReadFrom heap [id] key.name ((heap.getD id ∅).toList.filter (·.2.converts [id]))
      (keyedSection key (valued heap [id] (heap.getD id ∅).toList)) := by
  have hvalues : (heap.getD id ∅).toList.filter (·.2.converts [id]) =
      (heap.getD id ∅).toList.filter fun e ↦ (convert heap heap.size [id] e.2).isSome :=
    List.filter_congr fun e he ↦ (isSome_convert (room_section (lt_size_of_mem he)) e.2).symm
  rw [hvalues]
  exact readFrom_valued heap [id] key.name _

theorem scalar_cases (v : Cell) :
    (v.isScalar = true ∧ isTable v = false) ∨ (v.isScalar = false ∧ v.scalar? = none) := by
  cases v <;> simp [Cell.isScalar, Cell.scalar?, isTable]

theorem valued_scalars (heap : Array Table) (root : Table) :
    valued heap [] (root.toList.filter (·.2.isScalar)) = scalars root := by
  rw [valued, scalars, List.filterMap_filter]
  refine List.filterMap_congr fun e _ ↦ ?_
  rcases scalar_cases e.2 with ⟨hscalar, htable⟩ | ⟨hscalar, hnone⟩
  · rw [if_pos hscalar, convert_of_scalar htable]
  · rw [if_neg (Bool.eq_false_iff.mp hscalar), hnone]
    rfl

def scalarSection (root : Table) : Section :=
  { Section.named globalsSection with
    properties := (scalars root).map (keyedProperty globalsSection) }

theorem readFrom_scalarSection (heap : Array Table) (root : Table) :
    ReadFrom heap [] globalsSection (root.toList.filter (·.2.isScalar)) (scalarSection root) := by
  have hread := readFrom_valued heap [] globalsSection (root.toList.filter (·.2.isScalar))
  rw [valued_scalars, List.filter_filter] at hread
  have hall : root.toList.filter (fun e ↦ (convert heap heap.size [] e.2).isSome && e.2.isScalar) =
      root.toList.filter (·.2.isScalar) := by
    refine List.filter_congr fun e _ ↦ ?_
    rcases scalar_cases e.2 with ⟨hscalar, htable⟩ | ⟨hscalar, -⟩
    · rw [convert_of_scalar htable, hscalar, Bool.and_true]
      exact hscalar
    · rw [hscalar, Bool.and_false]
  rwa [hall] at hread

theorem scalars_eq_nil_iff : scalars root = [] ↔ root.toList.filter (·.2.isScalar) = [] := by
  rw [scalars, List.filterMap_eq_nil_iff, List.filter_eq_nil_iff]
  refine forall₂_congr fun e _ ↦ ?_
  rw [Option.map_eq_none_iff, Cell.isScalar, Option.not_isSome_iff_eq_none]

theorem globalSections_of_nil (h : root.toList.filter (·.2.isScalar) = []) :
    globalSections ((scalars root).map (keyedProperty globalsSection)) = [] := by
  rw [scalars_eq_nil_iff.mpr h]
  rfl

theorem globalSections_of_ne_nil (h : root.toList.filter (·.2.isScalar) ≠ []) :
    globalSections ((scalars root).map (keyedProperty globalsSection)) = [scalarSection root] := by
  rw [globalSections, List.isEmpty_map, if_neg]
  · rfl
  · rwa [List.isEmpty_iff, scalars_eq_nil_iff]

theorem name_eq_globalsSection_iff {k : CellKey} :
    k.name = globalsSection ↔ k = .string globalsSection := by
  constructor
  · intro h
    cases k with
    | number x =>
      have hhead := congrArg (fun s ↦ s.toList.head?) h
      simp only [CellKey.name, String.toList_append] at hhead
      cases hhead
    | bool b => cases b <;> exact absurd h (by decide)
    | string s => exact congrArg CellKey.string h
  · rintro rfl
    rfl

/-- The tree that is read from a machine. The root's scalars come first, in a section that is there
only if there are any; then comes a section for each of the root's tables, with a property for each
entry that has a value. Without scalars, the tree starts with a section of that name only if the
first of the tables has it for its key. -/
theorem tree_shape (m : Machine) :
    let scalars := m.rootTable.toList.filter (·.2.isScalar)
    let tables := tables m.rootTable
    (∀ t : Table, (t.toList.map Prod.fst).Pairwise CellKey.Before) ∧
    m.tree.version = formatVersion ∧
    (∃ first own, m.tree.sections = first ++ own ∧
      (scalars = [] ∧ first = [] ∨
        scalars ≠ [] ∧ ∃ s, first = [s] ∧ ReadFrom m.heap [] globalsSection scalars s) ∧
      List.Forall₂ (fun s e ↦ ReadFrom m.heap [e.2] e.1.name
        ((m.heap.getD e.2 ∅).toList.filter (·.2.converts [e.2])) s) own tables) ∧
    (m.tree.sections.head?.map Section.name = some globalsSection ↔
      scalars ≠ [] ∨ tables.head?.map Prod.fst = some (.string globalsSection)) := by
  intro scalars tables
  rw [tree_eq, treeOf_eq, rootTree]
  refine ⟨Table.pairwise_before, rfl, ⟨_, _, rfl, ?_, ?_⟩, ?_⟩
  · by_cases hnone : scalars = []
    · exact .inl ⟨hnone, globalSections_of_nil hnone⟩
    · exact .inr ⟨hnone, _, globalSections_of_ne_nil hnone, readFrom_scalarSection _ _⟩
  · exact List.forall₂_map_left_iff.mpr
      (List.forall₂_same.mpr fun e _ ↦ readFrom_table m.heap e.1 e.2)
  · by_cases hnone : scalars = []
    · rw [globalSections_of_nil hnone, List.nil_append, List.head?_map, Option.map_map]
      simp only [hnone, ne_eq, not_true, false_or, Option.map_eq_some_iff]
      exact exists_congr fun e ↦ and_congr_right fun _ ↦ name_eq_globalsSection_iff
    · rw [globalSections_of_ne_nil hnone]
      exact iff_of_true rfl (.inl hnone)

def globalsKey : Chunk where
  code := [.abc .newTable 0 0 0, .abc .newTable 1 0 0, .abc .setTable 0 256 1]
  constants := #[.string globalsSection]

set_option maxRecDepth 4000 in
/-- There is no scalar, and still the tree starts with a section of the scalars' name. -/
theorem globalsKey_starts :
    ¬((fresh.run globalsKey).tree.sections.head?.map Section.name = some globalsSection ↔
      ∃ e ∈ (fresh.run globalsKey).rootTable.toList, e.2.isScalar = true) := by
  have hroot : (fresh.run globalsKey).rootTable.toList = [(.string globalsSection, .table 1)] := rfl
  have hfirst : (fresh.run globalsKey).tree.sections.head?.map Section.name =
      some globalsSection := by
    rw [tree_eq, treeOf_eq]
    rfl
  intro h
  obtain ⟨e, he, hscalar⟩ := h.mp hfirst
  rw [hroot, List.mem_singleton] at he
  rw [he] at hscalar
  cases hscalar

end PropertyFile.Machine
