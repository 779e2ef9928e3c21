import Mathlib.Data.Finset.Insert
import PropertyFile.Proofs.Machine.Echo
import PropertyFile.Proofs.Machine.Shape

namespace PropertyFile.Machine

open Number Bytecode

variable {heap : Array Table} {root : Table} {path : List Nat} {id : Nat}
  {before after : Finset Nat} {entries : List (CellKey × Cell)} {found : List (CellKey × Value)}

/-- A table that a walk comes to. The path leads to it from the table of the section, the last table
first; it is empty for that table itself. Without a value the table is left out there. -/
structure Meeting where
  path : List Nat
  id : Nat
  value : Option Value

def nested (found : List (CellKey × Value)) : Value :=
  .tableOf (found.map fun e ↦ (e.1.toKey, e.2))

/-- A walk through entries at the end of a path: the tables that it is in before, what it finds,
what tables it meets, and the tables that it is in after. -/
inductive Walk (heap : Array Table) : List Nat → Finset Nat → List (CellKey × Cell) →
    List (CellKey × Value) → List Meeting → Finset Nat → Prop
  | done (path : List Nat) (before : Finset Nat) : Walk heap path before [] [] [] before
  | scalar {path before after key cell v entries found met} (hv : cell.scalar? = some v)
    (rest : Walk heap path before entries found met after) :
    Walk heap path before ((key, cell) :: entries) ((key, v) :: found) met after
  | nothing {path before after key cell entries found met} (htable : isTable cell = false)
    (hv : cell.scalar? = none) (rest : Walk heap path before entries found met after) :
    Walk heap path before ((key, cell) :: entries) found met after
  | leftOut {path before after key id entries found met} (hid : id ∈ before)
    (rest : Walk heap path before entries found met after) :
    Walk heap path before ((key, .table id) :: entries) found (⟨path, id, none⟩ :: met) after
  | table {path before between after key id entries found met inside metInside} (hid : id ∉ before)
    (inner : Walk heap (id :: path) (insert id before) (heap.getD id ∅).toList inside metInside
      between)
    (rest : Walk heap path (between.erase id) entries found met after) :
    Walk heap path before ((key, .table id) :: entries) ((key, nested inside) :: found)
      (⟨path, id, some (nested inside)⟩ :: (metInside ++ met)) after

/-- A walk through the tables of a root, each of which starts a path and makes a section. -/
inductive SectionWalk (heap : Array Table) : Finset Nat → List (CellKey × Nat) → List Section →
    List Meeting → Finset Nat → Prop
  | done (before : Finset Nat) : SectionWalk heap before [] [] [] before
  | leftOut {before after key id tables sections met} (hid : id ∈ before)
    (rest : SectionWalk heap before tables sections met after) :
    SectionWalk heap before ((key, id) :: tables) (keyedSection key [] :: sections)
      (⟨[], id, none⟩ :: met) after
  | table {before between after key id tables sections met inside metInside} (hid : id ∉ before)
    (inner : Walk heap [id] (insert id before) (heap.getD id ∅).toList inside metInside between)
    (rest : SectionWalk heap (between.erase id) tables sections met after) :
    SectionWalk heap before ((key, id) :: tables) (keyedSection key inside :: sections)
      (⟨[], id, some (nested inside)⟩ :: (metInside ++ met)) after

def RootWalk (heap : Array Table) (root : Table) (t : Tree) (met : List Meeting)
    (after : Finset Nat) : Prop :=
  ∃ sections, SectionWalk heap ∅ (tables root) sections met after ∧ t = rootTree root sections

/-- What entries unfold to when no table is ever left out. -/
inductive Expands (heap : Array Table) : List (CellKey × Cell) → List (CellKey × Value) → Prop
  | done : Expands heap [] []
  | scalar {key cell v entries found} (hv : cell.scalar? = some v)
    (rest : Expands heap entries found) :
    Expands heap ((key, cell) :: entries) ((key, v) :: found)
  | nothing {key cell entries found} (htable : isTable cell = false) (hv : cell.scalar? = none)
    (rest : Expands heap entries found) : Expands heap ((key, cell) :: entries) found
  | table {key id entries found inside} (inner : Expands heap (heap.getD id ∅).toList inside)
    (rest : Expands heap entries found) :
    Expands heap ((key, .table id) :: entries) ((key, nested inside) :: found)

def Unfolds (heap : Array Table) (root : Table) (t : Tree) : Prop :=
  ∃ sections, List.Forall₂ (fun e s ↦
      ∃ found, Expands heap (heap.getD e.2 ∅).toList found ∧ s = keyedSection e.1 found)
    (tables root) sections ∧ t = rootTree root sections

def LeadsTo (heap : Array Table) (root : Table) (id : Nat) : Prop :=
  ∃ e ∈ tables root, Relation.ReflTransGen (Under heap) id e.2

theorem Room.mono {depth : Nat} {path' : List Nat} (h : Room heap depth path)
    (hsub : path ⊆ path') : Room heap depth path' := by
  refine Nat.lt_of_le_of_lt (List.Sublist.length_le ?_) h
  refine List.monotone_filter_right _ fun i hi ↦ ?_
  exact decide_eq_true fun hmem ↦ of_decide_eq_true hi (hsub hmem)

theorem convert_depth {depth depth' : Nat} (h : Room heap depth path) (h' : Room heap depth' path)
    (v : Cell) : convert heap depth path v = convert heap depth' path v := by
  induction depth generalizing depth' path v with
  | zero => exact (Nat.not_lt_zero _ h).elim
  | succ depth ih =>
    cases depth' with
    | zero => exact (Nat.not_lt_zero _ h').elim
    | succ depth' =>
      cases v with
      | table id =>
        by_cases hid : id ∈ path
        · rw [convert, convert, if_pos hid, if_pos hid]
        · have hentries : converted heap depth (id :: path) (heap.getD id ∅) =
              converted heap depth' (id :: path) (heap.getD id ∅) := by
            refine List.filterMap_congr fun e he ↦ ?_
            have hlt := lt_size_of_mem he
            rw [ih (h.enter hlt hid) (h'.enter hlt hid)]
          rw [convert_table hid, convert_table hid, hentries]
      | _ => rw [convert_of_scalar rfl, convert_of_scalar rfl]

theorem convert_eq_nested (h : Room heap heap.size path) (id : Nat) :
    convert heap heap.size path (.table id) = if id ∈ path then none
      else some (nested (valued heap (id :: path) (heap.getD id ∅).toList)) := by
  obtain ⟨depth, hdepth⟩ : ∃ depth, heap.size = depth + 1 :=
    Nat.exists_eq_succ_of_ne_zero (Nat.ne_zero_of_lt h)
  have htight : Room heap (depth + 1) path := hdepth ▸ h
  rw [convert_depth h htight]
  by_cases hid : id ∈ path
  · rw [convert, if_pos hid, if_pos hid]
  · have hentries : converted heap depth (id :: path) (heap.getD id ∅) =
        (valued heap (id :: path) (heap.getD id ∅).toList).map fun e ↦ (e.1.toKey, e.2) := by
      rw [converted, valued, List.map_filterMap]
      refine List.filterMap_congr fun e he ↦ ?_
      rw [convert_depth (htight.enter (lt_size_of_mem he) hid)
        (h.mono (List.subset_cons_self id path)), Option.map_map]
      rfl
    rw [if_neg hid, convert_table hid, hentries]
    rfl

section Valued

variable {key : CellKey} {cell : Cell} {v : Value}

theorem valued_scalar (hv : cell.scalar? = some v) (entries : List (CellKey × Cell)) :
    valued heap path ((key, cell) :: entries) = (key, v) :: valued heap path entries := by
  have htable : isTable cell = false := by
    cases cell with
    | table id => cases hv
    | _ => rfl
  refine List.filterMap_cons_some ?_
  rw [convert_of_scalar htable, hv]
  rfl

theorem valued_nothing (htable : isTable cell = false) (hv : cell.scalar? = none)
    (entries : List (CellKey × Cell)) :
    valued heap path ((key, cell) :: entries) = valued heap path entries := by
  refine List.filterMap_cons_none ?_
  rw [convert_of_scalar htable, hv]
  rfl

theorem valued_leftOut (hroom : Room heap heap.size path) (hid : id ∈ path)
    (entries : List (CellKey × Cell)) :
    valued heap path ((key, .table id) :: entries) = valued heap path entries := by
  refine List.filterMap_cons_none ?_
  rw [convert_eq_nested hroom, if_pos hid]
  rfl

theorem valued_table (hroom : Room heap heap.size path) (hid : id ∉ path)
    (entries : List (CellKey × Cell)) : valued heap path ((key, .table id) :: entries) =
      (key, nested (valued heap (id :: path) (heap.getD id ∅).toList)) ::
        valued heap path entries := by
  refine List.filterMap_cons_some ?_
  rw [convert_eq_nested hroom, if_neg hid]
  rfl

end Valued

/-- A table has no value where it is on the path, and everywhere else that of all its entries. -/
def Meeting.Fair (heap : Array Table) (x : Meeting) : Prop :=
  x.value = if x.id ∈ x.path then none
    else some (nested (valued heap (x.id :: x.path) (heap.getD x.id ∅).toList))

def Marks (visiting : Finset Nat) (path : List Nat) : Prop := ∀ i, i ∈ visiting ↔ i ∈ path

theorem Marks.empty : Marks ∅ [] := fun i ↦ iff_of_false (Finset.notMem_empty i) List.not_mem_nil

theorem Marks.enter (h : Marks before path) (id : Nat) : Marks (insert id before) (id :: path) := by
  intro i
  rw [Finset.mem_insert, List.mem_cons, h i]

/-- However a walk goes, it finds what is read, and is in the same tables when it ends. -/
theorem Walk.sound {met : List Meeting} (h : Walk heap path before entries found met after)
    (hmarks : Marks before path) (hroom : ∀ e ∈ entries, Room heap heap.size path) :
    after = before ∧ found = valued heap path entries ∧ ∀ x ∈ met, x.Fair heap := by
  induction h with
  | done => exact ⟨rfl, rfl, List.forall_mem_nil _⟩
  | scalar hv rest ih =>
    obtain ⟨rfl, rfl, hmet⟩ := ih hmarks (List.forall_mem_cons.mp hroom).2
    exact ⟨rfl, (valued_scalar hv _).symm, hmet⟩
  | nothing htable hv rest ih =>
    obtain ⟨rfl, rfl, hmet⟩ := ih hmarks (List.forall_mem_cons.mp hroom).2
    exact ⟨rfl, (valued_nothing htable hv _).symm, hmet⟩
  | leftOut hid rest ih =>
    obtain ⟨hhere, hrest⟩ := List.forall_mem_cons.mp hroom
    obtain ⟨rfl, rfl, hmet⟩ := ih hmarks hrest
    have hpath := (hmarks _).mp hid
    refine ⟨rfl, (valued_leftOut hhere hpath _).symm, List.forall_mem_cons.mpr ⟨?_, hmet⟩⟩
    exact (if_pos hpath).symm
  | @table path before between after key id entries found met inside metInside hid inner rest
      ihInner ihRest =>
    obtain ⟨hhere, hrest⟩ := List.forall_mem_cons.mp hroom
    have hpath : id ∉ path := fun hmem ↦ hid ((hmarks id).mpr hmem)
    obtain ⟨rfl, rfl, hmetInside⟩ :=
      ihInner (hmarks.enter id) fun _ _ ↦ hhere.mono (List.subset_cons_self id path)
    -- the walk inside has put the set back, so the rest starts with the tables of the path again
    rw [Finset.erase_insert hid] at ihRest
    obtain ⟨rfl, rfl, hmet⟩ := ihRest hmarks hrest
    refine ⟨rfl, (valued_table hhere hpath _).symm, List.forall_mem_cons.mpr ⟨?_, ?_⟩⟩
    · exact (if_neg hpath).symm
    · exact fun x hx ↦ (List.mem_append.mp hx).elim (hmetInside x) (hmet x)

/-- A walk ends. The induction is on the tables that are not on the path, and within it on the
entries. -/
theorem exists_walk {depth : Nat} (hroom : ∀ e ∈ entries, Room heap depth path)
    (hdepth : depth ≤ heap.size) (hmarks : Marks before path) :
    ∃ met, Walk heap path before entries (valued heap path entries) met before := by
  induction depth generalizing path before entries with
  | zero =>
    cases entries with
    | nil => exact ⟨[], .done path before⟩
    | cons e entries => exact (Nat.not_lt_zero _ (hroom e List.mem_cons_self)).elim
  | succ depth ih =>
    induction entries with
    | nil => exact ⟨[], .done path before⟩
    | cons e entries ihEntries =>
      obtain ⟨key, cell⟩ := e
      obtain ⟨hhere, hentries⟩ := List.forall_mem_cons.mp hroom
      obtain ⟨met, hrest⟩ := ihEntries hentries
      have hfull : Room heap heap.size path := Nat.lt_of_lt_of_le hhere hdepth
      cases cell with
      | table id =>
        by_cases hid : id ∈ path
        · rw [valued_leftOut hfull hid]
          exact ⟨_, .leftOut ((hmarks id).mpr hid) hrest⟩
        · have hnew : id ∉ before := fun hmem ↦ hid ((hmarks id).mp hmem)
          have hdeeper : ∀ e ∈ (heap.getD id ∅).toList, Room heap depth (id :: path) :=
            fun e he ↦ hhere.enter (lt_size_of_mem he) hid
          obtain ⟨metInside, hinner⟩ :=
            ih hdeeper (Nat.le_of_succ_le hdepth) (hmarks.enter id)
          rw [valued_table hfull hid]
          exact ⟨_, .table hnew hinner (by rwa [Finset.erase_insert hnew])⟩
      | nil | function _ =>
        rw [valued_nothing rfl rfl]
        exact ⟨met, .nothing rfl rfl hrest⟩
      | bool _ | number _ | string _ =>
        rw [valued_scalar rfl]
        exact ⟨met, .scalar rfl hrest⟩

theorem room_entries_section (heap : Array Table) (id : Nat) :
    ∀ e ∈ (heap.getD id ∅).toList, Room heap heap.size [id] :=
  fun _ he ↦ room_section (lt_size_of_mem he)

theorem SectionWalk.sound {tables : List (CellKey × Nat)} {sections : List Section}
    {met : List Meeting} (h : SectionWalk heap before tables sections met after)
    (hbefore : before = ∅) : after = ∅ ∧ (∀ x ∈ met, x.Fair heap) ∧
      sections = tables.map fun e ↦
        keyedSection e.1 (valued heap [e.2] (heap.getD e.2 ∅).toList) := by
  induction h with
  | done => exact ⟨hbefore, List.forall_mem_nil _, rfl⟩
  | leftOut hid rest ih =>
    rw [hbefore] at hid
    exact (Finset.notMem_empty _ hid).elim
  | @table before between after key id tables sections met inside metInside hid inner rest ih =>
    subst hbefore
    obtain ⟨rfl, rfl, hmetInside⟩ :=
      inner.sound (Marks.empty.enter id) (room_entries_section heap id)
    obtain ⟨rfl, hmet, rfl⟩ := ih (Finset.erase_insert hid)
    refine ⟨rfl, List.forall_mem_cons.mpr ⟨?_, ?_⟩, rfl⟩
    · exact (if_neg List.not_mem_nil).symm
    · exact fun x hx ↦ (List.mem_append.mp hx).elim (hmetInside x) (hmet x)

theorem exists_sectionWalk (heap : Array Table) (tables : List (CellKey × Nat)) :
    ∃ sections met, SectionWalk heap ∅ tables sections met ∅ := by
  induction tables with
  | nil => exact ⟨[], [], .done ∅⟩
  | cons e tables ih =>
    obtain ⟨key, id⟩ := e
    obtain ⟨sections, met, hrest⟩ := ih
    have hnew := Finset.notMem_empty id
    obtain ⟨metInside, hinner⟩ :=
      exists_walk (room_entries_section heap id) (Nat.le_refl _) (Marks.empty.enter id)
    exact ⟨_, _, .table hnew hinner (by rwa [Finset.erase_insert hnew])⟩

theorem under_iff {child : Nat} : Under heap child id ↔
    ∃ e ∈ (heap.getD id ∅).toList, e.2 = .table child := by
  constructor
  · rintro ⟨t, key, ht, hcell⟩
    rw [getD_of_getElem? ht]
    exact ⟨(key, .table child), Std.ExtTreeMap.mem_toList_iff_getElem?_eq_some.mpr hcell, rfl⟩
  · rintro ⟨e, he, hchild⟩
    have ht := Array.getElem?_eq_getElem (lt_size_of_mem he)
    refine ⟨_, e.1, ht, ?_⟩
    rw [getD_of_getElem? ht, Std.ExtTreeMap.mem_toList_iff_getElem?_eq_some] at he
    rw [he, hchild]

/-- Each table of the path is a value of the next, and the last has a section. -/
structure Meeting.Along (heap : Array Table) (tables : List (CellKey × Nat)) (x : Meeting) :
    Prop where
  chain : (x.id :: x.path).IsChain (Under heap)
  start : ∃ e ∈ tables, [e.2] <:+ x.id :: x.path

theorem Walk.along {met : List Meeting} (h : Walk heap path before entries found met after)
    (hentries : ∀ e ∈ entries, ∀ i, e.2 = .table i → (i :: path).IsChain (Under heap)) :
    ∀ x ∈ met, (x.id :: x.path).IsChain (Under heap) ∧ path <:+ x.path := by
  induction h with
  | done => exact List.forall_mem_nil _
  | scalar _ rest ih | nothing _ _ rest ih => exact ih (List.forall_mem_cons.mp hentries).2
  | leftOut hid rest ih =>
    obtain ⟨hhere, hrest⟩ := List.forall_mem_cons.mp hentries
    exact List.forall_mem_cons.mpr ⟨⟨hhere _ rfl, List.suffix_rfl⟩, ih hrest⟩
  | @table path before between after key id entries found met inside metInside hid inner rest
      ihInner ihRest =>
    obtain ⟨hhere, hrest⟩ := List.forall_mem_cons.mp hentries
    refine List.forall_mem_cons.mpr ⟨⟨hhere _ rfl, List.suffix_rfl⟩, fun x hx ↦ ?_⟩
    rcases List.mem_append.mp hx with hx | hx
    · obtain ⟨hchain, hsuffix⟩ :=
        ihInner (fun e he i hi ↦ (hhere id rfl).cons_cons (under_iff.mpr ⟨_, he, hi⟩)) x hx
      exact ⟨hchain, (List.suffix_cons id path).trans hsuffix⟩
    · exact ihRest hrest x hx

theorem Walk.along_section {met : List Meeting}
    (h : Walk heap [id] before (heap.getD id ∅).toList found met after) :
    ∀ x ∈ met, (x.id :: x.path).IsChain (Under heap) ∧ [id] <:+ x.path :=
  h.along fun _ he _ hi ↦ List.isChain_pair.mpr (under_iff.mpr ⟨_, he, hi⟩)

theorem Meeting.Along.cons {tables : List (CellKey × Nat)} {x : Meeting} (h : x.Along heap tables)
    (e : CellKey × Nat) : x.Along heap (e :: tables) where
  chain := h.chain
  start := by
    obtain ⟨e', he', hstart⟩ := h.start
    exact ⟨e', List.mem_cons_of_mem e he', hstart⟩

theorem Meeting.along_start (key : CellKey) (tables : List (CellKey × Nat)) (v : Option Value) :
    Meeting.Along heap ((key, id) :: tables) ⟨[], id, v⟩ where
  chain := List.isChain_singleton id
  start := ⟨_, List.mem_cons_self, List.suffix_rfl⟩

theorem SectionWalk.along {tables : List (CellKey × Nat)} {sections : List Section}
    {met : List Meeting} (h : SectionWalk heap before tables sections met after) :
    ∀ x ∈ met, x.Along heap tables := by
  induction h with
  | done => exact List.forall_mem_nil _
  | leftOut hid rest ih =>
    exact List.forall_mem_cons.mpr ⟨Meeting.along_start _ _ _, fun x hx ↦ (ih x hx).cons _⟩
  | table hid inner rest ih =>
    refine List.forall_mem_cons.mpr ⟨Meeting.along_start _ _ _, fun x hx ↦ ?_⟩
    rcases List.mem_append.mp hx with hx | hx
    · obtain ⟨hchain, hstart⟩ := inner.along_section x hx
      exact ⟨hchain, _, List.mem_cons_self, hstart.trans (List.suffix_cons x.id x.path)⟩
    · exact (ih x hx).cons _

theorem Walk.expands {met : List Meeting} (h : Walk heap path before entries found met after)
    (hmet : ∀ x ∈ met, x.value ≠ none) : Expands heap entries found := by
  induction h with
  | done => exact .done
  | scalar hv rest ih => exact .scalar hv (ih hmet)
  | nothing htable hv rest ih => exact .nothing htable hv (ih hmet)
  | leftOut hid rest ih => exact ((List.forall_mem_cons.mp hmet).1 rfl).elim
  | table hid inner rest ihInner ihRest =>
    obtain ⟨hinside, hrest⟩ := List.forall_mem_append.mp (List.forall_mem_cons.mp hmet).2
    exact .table (ihInner hinside) (ihRest hrest)

theorem Expands.unique {found' : List (CellKey × Value)} (h : Expands heap entries found)
    (h' : Expands heap entries found') : found = found' := by
  induction h generalizing found' with
  | done =>
    cases h'
    rfl
  | scalar hv rest ih =>
    cases h' with
    | scalar hv' rest' => rw [Option.some.inj (hv.symm.trans hv'), ih rest']
    | nothing _ hv' rest' => cases hv.symm.trans hv'
    | table inner' rest' => cases hv
  | nothing htable hv rest ih =>
    cases h' with
    | scalar hv' rest' => cases hv.symm.trans hv'
    | nothing _ _ rest' => exact ih rest'
    | table inner' rest' => cases htable
  | table inner rest ihInner ihRest =>
    cases h' with
    | scalar hv' rest' => cases hv'
    | nothing htable' _ rest' => cases htable'
    | table inner' rest' => rw [ihInner inner', ihRest rest']

theorem expands_valued (hroot : ∀ i, LeadsTo heap root i → ¬Relation.TransGen (Under heap) i i)
    {e : CellKey × Nat} (he : e ∈ tables root) :
    Expands heap (heap.getD e.2 ∅).toList (valued heap [e.2] (heap.getD e.2 ∅).toList) := by
  have hroom := room_entries_section heap e.2
  obtain ⟨met, hwalk⟩ := exists_walk hroom (Nat.le_refl _) (Marks.empty.enter e.2)
  refine hwalk.expands fun x hx hnone ↦ ?_
  obtain ⟨hchain, hstart⟩ := hwalk.along_section x hx
  have hwithin : ∀ p ∈ x.path, Relation.TransGen (Under heap) x.id p := fun p hp ↦
    (hchain.imp fun _ _ ↦ Relation.TransGen.single).rel_cons hp
  have hpath : x.id ∈ x.path := by
    have hfair := (hwalk.sound (Marks.empty.enter e.2) hroom).2.2 x hx
    rw [Meeting.Fair, hnone] at hfair
    by_contra hmem
    rw [if_neg hmem] at hfair
    cases hfair
  have hleads := hwithin e.2 (hstart.subset List.mem_cons_self)
  exact hroot x.id ⟨e, he, hleads.to_reflTransGen⟩ (hwithin x.id hpath)

theorem unfolds_iff
    (hroot : ∀ i, LeadsTo heap root i → ¬Relation.TransGen (Under heap) i i) (t : Tree) :
    Unfolds heap root t ↔ t = treeOf heap root := by
  rw [treeOf_eq]
  constructor
  · rintro ⟨sections, hsections, rfl⟩
    have hboth := (List.forall₂_and_left _ _).mpr ⟨fun e he ↦ expands_valued hroot he, hsections⟩
    have hsame : List.Forall₂ (fun e s ↦
        keyedSection e.1 (valued heap [e.2] (heap.getD e.2 ∅).toList) = s)
        (tables root) sections := hboth.imp fun e s he ↦ by
      obtain ⟨hexpands, found, hfound, rfl⟩ := he
      rw [hexpands.unique hfound]
    rw [← List.forall₂_map_left_iff (R := (· = ·)), List.forall₂_eq_eq_eq] at hsame
    rw [hsame]
  · rintro rfl
    refine ⟨_, List.forall₂_map_right_iff.mpr (List.forall₂_same.mpr fun e he ↦ ?_), rfl⟩
    exact ⟨_, expands_valued hroot he, rfl⟩

/-- However its tables are shared or lie within themselves, a walk through the root of a machine
reads the tree. It ends in no table, each table that it comes to is read in full unless that is on
the path, and if no table that the root leads to lies within itself, the tree is what the root
unfolds to with no set of tables at all. -/
theorem walks_read_tree (m : Machine) :
    (∃ met, RootWalk m.heap m.rootTable m.tree met ∅) ∧
    (∀ t met after, RootWalk m.heap m.rootTable t met after →
      t = m.tree ∧ after = ∅ ∧
        ∀ x ∈ met, x.Along m.heap (tables m.rootTable) ∧ x.Fair m.heap) ∧
    ((∀ id, LeadsTo m.heap m.rootTable id → ¬Relation.TransGen (Under m.heap) id id) →
      ∀ t, Unfolds m.heap m.rootTable t ↔ t = m.tree) := by
  rw [tree_eq]
  refine ⟨?_, ?_, unfolds_iff⟩
  · obtain ⟨sections, met, hwalk⟩ := exists_sectionWalk m.heap (tables m.rootTable)
    obtain ⟨-, -, rfl⟩ := hwalk.sound rfl
    exact ⟨met, _, hwalk, treeOf_eq m.heap m.rootTable⟩
  · rintro t met after ⟨sections, hwalk, rfl⟩
    obtain ⟨rfl, hfair, rfl⟩ := hwalk.sound rfl
    exact ⟨(treeOf_eq m.heap m.rootTable).symm, rfl, fun x hx ↦ ⟨hwalk.along x hx, hfair x hx⟩⟩

def sharedTable : Chunk where
  code := [.abc .newTable 0 0 0, .abc .newTable 1 0 0, .abc .newTable 2 0 0,
    .abc .setTable 2 259 260, .abc .setTable 1 257 2, .abc .setTable 1 258 2,
    .abc .setTable 0 256 1]
  constants := #[.string "s", .string "a", .string "b", .string "x", .bool true]

set_option maxRecDepth 4000 in
theorem heap_sharedTable : (fresh.run sharedTable).heap.size = 3 ∧
    ((fresh.run sharedTable).heap.getD 0 ∅).toList = [(.string "s", .table 1)] ∧
    ((fresh.run sharedTable).heap.getD 1 ∅).toList =
      [(.string "a", .table 2), (.string "b", .table 2)] ∧
    ((fresh.run sharedTable).heap.getD 2 ∅).toList = [(.string "x", .bool true)] :=
  ⟨rfl, rfl, rfl, rfl⟩

theorem lt_of_under_sharedTable {child parent : Nat}
    (h : Under (fresh.run sharedTable).heap child parent) : parent < child := by
  obtain ⟨hsize, hroot, hsection, hshared⟩ := heap_sharedTable
  obtain ⟨e, he, hchild⟩ := under_iff.mp h
  have hparent := lt_size_of_mem he
  rw [hsize] at hparent
  obtain rfl | rfl | rfl : parent = 0 ∨ parent = 1 ∨ parent = 2 := by omega
  · rw [hroot, List.mem_singleton] at he
    subst he
    cases hchild
    exact Nat.zero_lt_one
  · rw [hsection, List.mem_pair] at he
    rcases he with rfl | rfl <;> cases hchild <;> exact Nat.one_lt_two
  · rw [hshared, List.mem_singleton] at he
    subst he
    cases hchild

set_option maxRecDepth 4000 in
theorem sharedTable_unfolds :
    (∀ id, LeadsTo (fresh.run sharedTable).heap (fresh.run sharedTable).rootTable id →
      ¬Relation.TransGen (Under (fresh.run sharedTable).heap) id id) ∧
    Unfolds (fresh.run sharedTable).heap (fresh.run sharedTable).rootTable
      (fresh.run sharedTable).tree ∧
    (fresh.run sharedTable).tree.sections.map (fun s ↦ s.properties.map Property.value) =
      [[.table [(.name "x", .bool true)], .table [(.name "x", .bool true)]]] := by
  have hacyclic : ∀ id,
      LeadsTo (fresh.run sharedTable).heap (fresh.run sharedTable).rootTable id →
        ¬Relation.TransGen (Under (fresh.run sharedTable).heap) id id := fun id _ hloop ↦ by
    have hlt : Relation.TransGen (· > ·) id id :=
      Relation.TransGen.mono (fun _ _ ↦ lt_of_under_sharedTable) _ _ hloop
    rw [Relation.transGen_eq_self] at hlt
    exact lt_irrefl id hlt
  refine ⟨hacyclic, ((walks_read_tree (fresh.run sharedTable)).2.2 hacyclic _).mpr rfl, ?_⟩
  rw [tree_eq, treeOf_eq]
  rfl

end PropertyFile.Machine
