import Mathlib.Data.List.Induction
import PropertyFile.Machine.Tree
import PropertyFile.Proofs.Machine.Content

namespace PropertyFile

open Number Machine

/-- Entries by their keys; of two with one key the later one counts. -/
abbrev gather {α : Type} (entries : List (CellKey × α)) : Std.ExtTreeMap CellKey α CellKey.order :=
  .ofList entries CellKey.order

def items (xs : List Single) : List (CellKey × Value) :=
  xs.mapIdx fun i x ↦ (.number (.ofInt (i + 1 : Nat)), .float x)

def Value.parts? : Value → Option (List (CellKey × Value))
  | .vec2 x y => some (items [x, y])
  | .vec3 x y z => some (items [x, y, z])
  | .vec4 x y z w => some (items [x, y, z, w])
  | .table entries => some (entries.map fun e ↦ (e.1.cell, e.2))
  | _ => none

def Value.isScalar (v : Value) : Bool := v.parts?.isNone

def tableFrom (entries : List (CellKey × Value)) : Value :=
  .tableOf ((gather entries).toList.map fun e ↦ (e.1.toKey, e.2))

def itemEchoes (xs : List Single) : List (CellKey × Value) :=
  xs.mapIdx fun i x ↦ (.number (.ofInt (i + 1 : Nat)), numberValue x.widen)

mutual

def Value.echo : Value → Value
  | .int32 n => numberValue (.ofInt n.toInt)
  | .float x => numberValue x.widen
  | .scaled x => numberValue x.widen
  | .int16 n => numberValue (.ofInt n.toInt)
  | .byte n => numberValue (.ofInt n.toNat)
  | .bool b => .bool b
  | .vec2 x y => tableFrom (itemEchoes [x, y])
  | .vec3 x y z => tableFrom (itemEchoes [x, y, z])
  | .vec4 x y z w => tableFrom (itemEchoes [x, y, z, w])
  | .string s => .string s
  | .table entries => tableFrom (entryEchoes entries)

def entryEchoes : List (Key × Value) → List (CellKey × Value)
  | [] => []
  | (key, v) :: rest => (key.cell, v.echo) :: entryEchoes rest

end

def keyedProperty (inSection : String) (e : CellKey × Value) : Property :=
  ⟨pairHash inSection e.1.name, some e.1.name, e.2, e.2.tag⟩

def Property.cell (p : Property) : CellKey := (Key.ofText p.displayName).cell

def Section.entries (s : Section) : List (CellKey × Value) :=
  s.properties.map fun p ↦ (p.cell, p.value)

def Section.rootEntries (s : Section) : List (CellKey × Value) :=
  if Bytecode.isRootSection s.name then s.entries
  else [(.string s.name, .table (Bytecode.Compiler.propertyFields s.properties))]

def sectionFrom (name : String) (entries : List (CellKey × Value)) : Section :=
  { Section.named name with
    properties := (gather entries).toList.map fun e ↦ keyedProperty name (e.1, e.2.echo) }

/-- The section of the properties that are in no section of their own, if there are any. -/
def globalSections (globals : List Property) : List Section :=
  if globals.isEmpty then []
  else [{ Section.named Machine.globalsSection with properties := globals }]

def entrySection? (e : CellKey × Value) : Option Section := e.2.parts?.map (sectionFrom e.1.name)

namespace Tree

def rootEntries (t : Tree) : List (CellKey × Value) := t.sections.flatMap Section.rootEntries

def echoGlobals (t : Tree) : List Property :=
  ((gather t.rootEntries).toList.filter (·.2.isScalar)).map fun e ↦
    keyedProperty Machine.globalsSection (e.1, e.2.echo)

def echoSections (t : Tree) : List Section :=
  (gather t.rootEntries).toList.filterMap entrySection?

/-- What becomes of a tree that is compiled, run and read again, from the tree alone: keys that meet
in one cell key are merged, entries come in the order of the machine's keys, and numbers are told
apart anew. -/
def echo (t : Tree) : Tree :=
  { empty with sections := globalSections t.echoGlobals ++ t.echoSections }

end Tree

variable {α β : Type}

theorem getElem?_gather_concat (entries : List (CellKey × α)) (e : CellKey × α)
    (k : CellKey) : (gather (entries ++ [e]))[k]? =
      if k = e.1 then some e.2 else (gather entries)[k]? := by
  rw [gather, gather, Std.ExtTreeMap.ofList_eq_foldl, Std.ExtTreeMap.ofList_eq_foldl,
    List.foldl_append]
  show (Std.ExtTreeMap.insert _ _ _)[k]? = _
  rw [Std.ExtTreeMap.getElem?_insert]
  by_cases hk : k = e.1
  · rw [if_pos hk, hk, if_pos Std.ReflCmp.compare_self]
  · rw [if_neg hk, if_neg fun heq ↦ hk (Std.LawfulEqCmp.eq_of_compare heq).symm]

theorem getElem?_gather_nil (k : CellKey) : (gather ([] : List (CellKey × α)))[k]? = none :=
  Std.ExtTreeMap.getElem?_empty

theorem gather_map (f : α → β) (entries : List (CellKey × α)) :
    gather (entries.map fun e ↦ (e.1, f e.2)) = (gather entries).map fun _ v ↦ f v := by
  refine Std.ExtTreeMap.ext_getElem? fun k ↦ ?_
  rw [Std.ExtTreeMap.getElem?_map]
  induction entries using List.reverseRecOn with
  | nil => rw [List.map_nil, getElem?_gather_nil, getElem?_gather_nil]; rfl
  | append_singleton entries e ih =>
    rw [List.map_append, List.map_singleton, getElem?_gather_concat,
      getElem?_gather_concat, ih]
    split <;> rfl

theorem assignAll_empty (entries : List (CellKey × Content)) (k : CellKey) :
    Fields.assignAll Fields.empty entries k = (gather entries)[k]? := by
  induction entries using List.reverseRecOn with
  | nil => exact (getElem?_gather_nil k).symm
  | append_singleton entries e ih =>
    rw [getElem?_gather_concat, Fields.assignAll, List.foldl_append, ← Fields.assignAll]
    show (if k = e.1 then _ else Fields.assignAll Fields.empty entries k) = _
    rw [ih]

theorem map_mapIdx {γ : Type} (f : Nat → α → β) (g : β → γ) (l : List α) :
    (l.mapIdx f).map g = l.mapIdx fun i x ↦ g (f i x) := by
  simp only [List.mapIdx_eq_zipIdx_map, List.map_map, Function.comp_def]

theorem entryEchoes_eq_map (entries : List (Key × Value)) :
    entryEchoes entries = entries.map fun e ↦ (e.1.cell, e.2.echo) := by
  induction entries with
  | nil => rfl
  | cons e entries ih => rw [entryEchoes, ih, List.map_cons]

theorem entryContents_eq_map (entries : List (Key × Value)) :
    entryContents entries = entries.map fun e ↦ (e.1.cell, e.2.content) := by
  induction entries with
  | nil => rfl
  | cons e entries ih => rw [entryContents, ih, List.map_cons]

theorem itemEchoes_eq_map (xs : List Single) :
    itemEchoes xs = (items xs).map fun e ↦ (e.1, e.2.echo) := by
  rw [itemEchoes, items, map_mapIdx]
  rfl

theorem items_content (xs : List Single) : Content.items xs =
    .table (Fields.assignAll Fields.empty ((items xs).map fun e ↦ (e.1, e.2.content))) := by
  rw [Content.items, items, map_mapIdx]
  rfl

namespace Value

variable {v : Value} {parts : List (CellKey × Value)}

theorem echo_of_parts (h : v.parts? = some parts) :
    v.echo = tableFrom (parts.map fun e ↦ (e.1, e.2.echo)) := by
  cases v with
  | vec2 | vec3 | vec4 =>
    obtain rfl := Option.some.inj h
    exact congrArg tableFrom (itemEchoes_eq_map _)
  | table entries =>
    obtain rfl := Option.some.inj h
    rw [echo, entryEchoes_eq_map, List.map_map]
    rfl
  | _ => cases h

theorem content_of_parts (h : v.parts? = some parts) : v.content =
    .table (Fields.assignAll Fields.empty (parts.map fun e ↦ (e.1, e.2.content))) := by
  cases v with
  | vec2 | vec3 | vec4 =>
    obtain rfl := Option.some.inj h
    exact items_content _
  | table entries =>
    obtain rfl := Option.some.inj h
    rw [content, entryContents_eq_map, List.map_map]
    rfl
  | _ => cases h

theorem isScalar_of_parts (h : v.parts? = some parts) : v.isScalar = false := by
  rw [isScalar, h]
  rfl

theorem scalar_cases (h : v.parts? = none) : (∃ x, v.content = .number x ∧ v.echo = numberValue x) ∨
    (∃ b, v.content = .bool b ∧ v.echo = .bool b) ∨
    ∃ s, v.content = .string s ∧ v.echo = .string s := by
  cases v with
  | int32 | float | scaled | int16 | byte => exact .inl ⟨_, rfl, rfl⟩
  | bool b => exact .inr (.inl ⟨b, rfl, rfl⟩)
  | string s => exact .inr (.inr ⟨s, rfl, rfl⟩)
  | _ => cases h

end Value

theorem numberValue_of_isZero {x : Double} (h : x.isZero = true) : numberValue x = .int32 0 := by
  have hdatum : x.datum = .finite (decide (Format.double.signBit ≤ x.bits.toNat)) 0
      Format.double.minExponent := by
    rw [Double.isZero, beq_iff_eq] at h
    simp only [Double.datum, Format.decode, h]
    rfl
  have hint : x.toInt? = some 0 := by
    simp only [Double.toInt?, hdatum, scaleBy, Nat.zero_mul, Nat.zero_mod, Nat.zero_div, if_true]
    split <;> rfl
  rw [numberValue, hint]
  exact if_pos (show Int32.minValue.toInt ≤ 0 ∧ 0 ≤ Int32.maxValue.toInt by decide)

namespace Machine

variable {heap : Array Table} {lo : Nat}

def Under (heap : Array Table) (child parent : Nat) : Prop :=
  ∃ (t : Table) (key : CellKey), heap[parent]? = some t ∧ t[key]? = some (.table child)

/-- What a cell shows is finite, so no table lies within itself. -/
theorem Shows.acc {cell : Cell} {x : Content} (h : Shows heap lo cell x) {id : Nat}
    (hid : cell = .table id) : Acc (Under heap) id := by
  induction h generalizing id with
  | bool | number | string => cases hid
  | @table id' t f hlo ht hkeys hvalues ih =>
    obtain rfl := Cell.table.inj hid
    refine ⟨_, ?_⟩
    rintro child ⟨t', key, ht', hchild⟩
    obtain rfl := Option.some.inj (ht.symm.trans ht')
    have hkey := hkeys key
    rw [hchild] at hkey
    obtain ⟨y, hy⟩ := Option.isSome_iff_exists.mp hkey.symm
    exact ih key (.table child) y hchild hy rfl

/-- Distinct tables of the heap, each with the cell somewhere within it. -/
structure Path (heap : Array Table) (path : List Nat) (cell : Cell) : Prop where
  nodup : path.Nodup
  lt_size : ∀ p ∈ path, p < heap.size
  within : ∀ p ∈ path, ∀ id, cell = .table id → Relation.TransGen (Under heap) id p

theorem Path.nil (heap : Array Table) (cell : Cell) : Path heap [] cell :=
  ⟨List.nodup_nil, fun _ h ↦ (List.not_mem_nil h).elim, fun _ h ↦ (List.not_mem_nil h).elim⟩

variable {path : List Nat} {id : Nat} {t : Table}

theorem Path.not_mem (h : Path heap path (.table id)) (hacc : Acc (Under heap) id) :
    id ∉ path := fun hmem ↦ by
  have hloop := h.within id hmem id rfl
  induction hacc.transGen with
  | intro id _ ih => exact ih id hloop h hacc hmem hloop

theorem Path.cons (h : Path heap path (.table id)) (hacc : Acc (Under heap) id)
    (ht : heap[id]? = some t) {key : CellKey} {cell : Cell} (hcell : t[key]? = some cell) :
    Path heap (id :: path) cell where
  nodup := List.nodup_cons.mpr ⟨h.not_mem hacc, h.nodup⟩
  lt_size := List.forall_mem_cons.mpr ⟨(Array.getElem?_eq_some_iff.mp ht).1, h.lt_size⟩
  within := by
    rintro p hp child rfl
    have hunder : Under heap child id := ⟨t, key, ht, hcell⟩
    rcases List.mem_cons.mp hp with rfl | hp
    · exact .single hunder
    · exact .trans (.single hunder) (h.within p hp id rfl)

theorem Path.length_lt (h : Path heap path (.table id)) (hacc : Acc (Under heap) id)
    (hid : id < heap.size) : path.length < heap.size := by
  have hsub : (id :: path) ⊆ List.range heap.size := by
    intro p hp
    rw [List.mem_range]
    rcases List.mem_cons.mp hp with rfl | hp
    · exact hid
    · exact h.lt_size p hp
  have hle := (List.nodup_cons.mpr ⟨h.not_mem hacc, h.nodup⟩).length_le_of_subset hsub
  rwa [List.length_range] at hle

variable {β γ : Type} {f : CellKey → Cell → Option β} {g : CellKey → Value → Option β}
  {entries : List (CellKey × Value)}

theorem filterMap_of_has
    (h : Has heap lo t (Fields.assignAll Fields.empty (entries.map fun e ↦ (e.1, e.2.content))))
    (hfg : ∀ key cell v, t[key]? = some cell → Shows heap lo cell v.content → f key cell = g key v)
    (r : CellKey → β → γ) : t.toList.filterMap (fun e ↦ (f e.1 e.2).map (r e.1)) =
      (gather entries).toList.filterMap fun e ↦ (g e.1 e.2).map (r e.1) := by
  have hmaps : t.filterMap f = (gather entries).filterMap g := by
    refine Std.ExtTreeMap.ext_getElem? fun key ↦ ?_
    rw [Std.ExtTreeMap.getElem?_filterMap', Std.ExtTreeMap.getElem?_filterMap']
    have hfield := assignAll_empty (entries.map fun e ↦ (e.1, e.2.content)) key
    rw [gather_map, Std.ExtTreeMap.getElem?_map] at hfield
    have hkey := h.keys key
    rw [hfield] at hkey
    cases hv : (gather entries)[key]? with
    | none =>
      rw [hv] at hkey
      rw [Option.not_isSome_iff_eq_none.mp (Bool.eq_false_iff.mp hkey)]
      rfl
    | some v =>
      rw [hv] at hkey hfield
      obtain ⟨cell, hcell⟩ := Option.isSome_iff_exists.mp hkey
      rw [hcell]
      exact hfg key cell v hcell (h.values key cell v.content hcell hfield)
  have hlists := congrArg (fun m ↦ m.toList.map fun e ↦ r e.1 e.2) hmaps
  simpa only [Std.ExtTreeMap.toList_filterMap, List.map_filterMap, Option.map_map,
    Function.comp_def] using hlists

theorem map_gather_echo (r : CellKey → Value → β) :
    (gather (entries.map fun e ↦ (e.1, e.2.echo))).toList.map (fun e ↦ r e.1 e.2) =
      (gather entries).toList.filterMap fun e ↦ (some e.2.echo).map (r e.1) := by
  rw [gather_map, Std.ExtTreeMap.toList_map, List.map_map]
  exact (List.filterMap_eq_map (f := fun e : CellKey × Value ↦ r e.1 e.2.echo)).symm ▸ rfl

theorem scalar_of_shows {cell : Cell} {v : Value} (h : Shows heap lo cell v.content)
    (hv : v.parts? = none) : isTable cell = false ∧
      ∀ depth path, convert heap depth path cell = some v.echo := by
  rcases Value.scalar_cases hv with ⟨y, hcontent, hecho⟩ | ⟨b, hcontent, hecho⟩ |
    ⟨s, hcontent, hecho⟩
  · rw [hcontent] at h
    cases h with
    | @number x y hxy =>
      have hsame : numberValue x = numberValue y := by
        rcases hxy with rfl | ⟨hx, hy⟩
        · rfl
        · rw [numberValue_of_isZero hx, numberValue_of_isZero hy]
      exact ⟨rfl, fun depth path ↦ by rw [convert, hecho, hsame]⟩
  · rw [hcontent] at h
    cases h
    exact ⟨rfl, fun depth path ↦ by rw [convert, hecho]⟩
  · rw [hcontent] at h
    cases h
    exact ⟨rfl, fun depth path ↦ by rw [convert, hecho]⟩

theorem table_of_shows {cell : Cell} {v : Value} (h : Shows heap lo cell v.content)
    (hv : v.parts? = some entries) : ∃ id t, cell = .table id ∧ heap[id]? = some t ∧
      Acc (Under heap) id ∧
      Has heap lo t (Fields.assignAll Fields.empty (entries.map fun e ↦ (e.1, e.2.content))) := by
  rw [Value.content_of_parts hv] at h
  cases h with
  | @table id t f hlo ht hkeys hvalues =>
    exact ⟨id, t, rfl, ht, (Shows.table hlo ht hkeys hvalues).acc rfl, hkeys, hvalues⟩

theorem getD_of_getElem? (ht : heap[id]? = some t) : heap.getD id ∅ = t := by
  rw [Array.getD_eq_getD_getElem?, ht, Option.getD_some]

theorem convert_shows (depth : Nat) {cell : Cell} {v : Value}
    (hshows : Shows heap lo cell v.content) (hpath : Path heap path cell)
    (hdepth : heap.size ≤ depth + path.length) :
    convert heap depth path cell = some v.echo := by
  induction depth generalizing cell v path with
  | zero =>
    cases hv : v.parts? with
    | none => exact (scalar_of_shows hshows hv).2 0 path
    | some entries =>
      obtain ⟨id, t, rfl, ht, hacc, -⟩ := table_of_shows hshows hv
      have hlt := hpath.length_lt hacc (Array.getElem?_eq_some_iff.mp ht).1
      omega
  | succ depth ih =>
    cases hv : v.parts? with
    | none => exact (scalar_of_shows hshows hv).2 (depth + 1) path
    | some entries =>
      obtain ⟨id, t, rfl, ht, hacc, hhas⟩ := table_of_shows hshows hv
      have hread := filterMap_of_has hhas (f := fun _ cell ↦ convert heap depth (id :: path) cell)
        (g := fun _ v ↦ some v.echo)
        (fun key cell v hcell hshows ↦ ih hshows (hpath.cons hacc ht hcell)
          (by rw [List.length_cons]; omega))
        fun key v ↦ (key.toKey, v)
      rw [convert, if_neg (hpath.not_mem hacc), getD_of_getElem? ht, Value.echo_of_parts hv,
        tableFrom, map_gather_echo (fun key v ↦ (key.toKey, v))]
      exact congrArg (some ∘ Value.tableOf) hread

theorem sectionProperties_of_has (name : String) (path : List Nat)
    (h : Has heap lo t (Fields.assignAll Fields.empty (entries.map fun e ↦ (e.1, e.2.content))))
    (hpath : ∀ (key : CellKey) (cell : Cell), t[key]? = some cell → Path heap path cell) :
    sectionProperties heap name path t =
      (gather entries).toList.map fun e ↦ keyedProperty name (e.1, e.2.echo) := by
  have hread := filterMap_of_has h (f := fun _ cell ↦ convert heap heap.size path cell)
    (g := fun _ v ↦ some v.echo)
    (fun key cell v hcell hshows ↦
      convert_shows heap.size hshows (hpath key cell hcell) (Nat.le_add_right _ _))
    fun key v ↦ keyedProperty name (key, v)
  exact hread.trans (congrFun List.filterMap_eq_map _)

theorem section?_of_shows {key : CellKey} {cell : Cell} {v : Value}
    (hshows : Shows heap lo cell v.content) : section? heap (key, cell) =
      entrySection? (key, v) := by
  cases hv : v.parts? with
  | none =>
    obtain ⟨htable, -⟩ := scalar_of_shows hshows hv
    rw [entrySection?, hv]
    cases cell <;> first | rfl | cases htable
  | some entries =>
    obtain ⟨id, t, rfl, ht, hacc, hhas⟩ := table_of_shows hshows hv
    have hread := sectionProperties_of_has key.name [id] hhas fun _ _ hcell ↦
      (Path.nil heap _).cons hacc ht hcell
    rw [entrySection?, hv, section?]
    simp only [getD_of_getElem? ht, hread]
    rfl

theorem isTable_of_shows {cell : Cell} {v : Value} (hshows : Shows heap lo cell v.content) :
    isTable cell = !v.isScalar := by
  cases hv : v.parts? with
  | none => rw [(scalar_of_shows hshows hv).1, Value.isScalar, hv]; rfl
  | some entries =>
    obtain ⟨id, t, rfl, -⟩ := table_of_shows hshows hv
    rw [Value.isScalar_of_parts hv]
    rfl

theorem globals_of_has
    (h : Has heap lo t (Fields.assignAll Fields.empty (entries.map fun e ↦ (e.1, e.2.content)))) :
    sectionProperties heap globalsSection [] (t.filter fun _ v ↦ !isTable v) =
      ((gather entries).toList.filter (·.2.isScalar)).map fun e ↦
        keyedProperty globalsSection (e.1, e.2.echo) := by
  have hread := filterMap_of_has h
    (f := fun _ cell ↦ if !isTable cell then convert heap heap.size [] cell else none)
    (g := fun _ v ↦ if v.isScalar then some v.echo else none)
    (fun key cell v hcell hshows ↦ by
      rw [isTable_of_shows hshows, Bool.not_not, convert_shows heap.size hshows
        (Path.nil heap cell) (Nat.le_add_right _ _)])
    fun key v ↦ keyedProperty globalsSection (key, v)
  rw [sectionProperties, Std.ExtTreeMap.toList_filter, List.filterMap_filter]
  rw [← List.filterMap_eq_map, List.filterMap_filter]
  simpa only [apply_ite (Option.map _), Option.map_none, Option.map_some, Function.comp_def,
    keyedProperty] using hread

theorem treeOf_of_has {t : Tree} {root : Table}
    (h : Has heap lo root (Fields.assignAll Fields.empty
      (t.rootEntries.map fun e ↦ (e.1, e.2.content)))) : treeOf heap root = t.echo := by
  have hglobals : sectionProperties heap globalsSection [] (root.filter fun _ v ↦ !isTable v) =
      t.echoGlobals := globals_of_has h
  have hsections : root.toList.filterMap (section? heap) = t.echoSections := by
    have hread := filterMap_of_has h (f := fun key cell ↦ section? heap (key, cell))
      (g := fun key v ↦ entrySection? (key, v))
      (fun key cell v _ hshows ↦ section?_of_shows hshows) fun _ s ↦ s
    simpa only [Option.map_id', Tree.echoSections] using hread
  rw [treeOf, Tree.echo, globalSections]
  simp only [hglobals, hsections]
  split <;> rfl

end Machine

end PropertyFile
