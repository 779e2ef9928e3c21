import PropertyFile.Bytecode.Compile
import PropertyFile.Machine.Basic

namespace PropertyFile

open Number Machine

/-- A scalar, or a table given by what it has at each key. -/
inductive Content where
  | bool (b : Bool)
  | number (x : Double)
  | string (text : String)
  | table (fields : CellKey → Option Content)

abbrev Fields := CellKey → Option Content

namespace Fields

def empty : Fields := fun _ ↦ none

def assign (f : Fields) (key : CellKey) (v : Content) : Fields :=
  fun k ↦ if k = key then some v else f k

def assignAll (f : Fields) (entries : List (CellKey × Content)) : Fields :=
  entries.foldl (fun f e ↦ f.assign e.1 e.2) f

end Fields

def Key.cell : Key → CellKey
  | index i => .number (.ofInt i.toInt)
  | name s => .string s

namespace Content

def items (xs : List Single) : Content :=
  .table (Fields.assignAll Fields.empty (xs.mapIdx fun i x ↦
    (.number (.ofInt (i + 1 : Nat)), .number x.widen)))

end Content

mutual

def Value.content : Value → Content
  | .int32 n => .number (.ofInt n.toInt)
  | .float x => .number x.widen
  | .scaled x => .number x.widen
  | .int16 n => .number (.ofInt n.toInt)
  | .byte n => .number (.ofInt n.toNat)
  | .bool b => .bool b
  | .vec2 x y => .items [x, y]
  | .vec3 x y z => .items [x, y, z]
  | .vec4 x y z w => .items [x, y, z, w]
  | .string s => .string s
  | .table entries => .table (Fields.assignAll Fields.empty (entryContents entries))

def entryContents : List (Key × Value) → List (CellKey × Content)
  | [] => []
  | (key, v) :: rest => (key.cell, v.content) :: entryContents rest

end

def propertyContents (ps : List Property) : List (CellKey × Content) :=
  ps.map fun p ↦ ((Key.ofText p.displayName).cell, p.value.content)

/-- A section assigns into the root itself, or is assigned to it as a table of its own. -/
def Section.assignTo (root : Fields) (s : Section) : Fields :=
  if Bytecode.isRootSection s.name then Fields.assignAll root (propertyContents s.properties)
  else Fields.assign root (.string s.name)
    (.table (Fields.assignAll Fields.empty (propertyContents s.properties)))

def Tree.content (t : Tree) : Content :=
  .table (t.sections.foldl Section.assignTo Fields.empty)

namespace Machine

variable {heap heap' : Array Table} {lo : Nat}

/-- A cell shows a content in tables that are numbered from `lo` on. -/
inductive Shows (heap : Array Table) (lo : Nat) : Cell → Content → Prop
  | bool (b : Bool) : Shows heap lo (.bool b) (.bool b)
  | number {x y : Double} (h : x = y ∨ x.isZero = true ∧ y.isZero = true) :
    Shows heap lo (.number x) (.number y)
  | string (s : String) : Shows heap lo (.string s) (.string s)
  | table {id : Nat} {t : Table} {f : Fields} (hlo : lo ≤ id) (ht : heap[id]? = some t)
    (hkeys : ∀ key, t[key]?.isSome = (f key).isSome)
    (hvalues : ∀ key v x, t[key]? = some v → f key = some x → Shows heap lo v x) :
    Shows heap lo (.table id) (.table f)

theorem Shows.mono {v : Cell} {x : Content} (h : Shows heap lo v x) {lo' : Nat} (hlo : lo' ≤ lo)
    (hheap : ∀ i t, lo ≤ i → heap[i]? = some t → heap'[i]? = some t) : Shows heap' lo' v x := by
  induction h with
  | bool b => exact .bool b
  | number h => exact .number h
  | string s => exact .string s
  | table hid ht hkeys _ ih =>
    exact .table (Nat.le_trans hlo hid) (hheap _ _ hid ht) hkeys ih

theorem Shows.not_nil {v : Cell} {x : Content} (h : Shows heap lo v x) : v.isNil = false := by
  cases h <;> rfl

structure Has (heap : Array Table) (lo : Nat) (t : Table) (f : Fields) : Prop where
  keys : ∀ key, t[key]?.isSome = (f key).isSome
  values : ∀ key v x, t[key]? = some v → f key = some x → Shows heap lo v x

theorem Has.empty (heap : Array Table) (lo : Nat) : Has heap lo ∅ Fields.empty where
  keys _ := by
    rw [Std.ExtTreeMap.getElem?_empty]
    rfl
  values _ _ _ _ hf := by cases hf

theorem Has.mono {t : Table} {f : Fields} (h : Has heap lo t f)
    (hheap : ∀ i t, lo ≤ i → heap[i]? = some t → heap'[i]? = some t) : Has heap' lo t f where
  keys := h.keys
  values key v x hv hx := (h.values key v x hv hx).mono (Nat.le_refl lo) hheap

theorem Has.assign {t : Table} {f : Fields} (h : Has heap lo t f) (key : CellKey) {v : Cell}
    {x : Content} (hv : Shows heap lo v x) :
    Has heap lo (t.assign key v) (Fields.assign f key x) := by
  have hget : ∀ k, (t.assign key v)[k]? = if k = key then some v else t[k]? := by
    intro k
    rw [Table.assign, hv.not_nil, if_neg Bool.false_ne_true, Std.ExtTreeMap.getElem?_insert]
    by_cases hk : k = key
    · rw [if_pos hk, hk, if_pos Std.ReflCmp.compare_self]
    · rw [if_neg hk, if_neg fun heq ↦ hk (Std.LawfulEqCmp.eq_of_compare heq).symm]
  constructor
  · intro k
    rw [hget, Fields.assign]
    split
    · rfl
    · exact h.keys k
  · intro k w y hw hy
    rw [hget] at hw
    rw [Fields.assign] at hy
    split at hw
    · next hk =>
      rw [if_pos hk] at hy
      injection hw with hw
      injection hy with hy
      rwa [← hw, ← hy]
    · next hk =>
      rw [if_neg hk] at hy
      exact h.values k w y hw hy

/-- A table of the heap has the given fields; the tables among them come after it. -/
def Holds (heap : Array Table) (id : Nat) (f : Fields) : Prop :=
  ∃ t, heap[id]? = some t ∧ Has heap (id + 1) t f

variable {id : Nat} {f : Fields}

theorem Holds.lt_size (h : Holds heap id f) : id < heap.size := by
  obtain ⟨t, ht, -⟩ := h
  exact (Array.getElem?_eq_some_iff.mp ht).1

theorem Holds.shows (h : Holds heap id f) (hlo : lo ≤ id) :
    Shows heap lo (.table id) (.table f) := by
  obtain ⟨t, ht, hhas⟩ := h
  exact .table hlo ht hhas.keys fun key v x hv hx ↦
    (hhas.values key v x hv hx).mono (Nat.le_succ_of_le hlo) fun _ _ _ hi ↦ hi

theorem Holds.mono (h : Holds heap id f)
    (hheap : ∀ i t, id ≤ i → heap[i]? = some t → heap'[i]? = some t) : Holds heap' id f := by
  obtain ⟨t, ht, hhas⟩ := h
  exact ⟨t, hheap id t (Nat.le_refl id) ht,
    hhas.mono fun i u hi hu ↦ hheap i u (Nat.le_of_succ_le hi) hu⟩

theorem Holds.push (heap : Array Table) : Holds (heap.push ∅) heap.size Fields.empty :=
  ⟨∅, Array.getElem?_push_size, Has.empty _ _⟩

theorem Holds.assign (h : Holds heap id f) (key : CellKey) {v : Cell} {x : Content}
    (hv : Shows heap (id + 1) v x) :
    Holds (heap.modify id (·.assign key v)) id (Fields.assign f key x) := by
  obtain ⟨t, ht, hhas⟩ := h
  refine ⟨t.assign key v, ?_, (hhas.assign key hv).mono fun i u hi hu ↦ ?_⟩
  · rw [Array.getElem?_modify, if_pos rfl, ht]
    rfl
  · rw [Array.getElem?_modify, if_neg (by omega), hu]

end Machine

end PropertyFile
