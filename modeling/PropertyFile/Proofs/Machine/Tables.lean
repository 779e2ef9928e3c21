import PropertyFile.Machine.Basic
import PropertyFile.Proofs.Machine.Faults
import PropertyFile.Proofs.Text.ByteOrder

namespace PropertyFile

open Number Bytecode

namespace Machine

namespace CellKey

def Proper : CellKey → Prop
  | number x => x.isNaN = false ∧ (x.isZero = true → x = .zero)
  | _ => True

/-- Numbers in their total order, then false, true, then strings in the order of their bytes. -/
inductive Before : CellKey → CellKey → Prop
  | number {x y : Double} (h : x.rank < y.rank) : Before (.number x) (.number y)
  | numberBool (x : Double) (b : Bool) : Before (.number x) (.bool b)
  | numberString (x : Double) (s : String) : Before (.number x) (.string s)
  | bool : Before (.bool false) (.bool true)
  | boolString (b : Bool) (s : String) : Before (.bool b) (.string s)
  | string {s t : String} (h : Text.utf8 s < Text.utf8 t) : Before (.string s) (.string t)

theorem before_of_order {k k' : CellKey} (h : order k k' = .lt) : Before k k' := by
  cases k with
  | number x =>
    cases k' with
    | number y => exact .number (Nat.compare_eq_lt.mp h)
    | bool b => exact .numberBool x b
    | string s => exact .numberString x s
  | bool a =>
    cases k' with
    | number y => cases h
    | bool b =>
      cases a <;> cases b
      case false.true => exact .bool
      all_goals exact absurd h (by decide)
    | string s => exact .boolString a s
  | string s =>
    cases k' with
    | string t => exact .string (Text.utf8_lt_of_compare h)
    | _ => cases h

theorem Before.ne {k k' : CellKey} (h : Before k k') : k ≠ k' := by
  rintro rfl
  cases h with
  | number h => exact Nat.lt_irrefl _ h
  | string h => exact List.lt_irrefl _ h

theorem proper_ofCell? {v : Cell} {k : CellKey} (h : ofCell? v = some k) : k.Proper := by
  cases v with
  | number x =>
    simp only [ofCell?] at h
    split at h
    · cases h
    · next hnan =>
      obtain rfl := Option.some.inj h
      split
      · exact ⟨by decide, fun _ ↦ rfl⟩
      · next hzero => exact ⟨Bool.eq_false_iff.mpr hnan, fun hx ↦ (hzero hx).elim⟩
  | bool b => cases h; exact trivial
  | string s => cases h; exact trivial
  | _ => cases h

theorem proper_item (n : Nat) : (item n).Proper :=
  ⟨Double.isNaN_ofInt n, Double.ofInt_eq_zero⟩

end CellKey

def Cell.Inside (size : Nat) : Cell → Prop
  | table id => id < size
  | _ => True

theorem Cell.Inside.mono {size size' : Nat} {v : Cell} (h : v.Inside size) (hle : size ≤ size') :
    v.Inside size' := by
  cases v with
  | table id => exact Nat.lt_of_lt_of_le h hle
  | _ => trivial

theorem Cell.inside_ofConstant (size : Nat) (k : Constant) : (ofConstant k).Inside size := by
  cases k <;> exact trivial

/-- A table of proper keys, with no nil among its values and none that points outside the heap. -/
def Table.Filled (size : Nat) (t : Table) : Prop :=
  ∀ (k : CellKey) (v : Cell), t[k]? = some v → k.Proper ∧ v.isNil = false ∧ v.Inside size

namespace Table

variable {size : Nat} {t : Table}

theorem filled_empty (size : Nat) : Filled size ∅ := by
  intro k v h
  rw [Std.ExtTreeMap.getElem?_empty] at h
  cases h

theorem Filled.mono {size' : Nat} (h : t.Filled size) (hle : size ≤ size') : t.Filled size' := by
  intro k v hv
  obtain ⟨hk, hnil, hin⟩ := h k v hv
  exact ⟨hk, hnil, hin.mono hle⟩

theorem Filled.assign (h : t.Filled size) {key : CellKey} (hkey : key.Proper) {v : Cell}
    (hv : v.Inside size) : (t.assign key v).Filled size := by
  intro k u hu
  rw [getElem?_assign] at hu
  split at hu
  · next hk =>
    rw [Cell.kept?] at hu
    split at hu
    · cases hu
    · next hnil =>
      obtain rfl := Option.some.inj hu
      exact ⟨hk ▸ hkey, Bool.eq_false_iff.mpr hnil, hv⟩
  · exact h k u hu

theorem Filled.getD (h : t.Filled size) (key : CellKey) : (t.getD key .nil).Inside size := by
  rw [Std.ExtTreeMap.getD_eq_getD_getElem?]
  cases hv : t[key]? with
  | none => trivial
  | some v => exact (h key v hv).2.2

structure Sound (t : Table) : Prop where
  entries : ∀ e ∈ t.toList, e.1.Proper ∧ e.2.isNil = false
  ascending : (t.toList.map Prod.fst).Pairwise CellKey.Before
  distinct : (t.toList.map Prod.fst).Nodup

theorem pairwise_before (t : Table) : (t.toList.map Prod.fst).Pairwise CellKey.Before := by
  have hordered : t.toList.Pairwise fun a b ↦ CellKey.order a.1 b.1 = .lt :=
    Std.ExtTreeMap.ordered_keys_toList
  exact List.pairwise_map.mpr (hordered.imp CellKey.before_of_order)

theorem Filled.sound (h : t.Filled size) : t.Sound where
  entries e he := by
    obtain ⟨hk, hnil, -⟩ := h e.1 e.2 (Std.ExtTreeMap.mem_toList_iff_getElem?_eq_some.mp he)
    exact ⟨hk, hnil⟩
  ascending := t.pairwise_before
  distinct := t.pairwise_before.imp CellKey.Before.ne

end Table

/-- A machine whose cells point into its heap, and whose tables are filled as tables should be. -/
structure Filled (m : Machine) : Prop where
  registers : ∀ (r : Nat) (v : Cell), m.registers[r]? = some v → v.Inside m.heap.size
  globals : m.globals.Filled m.heap.size
  heap : ∀ (id : Nat) (t : Table), m.heap[id]? = some t → t.Filled m.heap.size

theorem filled_fresh : fresh.Filled where
  registers r v h := by
    have hnil := Vector.getElem?_eq_some_iff.mp h
    obtain ⟨hr, rfl⟩ := hnil
    rw [fresh, Vector.getElem_replicate]
    trivial
  globals := Table.filled_empty _
  heap id t h := by cases h

namespace Filled

variable {m : Machine} {v : Cell}

theorem register (h : m.Filled) (r : Nat) : (m.registers[r]?.getD .nil).Inside m.heap.size := by
  cases hv : m.registers[r]? with
  | none => trivial
  | some v => exact h.registers r v hv

theorem operand (h : m.Filled) (c : Chunk) (x : Nat) : (m.operand c x).Inside m.heap.size := by
  rw [Machine.operand]
  split
  · split
    · exact Cell.inside_ofConstant _ _
    · trivial
  · exact h.register x

theorem entry (h : m.Filled) (id : Nat) (key : CellKey) : (m.entry id key).Inside m.heap.size := by
  rw [Machine.entry]
  split
  · next t ht => exact (h.heap id t ht).getD key
  · trivial

theorem setRegister (h : m.Filled) (r : Nat) (hv : v.Inside m.heap.size) :
    (m.setRegister r v).Filled where
  registers i u hu := by
    rw [Machine.setRegister, Vector.getElem?_setIfInBounds] at hu
    split at hu
    · split at hu
      · obtain rfl := Option.some.inj hu
        exact hv
      · cases hu
    · exact h.registers i u hu
  globals := h.globals
  heap := h.heap

theorem clear (h : m.Filled) (first last : Nat) : (m.clear first last).Filled := by
  refine ⟨?_, h.globals, h.heap⟩
  rw [Machine.clear]
  have hkept := h.registers
  generalize m.registers = registers at hkept
  generalize List.range' first (last + 1 - first) = is
  induction is generalizing registers with
  | nil => exact hkept
  | cons i is ih =>
    refine ih _ fun r v hv ↦ ?_
    rw [Vector.getElem?_setIfInBounds] at hv
    split at hv
    · split at hv
      · obtain rfl := Option.some.inj hv
        trivial
      · cases hv
    · exact hkept r v hv

theorem newTable (h : m.Filled) (r : Nat) : (m.newTable r).Filled := by
  have hsize : (m.heap.push ∅).size = m.heap.size + 1 := Array.size_push ..
  have hle : m.heap.size ≤ (m.heap.push ∅).size := by omega
  refine ⟨fun i v hv ↦ ?_, h.globals.mono hle, fun id t ht ↦ ?_⟩
  · rw [Machine.newTable, Vector.getElem?_setIfInBounds] at hv
    split at hv
    · split at hv
      · obtain rfl := Option.some.inj hv
        exact hsize ▸ Nat.lt_succ_self _
      · cases hv
    · exact (h.registers i v hv).mono hle
  · rw [Machine.newTable, Array.getElem?_push] at ht
    split at ht
    · obtain rfl := Option.some.inj ht
      exact Table.filled_empty _
    · exact (h.heap id t ht).mono hle

theorem setGlobal (h : m.Filled) {key : CellKey} (hkey : key.Proper) (hv : v.Inside m.heap.size) :
    (m.setGlobal key v).Filled :=
  ⟨h.registers, h.globals.assign hkey hv, h.heap⟩

theorem assign (h : m.Filled) (id : Nat) {key : CellKey} (hkey : key.Proper)
    (hv : v.Inside m.heap.size) : (m.assign id key v).Filled := by
  have hsize : (m.heap.modify id (·.assign key v)).size = m.heap.size := Array.size_modify
  refine ⟨fun i u hu ↦ ?_, ?_, fun i t ht ↦ ?_⟩
  · rw [Machine.assign, hsize]
    exact h.registers i u hu
  · rw [Machine.assign, hsize]
    exact h.globals
  · rw [Machine.assign] at ht ⊢
    rw [Array.getElem?_modify] at ht
    rw [hsize]
    split at ht
    · obtain ⟨u, hu, rfl⟩ := Option.map_eq_some_iff.mp ht
      exact (h.heap i u hu).assign hkey hv
    · exact h.heap i t ht

theorem storeItems (h : m.Filled) (id first base : Nat) (is : List Nat) :
    (Machine.storeItems id first base is m).1.Filled := by
  induction is generalizing m with
  | nil => exact h
  | cons i is ih =>
    cases hr : m.registers[first + i]? with
    | none =>
      rw [storeItems_of_none hr]
      exact h
    | some v =>
      rw [storeItems_of_some hr]
      exact ih (h.assign id (CellKey.proper_item _) (h.registers _ v hr))

theorem storeList (h : m.Filled) (first count block : Nat) :
    (m.storeList first count block).1.Filled := by
  rw [Machine.storeList]
  split
  · exact h
  · exact h.storeItems _ _ _ _

end Filled

theorem proper_constantKey {c : Chunk} {index : Nat} {key : CellKey}
    (h : constantKey c index = .ok key) : key.Proper := by
  rw [constantKey] at h
  split at h
  · cases h
  · split at h
    · next hkey =>
      cases h
      exact CellKey.proper_ofCell? hkey
    · cases h

/-- An instruction fills a machine as it should be, also when it faults. -/
theorem Filled.step {m : Machine} (h : m.Filled) (c : Chunk) (w : Word) (next : Option Word) :
    (m.step c w next).1.Filled := by
  generalize hr : m.step c w next = r
  cases effect_of_step hr with
  | fault | idle => exact h
  | move _ hv => exact h.setRegister _ (h.registers _ _ hv)
  | loadK => exact h.setRegister _ (Cell.inside_ofConstant _ _)
  | loadBool | closure | getNil => exact h.setRegister _ trivial
  | loadNil => exact h.clear _ _
  | newTable => exact h.newTable _
  | setGlobal _ hkey => exact h.setGlobal (proper_constantKey hkey) (h.register _)
  | getGlobal => exact h.setRegister _ (h.globals.getD _)
  | setTable _ _ hkey => exact h.assign _ (CellKey.proper_ofCell? hkey) (h.operand _ _)
  | getEntry => exact h.setRegister _ (h.entry _ _)
  | setList => exact h.storeList _ _ _

theorem Filled.runCode {m : Machine} (h : m.Filled) (c : Chunk) (skip : Bool) (code : List Word) :
    (runCode c skip code m).Filled := by
  fun_induction Machine.runCode c skip code m with
  | case1 => exact h
  | case2 _ _ _ ih => exact ih h
  | case3 => exact h
  | case4 w rest _ _ ih => exact ih (h.step c w rest.head?)

theorem Filled.runs {m : Machine} (h : m.Filled) (cs : List Chunk) : (cs.foldl run m).Filled := by
  induction cs generalizing m with
  | nil => exact h
  | cons c cs ih => exact ih (h.runCode c false c.code)

/-- The tables that a register or a global leads to, directly or through other tables. -/
inductive Reaches (m : Machine) : Nat → Prop
  | register {r id : Nat} (h : m.registers[r]? = some (.table id)) : Reaches m id
  | global {key : CellKey} {id : Nat} (h : m.globals[key]? = some (.table id)) : Reaches m id
  | entry {id id' : Nat} {t : Table} {key : CellKey} (hid : Reaches m id)
    (ht : m.heap[id]? = some t) (h : t[key]? = some (.table id')) : Reaches m id'

theorem Filled.lt_size {m : Machine} (h : m.Filled) {id : Nat} (hid : m.Reaches id) :
    id < m.heap.size := by
  cases hid with
  | register hr => exact h.registers _ _ hr
  | global hg => exact (h.globals _ _ hg).2.2
  | entry _ ht he => exact (h.heap _ _ ht _ _ he).2.2

/-- A machine with all its registers, whose globals and tables that can be reached are sound. -/
structure Sound (m : Machine) : Prop where
  registers : m.registers.toList.length = 256
  globals : m.globals.Sound
  tables : ∀ id, m.Reaches id → ∃ t, m.heap[id]? = some t ∧ t.Sound

theorem Filled.sound {m : Machine} (h : m.Filled) : m.Sound where
  registers := Vector.length_toList
  globals := h.globals.sound
  tables id hid := by
    have hlt := h.lt_size hid
    exact ⟨m.heap[id], Array.getElem?_eq_getElem hlt,
      (h.heap id _ (Array.getElem?_eq_getElem hlt)).sound⟩

/-- Chunks that are run one after the other, whatever they hold, leave a sound machine. -/
theorem sound_runs (cs : List Chunk) : (cs.foldl run fresh).Sound :=
  (filled_fresh.runs cs).sound

def listedChunks : List Chunk :=
  [{ code := [.abc .newTable 0 0 0, .abc .newTable 1 0 0] }, { code := [.abc .setList 0 1 1] }]

set_option maxRecDepth 4000 in
theorem sound_listedChunks : (listedChunks.foldl run fresh).Reaches 1 ∧
    ∃ t, (listedChunks.foldl run fresh).heap[1]? = some t ∧ t.Sound := by
  have hroot : (listedChunks.foldl run fresh).Reaches 0 := .register (r := 0) rfl
  have hlisted : (listedChunks.foldl run fresh).Reaches 1 :=
    @Reaches.entry _ 0 1 _ (item 1) hroot rfl rfl
  exact ⟨hlisted, (sound_runs listedChunks).tables 1 hlisted⟩

end Machine

end PropertyFile
