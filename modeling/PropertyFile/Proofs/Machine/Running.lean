import PropertyFile.Machine.Basic
import PropertyFile.Proofs.Bytecode.Packing

namespace PropertyFile

namespace Bytecode.Word

variable (op : Opcode) {a b c bx : Nat}

theorem fields_abc (ha : a < 256) (hb : b < 512) (hc : c < 512) :
    (abc op a b c).opcode? = some op ∧ (abc op a b c).a = a ∧ (abc op a b c).b = b ∧
      (abc op a b c).c = c := by
  refine ⟨opcode?_abc op a b c, ?_, ?_, ?_⟩
  · rw [a_abc, Nat.mod_eq_of_lt ha]
  · rw [b_abc, Nat.mod_eq_of_lt hb]
  · rw [c_abc, Nat.mod_eq_of_lt hc]

theorem fields_abx (ha : a < 256) (hbx : bx < 262144) :
    (abx op a bx).opcode? = some op ∧ (abx op a bx).a = a ∧ (abx op a bx).bx = bx := by
  refine ⟨opcode?_abx op a bx, ?_, ?_⟩
  · rw [a_abx, Nat.mod_eq_of_lt ha]
  · rw [bx_abx, Nat.mod_eq_of_lt hbx]

end Bytecode.Word

namespace Machine

open Bytecode

variable {c : Chunk} {m m₁ m₂ : Machine}

/-- The words take one machine to the other, whatever code follows them. -/
def Runs (c : Chunk) (words : List Word) (m m' : Machine) : Prop :=
  ∀ rest, runCode c false (words ++ rest) m = runCode c false rest m'

theorem Runs.nil (c : Chunk) (m : Machine) : Runs c [] m m := fun _ ↦ rfl

theorem Runs.append {u v : List Word} (hu : Runs c u m m₁) (hv : Runs c v m₁ m₂) :
    Runs c (u ++ v) m m₂ := by
  intro rest
  rw [List.append_assoc, hu, hv]

def faultsFrom (c : Chunk) : (skip : Bool) → List Word → Machine → List Fault
  | _, [], _ => []
  | true, _ :: rest, m => faultsFrom c false rest m
  | false, w :: rest, m =>
    if w.opcode? = some .ret then []
    else (m.step c w rest.head?).2.toList ++
      faultsFrom c (takesNext w) rest (m.step c w rest.head?).1

def faults (m : Machine) (c : Chunk) : List Fault := faultsFrom c false c.code m

/-- The words take one machine to the other and none of them faults, whatever code follows them. -/
structure Clean (c : Chunk) (words : List Word) (m m' : Machine) : Prop where
  runs : Runs c words m m'
  faults_eq : ∀ rest, faultsFrom c false (words ++ rest) m = faultsFrom c false rest m'

theorem Clean.nil (c : Chunk) (m : Machine) : Clean c [] m m := ⟨Runs.nil c m, fun _ ↦ rfl⟩

theorem Clean.append {u v : List Word} (hu : Clean c u m m₁) (hv : Clean c v m₁ m₂) :
    Clean c (u ++ v) m m₂ where
  runs := hu.runs.append hv.runs
  faults_eq rest := by rw [List.append_assoc, hu.faults_eq, hv.faults_eq]

theorem clean_word {w : Word} {op : Opcode} (hop : w.opcode? = some op)
    (hbuild : op = .newTable ∨ op = .loadK ∨ op = .setTable)
    (hstep : ∀ next, m.step c w next = (m₁, none)) : Clean c [w] m m₁ := by
  have hret : w.opcode? ≠ some .ret := by
    rw [hop]
    rcases hbuild with rfl | rfl | rfl <;> decide
  have hnext : takesNext w = false := by
    rw [takesNext, hop]
    rcases hbuild with rfl | rfl | rfl <;> rfl
  refine ⟨fun rest ↦ ?_, fun rest ↦ ?_⟩
  · rw [List.singleton_append, runCode, if_neg hret, hnext, hstep]
  · rw [List.singleton_append, faultsFrom, if_neg hret, hnext, hstep]
    rfl

theorem clean_newTable {r : Nat} (hr : r < 256) :
    Clean c [.abc .newTable r 0 0] m (m.newTable r) := by
  obtain ⟨hop, ha, -, -⟩ := Word.fields_abc .newTable hr (Nat.zero_lt_succ 511)
    (Nat.zero_lt_succ 511)
  refine clean_word hop (.inl rfl) fun next ↦ ?_
  unfold step
  simp only [hop, ha]

theorem clean_loadK {r i : Nat} {k : Constant} (hr : r < 256) (hi : i ≤ maxBx)
    (hk : c.constants[i]? = some k) :
    Clean c [.abx .loadK r i] m (m.setRegister r (.ofConstant k)) := by
  obtain ⟨hop, ha, hbx⟩ := Word.fields_abx .loadK hr (Nat.lt_succ_of_le hi)
  refine clean_word hop (.inr (.inl rfl)) fun next ↦ ?_
  unfold step
  simp only [hop, ha, hbx, hk]

theorem clean_setTable {r x y id : Nat} {key : CellKey} (hr : r < 256) (hx : x < 512)
    (hy : y < 512) (hid : m.tableAt? r = some id)
    (hkey : CellKey.ofCell? (m.operand c x) = some key) :
    Clean c [.abc .setTable r x y] m (m.assign id key (m.operand c y)) := by
  obtain ⟨hop, ha, hb, hc⟩ := Word.fields_abc .setTable hr hx hy
  refine clean_word hop (.inr (.inr rfl)) fun next ↦ ?_
  unfold step
  simp only [hop, ha, hb, hc, hid, hkey]

theorem runs_newTable {r : Nat} (hr : r < 256) :
    Runs c [.abc .newTable r 0 0] m (m.newTable r) :=
  (clean_newTable hr).runs

theorem runCode_ret {a : Nat} (ha : a < 256) : runCode c false [.abc .ret a 2 0] m = m := by
  have hop := (Word.fields_abc .ret ha (show 2 < 512 by decide) (Nat.zero_lt_succ 511)).1
  rw [runCode, if_pos hop]

theorem faultsFrom_ret {a : Nat} (ha : a < 256) : faultsFrom c false [.abc .ret a 2 0] m = [] := by
  have hop := (Word.fields_abc .ret ha (show 2 < 512 by decide) (Nat.zero_lt_succ 511)).1
  rw [faultsFrom, if_pos hop]

theorem tableAt?_lt {r id : Nat} (h : m.tableAt? r = some id) : r < registerCount := by
  rw [tableAt?] at h
  split at h
  · next hr => exact (Vector.getElem?_eq_some_iff.mp hr).1
  · cases h

theorem tableAt?_eq_some_iff {r id : Nat} :
    m.tableAt? r = some id ↔ m.registers[r]? = some (.table id) := by
  rw [tableAt?]
  constructor
  · intro h
    split at h
    · next hr =>
      injection h with h
      rw [hr, h]
    · cases h
  · intro h
    rw [h]

theorem getElem?_setRegister (m : Machine) (r : Nat) (v : Cell) (i : Nat) :
    (m.setRegister r v).registers[i]? =
      if i = r ∧ r < registerCount then some v else m.registers[i]? := by
  rw [setRegister, Vector.getElem?_setIfInBounds]
  by_cases hr : r = i
  · subst hr
    rw [if_pos rfl]
    by_cases hlt : r < registerCount
    · rw [if_pos hlt, if_pos ⟨rfl, hlt⟩]
    · rw [if_neg hlt, if_neg fun h ↦ hlt h.2, Vector.getElem?_eq_none (Nat.not_lt.mp hlt)]
  · rw [if_neg hr, if_neg fun h ↦ hr h.1.symm]

theorem operand_setRegister {x r : Nat} (h : x ≠ r) (v : Cell) :
    (m.setRegister r v).operand c x = m.operand c x := by
  simp only [operand, getElem?_setRegister, h, false_and, if_false]

theorem operand_constant {i : Nat} {k : Constant} (h : c.constants[i]? = some k) :
    m.operand c (i + constantBase) = .ofConstant k := by
  simp only [operand, Nat.le_add_left, if_true, Nat.add_sub_cancel, h]

theorem operand_register {r : Nat} (hr : r < constantBase) {v : Cell}
    (h : m.registers[r]? = some v) : m.operand c r = v := by
  simp only [operand, Nat.not_le.mpr hr, if_false, h, Option.getD_some]

/-- One machine comes from the other by changes to the registers above `r`, to one table and to
tables that are new. -/
structure Within (r id : Nat) (m m' : Machine) : Prop where
  globals_eq : m'.globals = m.globals
  registers_eq : ∀ i ≤ r, m'.registers[i]? = m.registers[i]?
  size_le : m.heap.size ≤ m'.heap.size
  heap_eq : ∀ i < m.heap.size, i ≠ id → m'.heap[i]? = m.heap[i]?

variable {r r' id id' : Nat}

theorem Within.refl (r id : Nat) (m : Machine) : Within r id m m :=
  ⟨rfl, fun _ _ ↦ rfl, Nat.le_refl _, fun _ _ _ ↦ rfl⟩

theorem Within.trans_new (h : Within r id m m₁) (h' : Within r' id' m₁ m₂) (hr : r ≤ r')
    (hid : id' = id ∨ m.heap.size ≤ id') : Within r id m m₂ where
  globals_eq := h'.globals_eq.trans h.globals_eq
  registers_eq i hi := (h'.registers_eq i (Nat.le_trans hi hr)).trans (h.registers_eq i hi)
  size_le := Nat.le_trans h.size_le h'.size_le
  heap_eq i hi hne := by
    have hne' : i ≠ id' := by omega
    exact (h'.heap_eq i (Nat.lt_of_lt_of_le hi h.size_le) hne').trans (h.heap_eq i hi hne)

theorem Within.trans (h : Within r id m m₁) (h' : Within r id m₁ m₂) : Within r id m m₂ :=
  h.trans_new h' (Nat.le_refl r) (.inl rfl)

theorem Within.setRegister (id : Nat) (m : Machine) (hr : r < r') (v : Cell) :
    Within r id m (m.setRegister r' v) where
  globals_eq := rfl
  registers_eq i hi := by rw [getElem?_setRegister, if_neg fun h ↦ by omega]
  size_le := Nat.le_refl _
  heap_eq _ _ _ := rfl

theorem Within.newTable (id : Nat) (m : Machine) (hr : r < r') :
    Within r id m (m.newTable r') where
  globals_eq := rfl
  registers_eq := (Within.setRegister id m hr (.table m.heap.size)).registers_eq
  size_le := by
    show _ ≤ (m.heap.push ∅).size
    rw [Array.size_push]
    exact Nat.le_succ _
  heap_eq i hi _ := by
    show (m.heap.push ∅)[i]? = _
    rw [Array.getElem?_push, if_neg (Nat.ne_of_lt hi)]

theorem Within.assign (r id : Nat) (m : Machine) (key : CellKey) (v : Cell) :
    Within r id m (m.assign id key v) where
  globals_eq := rfl
  registers_eq _ _ := rfl
  size_le := by
    show _ ≤ (m.heap.modify id _).size
    exact Nat.le_of_eq Array.size_modify.symm
  heap_eq i _ hne := by
    show (m.heap.modify id _)[i]? = _
    rw [Array.getElem?_modify, if_neg hne.symm]

theorem Within.tableAt? (h : Within r id m m₁) (hr : r' ≤ r) : m₁.tableAt? r' = m.tableAt? r' := by
  rw [Machine.tableAt?, Machine.tableAt?, h.registers_eq r' hr]

theorem tableAt?_newTable (m : Machine) (hr : r < registerCount) :
    (m.newTable r).tableAt? r = some m.heap.size := by
  rw [tableAt?_eq_some_iff]
  show (m.setRegister r (.table m.heap.size)).registers[r]? = _
  rw [getElem?_setRegister, if_pos ⟨rfl, hr⟩]

end Machine

end PropertyFile
