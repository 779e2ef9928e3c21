import PropertyFile.Machine.Basic
import PropertyFile.Proofs.Number.Exact

namespace PropertyFile.Machine

open Number Bytecode

def Cell.kept? (v : Cell) : Option Cell := if v.isNil then none else some v

def item (n : Nat) : CellKey := .number (.ofInt n)

theorem item_inj {n n' : Nat} (hn : n < 9007199254740992) (hn' : n' < 9007199254740992)
    (h : item n = item n') : n = n' := by
  have hint := congrArg Double.toInt? (CellKey.number.inj h)
  rw [Double.toInt?_ofInt_of_lt (by omega), Double.toInt?_ofInt_of_lt (by omega)] at hint
  exact Int.ofNat_inj.mp (Option.some.inj hint)

namespace Table

variable {t : Table} {key : CellKey} {v : Cell}

theorem getElem?_assign (t : Table) (key : CellKey) (v : Cell) (k : CellKey) :
    (t.assign key v)[k]? = if k = key then v.kept? else t[k]? := by
  have hcompare : CellKey.order key k = .eq ↔ k = key := by
    constructor
    · exact fun h ↦ (Std.LawfulEqCmp.eq_of_compare h).symm
    · rintro rfl
      exact Std.ReflCmp.compare_self
  rw [assign, Cell.kept?]
  split
  · rw [Std.ExtTreeMap.getElem?_erase]
    simp only [hcompare]
  · rw [Std.ExtTreeMap.getElem?_insert]
    simp only [hcompare]

theorem assign_eq_self (h : t[key]? = v.kept?) : t.assign key v = t := by
  refine Std.ExtTreeMap.ext_getElem? fun k ↦ ?_
  rw [getElem?_assign]
  split
  · next hk => rw [hk, h]
  · rfl

end Table

variable {m : Machine} {id first base : Nat} {is : List Nat} {t : Table}

theorem assign_eq_self {key : CellKey} {v : Cell}
    (h : ∀ t, m.heap[id]? = some t → t[key]? = v.kept?) : m.assign id key v = m := by
  have hheap : m.heap.modify id (·.assign key v) = m.heap := by
    refine Array.ext_getElem? fun i ↦ ?_
    rw [Array.getElem?_modify]
    split
    · next hi =>
      subst hi
      cases ht : m.heap[id]? with
      | none => rfl
      | some t => rw [Option.map_some, Table.assign_eq_self (h t ht)]
    · rfl
  rw [assign, hheap]

theorem storeItems_of_none {i : Nat} (h : m.registers[first + i]? = none) :
    storeItems id first base (i :: is) m = (m, some (.noRegister (first + i))) := by
  rw [storeItems, h]

theorem storeItems_of_some {i : Nat} {v : Cell} (h : m.registers[first + i]? = some v) :
    storeItems id first base (i :: is) m =
      storeItems id first base is (m.assign id (item (base + i)) v) := by
  rw [storeItems, h]
  rfl

theorem storeItems_frame (id first base : Nat) (is : List Nat) (m : Machine) :
    (storeItems id first base is m).1.registers = m.registers ∧
      (storeItems id first base is m).1.globals = m.globals := by
  induction is generalizing m with
  | nil => exact ⟨rfl, rfl⟩
  | cons i is ih =>
    cases hr : m.registers[first + i]? with
    | none =>
      rw [storeItems_of_none hr]
      exact ⟨rfl, rfl⟩
    | some v =>
      rw [storeItems_of_some hr]
      exact ih (m.assign id (item (base + i)) v)

/-- Each item is in the table for which there is a register, and other keys have what they had. -/
theorem getElem?_storeItems (first : Nat) (hs : is.Pairwise (· < ·))
    (hb : ∀ i ∈ is, base + i < 9007199254740992) (ht : m.heap[id]? = some t) :
    ∃ t', (storeItems id first base is m).1.heap[id]? = some t' ∧
      (∀ k, (∀ i ∈ is, k ≠ item (base + i)) → t'[k]? = t[k]?) ∧
      ∀ i ∈ is, ∀ v, m.registers[first + i]? = some v → t'[item (base + i)]? = v.kept? := by
  induction is generalizing m t with
  | nil => exact ⟨t, ht, fun _ _ ↦ rfl, fun i hi ↦ (List.not_mem_nil hi).elim⟩
  | cons i is ih =>
    obtain ⟨hbi, hbs⟩ := List.forall_mem_cons.mp hb
    obtain ⟨hi, hs⟩ := List.pairwise_cons.mp hs
    cases hr : m.registers[first + i]? with
    | none =>
      rw [storeItems_of_none hr]
      refine ⟨t, ht, fun _ _ ↦ rfl, fun j hj v hv ↦ ?_⟩
      -- The registers of later items come after one that is not there.
      have hlt := (Vector.getElem?_eq_some_iff.mp hv).1
      have hge := Vector.getElem?_eq_none_iff.mp hr
      rcases List.mem_cons.mp hj with rfl | hj
      · omega
      · have hij := hi j hj
        omega
    | some u =>
      rw [storeItems_of_some hr]
      have ht' : (m.assign id (item (base + i)) u).heap[id]? =
          some (t.assign (item (base + i)) u) := by
        rw [assign, Array.getElem?_modify, if_pos rfl, ht, Option.map_some]
      obtain ⟨t', hheap, hother, hstored⟩ := ih hs hbs ht'
      refine ⟨t', hheap, fun k hk ↦ ?_, fun j hj v hv ↦ ?_⟩
      · obtain ⟨hki, hk⟩ := List.forall_mem_cons.mp hk
        rw [hother k hk, Table.getElem?_assign, if_neg hki]
      · rcases List.mem_cons.mp hj with rfl | hj
        · have hnew : ∀ i' ∈ is, item (base + j) ≠ item (base + i') := by
            intro i' hi' heq
            have hlt := hi i' hi'
            have hsame := item_inj hbi (hbs i' hi') heq
            omega
          rw [hother _ hnew, Table.getElem?_assign, if_pos rfl, Option.some.inj (hr.symm.trans hv)]
        · exact hstored j hj v hv

theorem storeItems_of_stored (h : ∀ t, m.heap[id]? = some t → ∀ i ∈ is, ∀ v,
    m.registers[first + i]? = some v → t[item (base + i)]? = v.kept?) :
    (storeItems id first base is m).1 = m := by
  induction is with
  | nil => rfl
  | cons i is ih =>
    cases hr : m.registers[first + i]? with
    | none => rw [storeItems_of_none hr]
    | some v =>
      rw [storeItems_of_some hr,
        assign_eq_self fun t ht ↦ h t ht i List.mem_cons_self v hr]
      exact ih fun t ht j hj ↦ h t ht j (List.mem_cons_of_mem i hj)

theorem heap_storeItems_eq_iff (hs : is.Pairwise (· < ·))
    (hb : ∀ i ∈ is, base + i < 9007199254740992) :
    (storeItems id first base is m).1.heap = m.heap ↔ ∀ t, m.heap[id]? = some t → ∀ i ∈ is, ∀ v,
      m.registers[first + i]? = some v → t[item (base + i)]? = v.kept? := by
  constructor
  · intro h t ht
    obtain ⟨t', hheap, -, hstored⟩ := getElem?_storeItems first hs hb ht
    rw [h, ht] at hheap
    rwa [Option.some.inj hheap]
  · intro h
    rw [storeItems_of_stored h]

theorem heap_storeItems_of_ne {id' : Nat} (hid : id ≠ id') (is : List Nat) (m : Machine) :
    (storeItems id first base is m).1.heap[id']? = m.heap[id']? := by
  induction is generalizing m with
  | nil => rfl
  | cons i is ih =>
    cases hr : m.registers[first + i]? with
    | none => rw [storeItems_of_none hr]
    | some v =>
      rw [storeItems_of_some hr, ih, assign, Array.getElem?_modify, if_neg hid]

/-- A result that is no fault, or one with the machine as it was. -/
def Keeps (m : Machine) (r : Machine × Option Fault) : Prop := r.2 = none ∨ r.1 = m

/-- The block that a list instruction stores; no other instruction has one. -/
def listNumber? (w : Word) (next : Option Word) : Option Nat :=
  if w.opcode? = some .setList then
    if w.c = 0 then next.map UInt32.toNat else some w.c
  else none

variable {m : Machine} {c : Chunk} {w : Word} {next : Option Word} {block : Nat}

theorem step_eq_storeList (m : Machine) (c : Chunk) (h : listNumber? w next = some block) :
    m.step c w next = m.storeList w.a w.b block := by
  rw [listNumber?] at h
  split at h
  · next hop =>
    unfold step
    rw [hop]
    split at h
    · next hc =>
      obtain ⟨word, hnext, rfl⟩ := Option.map_eq_some_iff.mp h
      simp only [hc, hnext, if_true]
    · next hc =>
      obtain rfl := Option.some.inj h
      simp only [if_neg hc]
  · contradiction

/-- What an instruction does: it faults with the machine as it was, or has the effect of its
opcode. -/
inductive Effect (m : Machine) (c : Chunk) (w : Word) (next : Option Word) :
    Machine × Option Fault → Prop
  | fault (e : Fault) (h : listNumber? w next = none) : Effect m c w next (m, some e)
  | idle (h : listNumber? w next = none) : Effect m c w next (m, none)
  | move {v : Cell} (hop : w.opcode? = some .move) (hv : m.registers[w.b]? = some v) :
    Effect m c w next (m.setRegister w.a v, none)
  | loadK {k : Constant} (hop : w.opcode? = some .loadK) (hk : c.constants[w.bx]? = some k) :
    Effect m c w next (m.setRegister w.a (.ofConstant k), none)
  | loadBool (hop : w.opcode? = some .loadBool) :
    Effect m c w next (m.setRegister w.a (.bool (w.b ≠ 0)), none)
  | loadNil (hop : w.opcode? = some .loadNil) (hb : w.b < registerCount) :
    Effect m c w next (m.clear w.a w.b, none)
  | newTable (hop : w.opcode? = some .newTable) : Effect m c w next (m.newTable w.a, none)
  | closure {p : Chunk} (hop : w.opcode? = some .closure) (hp : c.prototypes[w.bx]? = some p) :
    Effect m c w next (m.setRegister w.a (.function p), none)
  | setGlobal {key : CellKey} (hop : w.opcode? = some .setGlobal)
    (hkey : constantKey c w.bx = .ok key) :
    Effect m c w next (m.setGlobal key (m.registers[w.a]?.getD .nil), none)
  | getGlobal {key : CellKey} (hop : w.opcode? = some .getGlobal)
    (hkey : constantKey c w.bx = .ok key) :
    Effect m c w next (m.setRegister w.a (m.globals.getD key .nil), none)
  | setTable {id : Nat} {key : CellKey} (hop : w.opcode? = some .setTable)
    (hid : m.tableAt? w.a = some id) (hkey : CellKey.ofCell? (m.operand c w.b) = some key) :
    Effect m c w next (m.assign id key (m.operand c w.c), none)
  | getEntry {id : Nat} {key : CellKey} (hop : w.opcode? = some .getTable)
    (hid : m.tableAt? w.b = some id) (hkey : CellKey.ofCell? (m.operand c w.c) = some key) :
    Effect m c w next (m.setRegister w.a (m.entry id key), none)
  | getNil (hop : w.opcode? = some .getTable) : Effect m c w next (m.setRegister w.a .nil, none)
  | setList {block : Nat} (h : listNumber? w next = some block) :
    Effect m c w next (m.storeList w.a w.b block)

theorem listNumber?_eq_none (h : w.opcode? ≠ some .setList) : listNumber? w next = none :=
  if_neg h

theorem listNumber?_of_opcode {op : Opcode} (h : w.opcode? = some op) (hop : op ≠ .setList) :
    listNumber? w next = none :=
  listNumber?_eq_none fun hlist ↦ hop (Option.some.inj (h.symm.trans hlist))

theorem effect_of_step {r : Machine × Option Fault} (h : m.step c w next = r) :
    Effect m c w next r := by
  subst h
  unfold step
  split
  · next hop =>
    split
    · next hv => exact .move hop hv
    · exact .fault _ (listNumber?_of_opcode hop nofun)
  · next hop =>
    split
    · next hk => exact .loadK hop hk
    · exact .fault _ (listNumber?_of_opcode hop nofun)
  · next hop => exact .loadBool hop
  · next hop =>
    split
    · next hb => exact .loadNil hop hb
    · exact .fault _ (listNumber?_of_opcode hop nofun)
  · next hop => exact .newTable hop
  · next hop =>
    split
    · next hp => exact .closure hop hp
    · exact .fault _ (listNumber?_of_opcode hop nofun)
  · next hop =>
    split
    · next hkey => exact .setGlobal hop hkey
    · exact .fault _ (listNumber?_of_opcode hop nofun)
  · next hop =>
    split
    · next hkey => exact .getGlobal hop hkey
    · exact .fault _ (listNumber?_of_opcode hop nofun)
  · next hop =>
    split
    · exact .fault _ (listNumber?_of_opcode hop nofun)
    · next hid =>
      split
      · next hkey => exact .setTable hop hid hkey
      · exact .fault _ (listNumber?_of_opcode hop nofun)
  · next hop =>
    split
    · split
      · next hid hkey => exact .getEntry hop hid hkey
      · exact .getNil hop
    · exact .fault _ (listNumber?_of_opcode hop nofun)
  · next hop =>
    split
    · next hc =>
      split
      · exact .setList (by rw [listNumber?, if_pos hop, if_pos hc, Option.map_some])
      · exact .fault _ (by rw [listNumber?, if_pos hop, if_pos hc, Option.map_none])
    · next hc => exact .setList (by rw [listNumber?, if_pos hop, if_neg hc])
  · next hlist => exact .idle (listNumber?_eq_none hlist)

theorem keeps_step (m : Machine) (c : Chunk) (h : listNumber? w next = none) :
    Keeps m (m.step c w next) := by
  generalize hr : m.step c w next = r
  cases effect_of_step hr with
  | fault => exact .inr rfl
  | setList hblock => cases h.symm.trans hblock
  | _ => exact .inl rfl

theorem listNumber_lt (h : listNumber? w next = some block) : block < 4294967296 := by
  rw [listNumber?] at h
  split at h
  · split at h
    · obtain ⟨word, -, rfl⟩ := Option.map_eq_some_iff.mp h
      exact word.toNat_lt
    · obtain rfl := Option.some.inj h
      rw [Word.c]
      omega
  · contradiction

/-- The items of a block are in the table that is to list them, as far as there are registers for
them. -/
def Listed (m : Machine) (first count block : Nat) : Prop :=
  ∀ id t, m.tableAt? first = some id → m.heap[id]? = some t →
    ∀ i ∈ List.range' 1 count, ∀ v, m.registers[first + i]? = some v →
      t[item ((block - 1) * listBlock + i)]? = v.kept?

theorem storeList_frame (m : Machine) (first count block : Nat) :
    (m.storeList first count block).1.registers = m.registers ∧
      (m.storeList first count block).1.globals = m.globals ∧
      ∀ id, m.tableAt? first ≠ some id →
        (m.storeList first count block).1.heap[id]? = m.heap[id]? := by
  rw [storeList]
  cases ht : m.tableAt? first with
  | none => exact ⟨rfl, rfl, fun _ _ ↦ rfl⟩
  | some id =>
    obtain ⟨hregisters, hglobals⟩ :=
      storeItems_frame id first ((block - 1) * listBlock) (List.range' 1 count) m
    refine ⟨hregisters, hglobals, fun id' hne ↦ heap_storeItems_of_ne ?_ _ m⟩
    rintro rfl
    exact hne rfl

theorem heap_storeList_eq_iff {count : Nat} (hblock : block < 4294967296) (hcount : count < 512) :
    (m.storeList first count block).1.heap = m.heap ↔ m.Listed first count block := by
  rw [storeList, Listed]
  cases ht : m.tableAt? first with
  | none => exact ⟨fun _ _ _ h ↦ absurd h (by simp), fun _ ↦ rfl⟩
  | some id =>
    have hexact : ∀ i ∈ List.range' 1 count,
        (block - 1) * listBlock + i < 9007199254740992 := by
      intro i hi
      have hle := (List.mem_range'_1.mp hi).2
      rw [listBlock]
      omega
    rw [heap_storeItems_eq_iff List.pairwise_lt_range' hexact]
    constructor
    · rintro h _ t ⟨⟩
      exact h t
    · exact fun h t ↦ h id t rfl

theorem b_lt (w : Word) : w.b < 512 := by
  have h := w.toNat_lt
  rw [Word.b]
  omega

/-- A fault leaves the machine as it was, but for the table of a list instruction: that is as it was
exactly if the items that come before the missing register were there already. -/
theorem fault_keeps_iff (m : Machine) (c : Chunk) (w : Word) (next : Option Word) (e : Fault)
    (h : (m.step c w next).2 = some e) :
    (m.step c w next).1.registers = m.registers ∧ (m.step c w next).1.globals = m.globals ∧
      (∀ id, m.tableAt? w.a ≠ some id → (m.step c w next).1.heap[id]? = m.heap[id]?) ∧
      ((m.step c w next).1.heap = m.heap ↔
        ∀ block, listNumber? w next = some block → m.Listed w.a w.b block) := by
  cases hblock : listNumber? w next with
  | none =>
    obtain hok | hkept := keeps_step m c hblock
    · rw [hok] at h
      contradiction
    · rw [hkept]
      exact ⟨rfl, rfl, fun _ _ ↦ rfl, fun _ _ hsome ↦ absurd hsome (by simp), fun _ ↦ rfl⟩
  | some block =>
    rw [step_eq_storeList m c hblock]
    obtain ⟨hregisters, hglobals, hother⟩ := storeList_frame m w.a w.b block
    refine ⟨hregisters, hglobals, hother, ?_⟩
    rw [heap_storeList_eq_iff (listNumber_lt hblock) (b_lt w)]
    exact ⟨fun hlisted _ heq ↦ Option.some.inj heq ▸ hlisted, fun hlisted ↦ hlisted block rfl⟩

/-- A list whose table is in the last register has no item to store. -/
theorem fault_keeps_emptyList :
    ((fresh.newTable 255).step {} (.abc .setList 255 1 1) none).2 = some (.noRegister 256) ∧
      ((fresh.newTable 255).step {} (.abc .setList 255 1 1) none).1.heap =
        (fresh.newTable 255).heap := by
  have hfault : ((fresh.newTable 255).step {} (.abc .setList 255 1 1) none).2 =
      some (.noRegister 256) := by decide +kernel
  refine ⟨hfault, (fault_keeps_iff _ _ _ _ _ hfault).2.2.2.mpr fun block _ id t _ _ i hi v hv ↦ ?_⟩
  have hlt := (Vector.getElem?_eq_some_iff.mp hv).1
  have ha : (Word.abc .setList 255 1 1).a = 255 := by decide
  rw [ha, registerCount] at hlt
  obtain ⟨hle, -⟩ := List.mem_range'_1.mp hi
  omega

def lastItem : Machine := (fresh.newTable 254).setRegister 255 (.bool true)

def pastEnd : Word := .abc .setList 254 2 1

theorem pastEnd_stores : (lastItem.step {} pastEnd none).2 = some (.noRegister 256) ∧
    lastItem.tableAt? 254 = some 0 ∧ lastItem.entry 0 (item 1) = .nil ∧
      (lastItem.step {} pastEnd none).1.entry 0 (item 1) = .bool true := by
  refine ⟨by decide +kernel, by decide +kernel, ?_, ?_⟩
  · rfl
  · have hstep : lastItem.step {} pastEnd none = lastItem.storeList 254 2 1 :=
      step_eq_storeList lastItem {} (by decide)
    have hlast : lastItem.registers[254 + 1]? = some (.bool true) := by
      rw [lastItem, setRegister, Vector.getElem?_setIfInBounds_self, if_pos (by decide)]
    have hstored : lastItem.storeList 254 2 1 =
        (lastItem.assign 0 (item 1) (.bool true), some (.noRegister 256)) := by
      rw [storeList, show lastItem.tableAt? 254 = some 0 by decide +kernel]
      show storeItems 0 254 0 [1, 2] lastItem = _
      rw [storeItems_of_some hlast]
      exact storeItems_of_none (Vector.getElem?_eq_none (by decide))
    rw [hstep, hstored]
    rfl

end PropertyFile.Machine
