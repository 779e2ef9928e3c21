import PropertyFile.Machine.Table

namespace PropertyFile

open Bytecode Machine

def Machine.registerCount : Nat := 256

structure Machine where
  registers : Vector Cell Machine.registerCount
  globals : Table
  heap : Array Table

inductive Machine.Fault where
  | noTable (register : Nat)
  | noRegister (register : Nat)
  | noConstant (index : Nat)
  | noPrototype (index : Nat)
  | badKey
  | noBlockWord
deriving DecidableEq, Repr

namespace Machine

/-- How many list items one block of a list instruction stands for. -/
def listBlock : Nat := 50

def fresh : Machine := ⟨.replicate _ .nil, ∅, #[]⟩

def setRegister (m : Machine) (r : Nat) (v : Cell) : Machine :=
  { m with registers := m.registers.setIfInBounds r v }

def clear (m : Machine) (first last : Nat) : Machine :=
  { m with
    registers := (List.range' first (last + 1 - first)).foldl (·.setIfInBounds · .nil) m.registers }

def newTable (m : Machine) (r : Nat) : Machine :=
  { m with registers := m.registers.setIfInBounds r (.table m.heap.size), heap := m.heap.push ∅ }

def setGlobal (m : Machine) (key : CellKey) (v : Cell) : Machine :=
  { m with globals := m.globals.assign key v }

def assign (m : Machine) (id : Nat) (key : CellKey) (v : Cell) : Machine :=
  { m with heap := m.heap.modify id (·.assign key v) }

def entry (m : Machine) (id : Nat) (key : CellKey) : Cell :=
  match m.heap[id]? with
  | some t => t.getD key .nil
  | none => .nil

def tableAt? (m : Machine) (r : Nat) : Option Nat :=
  match m.registers[r]? with
  | some (.table id) => some id
  | _ => none

def constantKey (c : Chunk) (index : Nat) : Except Fault CellKey :=
  match c.constants[index]? with
  | none => .error (.noConstant index)
  | some k =>
    match CellKey.ofCell? (.ofConstant k) with
    | some key => .ok key
    | none => .error .badKey

/-- What an operand names: a constant or a register. One that is not there reads as nil. -/
def operand (m : Machine) (c : Chunk) (x : Nat) : Cell :=
  if constantBase ≤ x then
    match c.constants[x - constantBase]? with
    | some k => .ofConstant k
    | none => .nil
  else m.registers[x]?.getD .nil

/-- Stores the registers `first + i` for the given `i` as items `base + i` of a table, up to the
first register that is not there. -/
def storeItems (id first base : Nat) : List Nat → Machine → Machine × Option Fault
  | [], m => (m, none)
  | i :: is, m =>
    match m.registers[first + i]? with
    | none => (m, some (.noRegister (first + i)))
    | some v => storeItems id first base is (m.assign id (.number (.ofInt (base + i : Nat))) v)

def storeList (m : Machine) (first count block : Nat) : Machine × Option Fault :=
  match m.tableAt? first with
  | none => (m, some (.noTable first))
  | some id => storeItems id first ((block - 1) * listBlock) (List.range' 1 count) m

/-- Carries out one instruction; `next` is the word after it. Opcodes that move no constants,
registers, globals or table entries do nothing. -/
def step (m : Machine) (c : Chunk) (w : Word) (next : Option Word) : Machine × Option Fault :=
  match w.opcode? with
  | some .move =>
    match m.registers[w.b]? with
    | some v => (m.setRegister w.a v, none)
    | none => (m, some (.noRegister w.b))
  | some .loadK =>
    match c.constants[w.bx]? with
    | some k => (m.setRegister w.a (.ofConstant k), none)
    | none => (m, some (.noConstant w.bx))
  | some .loadBool => (m.setRegister w.a (.bool (w.b ≠ 0)), none)
  | some .loadNil =>
    if w.b < registerCount then (m.clear w.a w.b, none) else (m, some (.noRegister w.b))
  | some .newTable => (m.newTable w.a, none)
  | some .closure =>
    match c.prototypes[w.bx]? with
    | some p => (m.setRegister w.a (.function p), none)
    | none => (m, some (.noPrototype w.bx))
  | some .setGlobal =>
    match constantKey c w.bx with
    | .ok key => (m.setGlobal key (m.registers[w.a]?.getD .nil), none)
    | .error e => (m, some e)
  | some .getGlobal =>
    match constantKey c w.bx with
    | .ok key => (m.setRegister w.a (m.globals.getD key .nil), none)
    | .error e => (m, some e)
  | some .setTable =>
    match m.tableAt? w.a with
    | none => (m, some (.noTable w.a))
    | some id =>
      match CellKey.ofCell? (m.operand c w.b) with
      | some key => (m.assign id key (m.operand c w.c), none)
      | none => (m, some .badKey)
  | some .getTable =>
    if w.b < registerCount then
      match m.tableAt? w.b, CellKey.ofCell? (m.operand c w.c) with
      | some id, some key => (m.setRegister w.a (m.entry id key), none)
      | _, _ => (m.setRegister w.a .nil, none)
    else (m, some (.noRegister w.b))
  | some .setList =>
    if w.c = 0 then
      match next with
      | some block => m.storeList w.a w.b block.toNat
      | none => (m, some .noBlockWord)
    else m.storeList w.a w.b w.c
  | _ => (m, none)

/-- Whether the word after an instruction is not an instruction to carry out: it is skipped, or it
is an operand. -/
def takesNext (w : Word) : Bool :=
  match w.opcode? with
  | some .loadBool => w.c ≠ 0
  | some .setList => w.c = 0
  | _ => false

/-- Runs code to its end or to a return. The flag says that the first word is not to be carried
out. -/
def runCode (c : Chunk) : (skip : Bool) → List Word → Machine → Machine
  | _, [], m => m
  | true, _ :: rest, m => runCode c false rest m
  | false, w :: rest, m =>
    if w.opcode? = some .ret then m
    else runCode c (takesNext w) rest (m.step c w rest.head?).1

def run (m : Machine) (c : Chunk) : Machine := runCode c false c.code m

end Machine

end PropertyFile
