import PropertyFile.Machine.Basic
import PropertyFile.Tree.Basic

namespace PropertyFile.Machine

open Number

def globalsSection : String := "Lua Globals"

def CellKey.name : CellKey → String
  | number x => "[" ++ x.text ++ "]"
  | bool b => if b then "true" else "false"
  | string s => s

/-- A key as the key of a nested table: an integer of 64 bits is an index. -/
def CellKey.toKey : CellKey → Key
  | number x =>
    match x.toInt? with
    | some n =>
      if n.natAbs ≤ Int64.maxValue.toInt then .index (Int64.ofInt n) else .name (number x).name
    | none => .name (number x).name
  | k => .name k.name

def numberValue (x : Double) : Value :=
  match x.toInt? with
  | some n =>
    if Int32.minValue.toInt ≤ n ∧ n ≤ Int32.maxValue.toInt then .int32 (Int32.ofInt n)
    else .float x.narrow
  | none => .float x.narrow

/-- The value of a cell. Nil and functions have none, nor has a table that is on the path of tables
that leads to it. The path holds distinct tables of the heap, so it cannot grow longer than
`depth` when that starts as the size of the heap. -/
def convert (heap : Array Table) : (depth : Nat) → (path : List Nat) → Cell → Option Value
  | _, _, .nil | _, _, .function _ => none
  | _, _, .bool b => some (.bool b)
  | _, _, .number x => some (numberValue x)
  | _, _, .string s => some (.string s)
  | 0, _, .table _ => none
  | depth + 1, path, .table id =>
    if id ∈ path then none
    else
      let entries := (heap.getD id ∅).toList
      some (.tableOf (entries.filterMap fun e ↦
        (convert heap depth (id :: path) e.2).map fun v ↦ (e.1.toKey, v)))

def sectionProperties (heap : Array Table) (inSection : String) (path : List Nat) (t : Table) :
    List Property :=
  t.toList.filterMap fun e ↦
    (convert heap heap.size path e.2).map fun v ↦
      ⟨pairHash inSection e.1.name, some e.1.name, v, v.tag⟩

def isTable : Cell → Bool
  | .table _ => true
  | _ => false

def section? (heap : Array Table) (e : CellKey × Cell) : Option Section :=
  match e.2 with
  | .table id =>
    let name := e.1.name
    some { Section.named name with
      properties := sectionProperties heap name [id] (heap.getD id ∅) }
  | _ => none

def treeOf (heap : Array Table) (root : Table) : Tree :=
  let scalars := root.filter fun _ v ↦ !isTable v
  let globals := sectionProperties heap globalsSection [] scalars
  let sections := root.toList.filterMap (section? heap)
  { Tree.empty with
    sections := if globals.isEmpty then sections
      else { Section.named globalsSection with properties := globals } :: sections }

/-- What the machine has built: its globals if there are any, else the table in register 0. -/
def tree (m : Machine) : Tree :=
  if m.globals.isEmpty then
    match m.tableAt? 0 with
    | some id => treeOf m.heap (m.heap.getD id ∅)
    | none => .empty
  else treeOf m.heap m.globals

end PropertyFile.Machine
