import Std.Data.HashMap
import PropertyFile.Bytecode.Chunk
import PropertyFile.Tree.Basic

namespace PropertyFile.Bytecode

open Number

inductive CompileError where
  | tableTooDeep
  | poolOverflow (count : Nat)
deriving DecidableEq, Repr

def CompileError.message : CompileError → String
  | tableTooDeep => "Table nesting exceeds the register file"
  | poolOverflow count => "Constant pool overflow: " ++ toString count ++ " constants"

/-- The registers that compiled code may use are those below this one. -/
def registerLimit : Nat := 250

def generatedSource : String := "@Generated"

/-- What the names of sections start with whose properties go into the root table itself. -/
def rootMarks : List String := ["Lua Globals", "Main Chunk"]

def isRootSection (name : String) : Bool :=
  rootMarks.any fun mark ↦ mark.toList.isPrefixOf name.toList

theorem isRootSection_iff {name : String} : isRootSection name = true ↔
    ∃ rest, name = "Lua Globals" ++ rest ∨ name = "Main Chunk" ++ rest := by
  simp only [isRootSection, rootMarks, List.any_cons, List.any_nil, Bool.or_false, Bool.or_eq_true,
    Text.isPrefixOf_toList_iff, exists_or]

/-- A chunk in the making. `index` tells where in the pool a constant is, by its slot. -/
structure Build where
  code : Array Word := #[]
  constants : Array Constant := #[]
  index : Std.HashMap Constant Nat := ∅
  maxRegister : Nat := 0

/-- What a constant is filed under: both zeros have one slot. -/
def Constant.slot : Constant → Constant
  | number x => number (if x.isZero then .zero else x)
  | k => k

theorem Constant.slot_eq_iff {k k' : Constant} : k.slot = k'.slot ↔ k = k' ∨
    ∃ x x', k = .number x ∧ k' = .number x' ∧ x.isZero = true ∧ x'.isZero = true := by
  have hzero : Double.zero.isZero = true := by decide
  cases k with
  | number x =>
    cases k' with
    | number x' =>
      have hne : ∀ {y y' : Double}, y.isZero = true → y'.isZero = false → y ≠ y' := by
        rintro y _ hy hy' rfl
        exact absurd (hy.symm.trans hy') (by decide)
      cases hx : x.isZero <;> cases hx' : x'.isZero
      · simp [slot, hx, hx']
      · simp [slot, hx, hx', (hne hzero hx).symm, (hne hx' hx).symm]
      · simp [slot, hx, hx', hne hzero hx', hne hx hx']
      · simp [slot, hx, hx']
    | _ => simp [slot]
  | _ => cases k' <;> simp [slot]

abbrev Compiler := StateT Build (Except CompileError)

namespace Compiler

def emit (w : Word) : Compiler Unit := modify fun s ↦ { s with code := s.code.push w }

def touch (r : Nat) : Compiler Unit := do
  if registerLimit ≤ r then throw .tableTooDeep
  modify fun s ↦ { s with maxRegister := max s.maxRegister r }

/-- The place of a constant in the pool, which it joins on first use. -/
def constant (k : Constant) : Compiler Nat := do
  match (← get).index[k.slot]? with
  | some i => return i
  | none => modifyGet fun s ↦
    let i := s.constants.size
    (i, { s with constants := s.constants.push k, index := s.index.insert k.slot i })

def load (r i : Nat) : Compiler Unit := do
  if maxBx < i then throw (.poolOverflow (← get).constants.size)
  touch r
  emit (.abx .loadK r i)

/-- An operand for a constant of the pool; `scratch` is where it goes if it cannot be named. -/
def constantOperand (i scratch : Nat) : Compiler Nat := do
  if i ≤ maxOperandConstant then return i + constantBase
  else
    load scratch i
    return scratch

def newTable (r : Nat) : Compiler Unit := do
  touch r
  emit (.abc .newTable r 0 0)

end Compiler

def keyConstant : Key → Constant
  | .index i => .number (.ofInt i.toInt)
  | .name s => .string s

namespace Compiler

def assign (t : Nat) (key : Key) (valueOperand : Nat) : Compiler Unit := do
  let i ← constant (keyConstant key)
  let k ← constantOperand i (t + 1)
  emit (.abc .setTable t k valueOperand)

def scalarField (t : Nat) (key : Key) (k : Constant) : Compiler Unit := do
  let i ← constant k
  assign t key (← constantOperand i (t + 2))

def components (t : Nat) : (first : Int64) → List Single → Compiler Unit
  | _, [] => return ()
  | i, x :: xs => do
    scalarField t (.index i) (.number x.widen)
    components t (i + 1) xs

def tableField (t : Nat) (key : Key) (fill : Compiler Unit) : Compiler Unit := do
  newTable (t + 2)
  fill
  assign t key (t + 2)

mutual

/-- Sets a field of the table in register `t`. A key that no operand can name is loaded into
register `t + 1`; a value that none can name, or a table of its own, goes into register `t + 2`. -/
def field (t : Nat) (key : Key) : Value → Compiler Unit
  | .int32 n => scalarField t key (.number (.ofInt n.toInt))
  | .float x => scalarField t key (.number x.widen)
  | .scaled x => scalarField t key (.number x.widen)
  | .int16 n => scalarField t key (.number (.ofInt n.toInt))
  | .byte n => scalarField t key (.number (.ofInt n.toNat))
  | .bool b => scalarField t key (.bool b)
  | .string s => scalarField t key (.string s)
  | .vec2 x y => tableField t key (components (t + 2) 1 [x, y])
  | .vec3 x y z => tableField t key (components (t + 2) 1 [x, y, z])
  | .vec4 x y z w => tableField t key (components (t + 2) 1 [x, y, z, w])
  | .table entries => tableField t key (fields (t + 2) entries)

def fields (t : Nat) : List (Key × Value) → Compiler Unit
  | [] => return ()
  | (key, v) :: rest => do
    field t key v
    fields t rest

end

def propertyFields (ps : List Property) : List (Key × Value) :=
  ps.map fun p ↦ (.ofText p.displayName, p.value)

def compileSection (s : Section) : Compiler Unit := do
  if isRootSection s.name then fields 0 (propertyFields s.properties)
  else
    let i ← constant (.string s.name)
    load 1 i
    newTable 2
    fields 2 (propertyFields s.properties)
    emit (.abc .setTable 0 (if i ≤ maxOperandConstant then i + constantBase else 1) 2)

def compileSections : List Section → Compiler Unit
  | [] => return ()
  | s :: rest => do
    compileSection s
    compileSections rest

def compileTree (t : Tree) : Compiler Unit := do
  newTable 0
  compileSections t.sections
  emit (.abc .ret 0 2 0)

end Compiler

def Build.chunk (s : Build) : Chunk :=
  { source := some generatedSource
    varargFlags := 2
    stackSize := UInt8.ofNat (max (s.maxRegister + 1) 2)
    code := s.code.toList
    constants := s.constants }

def compile (t : Tree) : Except CompileError Chunk :=
  (·.2.chunk) <$> (Compiler.compileTree t).run {}

end PropertyFile.Bytecode
