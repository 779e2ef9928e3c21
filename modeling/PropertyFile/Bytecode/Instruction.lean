namespace PropertyFile.Bytecode

inductive Opcode where
  | move
  | loadK
  | loadBool
  | loadNil
  | getUpval
  | getGlobal
  | getTable
  | setGlobal
  | setUpval
  | setTable
  | newTable
  | selfOp
  | add
  | sub
  | mul
  | div
  | mod
  | pow
  | unm
  | not
  | len
  | concat
  | jmp
  | eq
  | lt
  | le
  | test
  | testSet
  | call
  | tailCall
  | ret
  | forLoop
  | forPrep
  | tForLoop
  | setList
  | close
  | closure
  | varArg
deriving DecidableEq, Repr

namespace Opcode

def all : List Opcode :=
  [move, loadK, loadBool, loadNil, getUpval, getGlobal, getTable, setGlobal, setUpval,
    setTable, newTable, selfOp, add, sub, mul, div, mod, pow, unm, not, len, concat, jmp, eq,
    lt, le, test, testSet, call, tailCall, ret, forLoop, forPrep, tForLoop, setList, close,
    closure, varArg]

def ofNat? (n : Nat) : Option Opcode := all[n]?

def toNat : Opcode → Nat
  | move => 0
  | loadK => 1
  | loadBool => 2
  | loadNil => 3
  | getUpval => 4
  | getGlobal => 5
  | getTable => 6
  | setGlobal => 7
  | setUpval => 8
  | setTable => 9
  | newTable => 10
  | selfOp => 11
  | add => 12
  | sub => 13
  | mul => 14
  | div => 15
  | mod => 16
  | pow => 17
  | unm => 18
  | not => 19
  | len => 20
  | concat => 21
  | jmp => 22
  | eq => 23
  | lt => 24
  | le => 25
  | test => 26
  | testSet => 27
  | call => 28
  | tailCall => 29
  | ret => 30
  | forLoop => 31
  | forPrep => 32
  | tForLoop => 33
  | setList => 34
  | close => 35
  | closure => 36
  | varArg => 37

theorem ofNat?_eq_some_iff {n : Nat} {op : Opcode} : ofNat? n = some op ↔ op.toNat = n := by
  constructor
  · intro h
    have hn : n < 38 := (List.getElem?_eq_some_iff.mp h).1
    revert op
    revert n
    decide
  · rintro rfl
    cases op <;> rfl

theorem toNat_lt (op : Opcode) : op.toNat < 64 := by cases op <;> decide

def name : Opcode → String
  | move => "Move"
  | loadK => "LoadK"
  | loadBool => "LoadBool"
  | loadNil => "LoadNil"
  | getUpval => "GetUpval"
  | getGlobal => "GetGlobal"
  | getTable => "GetTable"
  | setGlobal => "SetGlobal"
  | setUpval => "SetUpval"
  | setTable => "SetTable"
  | newTable => "NewTable"
  | selfOp => "SelfOp"
  | add => "Add"
  | sub => "Sub"
  | mul => "Mul"
  | div => "Div"
  | mod => "Mod"
  | pow => "Pow"
  | unm => "Unm"
  | not => "Not"
  | len => "Len"
  | concat => "Concat"
  | jmp => "Jmp"
  | eq => "Eq"
  | lt => "Lt"
  | le => "Le"
  | test => "Test"
  | testSet => "TestSet"
  | call => "Call"
  | tailCall => "TailCall"
  | ret => "Return"
  | forLoop => "ForLoop"
  | forPrep => "ForPrep"
  | tForLoop => "TForLoop"
  | setList => "SetList"
  | close => "Close"
  | closure => "Closure"
  | varArg => "VarArg"

end Opcode

abbrev Word := UInt32

namespace Word

variable (w : Word)

def opcodeNumber : Nat := w.toNat % 64

def opcode? : Option Opcode := Opcode.ofNat? (opcodeNumber w)

def a : Nat := w.toNat / 64 % 256

def c : Nat := w.toNat / 16384 % 512

def b : Nat := w.toNat / 8388608

def bx : Nat := w.toNat / 16384

/-- The opcode is in the lowest six bits, operand A in the next eight, and above them stand C and B,
of nine bits each. Every operand is cut to its width. -/
def abc (op : Opcode) (a b c : Nat) : Word :=
  UInt32.ofNat (op.toNat + 64 * (a % 256) + 16384 * (c % 512) + 8388608 * (b % 512))

/-- One operand of 18 bits in the place of B and C. -/
def abx (op : Opcode) (a bx : Nat) : Word :=
  UInt32.ofNat (op.toNat + 64 * (a % 256) + 16384 * (bx % 262144))

end Word

/-- From here on an operand B or C names a constant, below it a register. -/
def constantBase : Nat := 256

/-- The largest index of a constant that B or C can name. -/
def maxOperandConstant : Nat := 255

def maxBx : Nat := 262143

end PropertyFile.Bytecode
