import Std.Data.ExtTreeMap
import PropertyFile.Bytecode.Chunk

namespace PropertyFile.Machine

open Number Bytecode

inductive Cell where
  | nil
  | bool (b : Bool)
  | number (x : Double)
  | string (text : String)
  | table (id : Nat)
  | function (chunk : Chunk)
deriving Inhabited, Repr

def Cell.ofConstant : Constant → Cell
  | .nil => nil
  | .bool b => bool b
  | .number x => number x
  | .string s => string s

def Cell.isNil : Cell → Bool
  | nil => true
  | _ => false

inductive CellKey where
  | number (x : Double)
  | bool (b : Bool)
  | string (text : String)
deriving DecidableEq, Inhabited, Repr

namespace CellKey

def order : CellKey → CellKey → Ordering
  | number x, number y => compare x.rank y.rank
  | number _, _ => .lt
  | bool _, number _ => .gt
  | bool a, bool b => compare a b
  | bool _, string _ => .lt
  | string s, string t => compare s t
  | string _, _ => .gt

/-- The key that a cell is, if it is one. Both zeros are one key; NaN is none, nor is nil, a table
or a function. -/
def ofCell? : Cell → Option CellKey
  | .number x => if x.isNaN then none else some (number (if x.isZero then .zero else x))
  | .bool b => some (bool b)
  | .string s => some (string s)
  | _ => none

instance : Std.OrientedCmp order where
  eq_swap {a b} := by
    cases a <;> cases b <;> simp only [order, Ordering.swap] <;> exact Std.OrientedCmp.eq_swap

instance : Std.TransCmp order where
  isLE_trans {a b c} := by
    cases a <;> cases b <;> cases c <;> simp [order] <;> exact Std.TransOrd.isLE_trans

instance : Std.LawfulEqCmp order where
  eq_of_compare {a b} h := by
    cases a <;> cases b <;> simp only [order, reduceCtorEq] at h
    · rw [Double.rank_injective (Std.LawfulEqCmp.eq_of_compare h)]
    · rw [Std.LawfulEqCmp.eq_of_compare h]
    · rw [Std.LawfulEqCmp.eq_of_compare h]

end CellKey

/-- A table's entries, none of which holds nil. Tables are in a heap, and a cell names one by its
number there, so two cells can share it. -/
abbrev Table := Std.ExtTreeMap CellKey Cell CellKey.order

/-- Assigning nil removes the key. -/
def Table.assign (t : Table) (key : CellKey) (v : Cell) : Table :=
  if v.isNil then t.erase key else t.insert key v

end PropertyFile.Machine
