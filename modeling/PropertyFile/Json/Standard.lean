import PropertyFile.Json.Parse
import PropertyFile.Json.Print

namespace PropertyFile

open Number

/-- The number that a numeral spells. An integer stays exact as long as it fits into 64 bits; any
other numeral is a double, made from its first digits and scaled by powers of ten, which can miss
the nearest one in the last place. -/
inductive Amount where
  | integer (n : Int)
  | real (x : Double)
deriving DecidableEq, Repr

namespace Numeral

def maxGathered : Nat := UInt64.size - 1

def maxExponent : Int := Int32.maxValue.toInt

/-- Adds digits to a number while it has room; the rest of them is left. -/
def gather (n : Nat) : List Char → Nat × List Char
  | [] => (n, [])
  | c :: ds =>
    if maxGathered < 10 * n + digitValue c then (n, c :: ds)
    else gather (10 * n + digitValue c) ds

def maxPower : Nat := 308

def powerOfTen (k : Nat) : Double := .ofInt (Nat.pow 10 k)

/-- Scales a number by a power of ten, in more than one step where that is too small to be a
double. None if the result is too large. -/
def scale? (x : Double) (e : Int) : Option Double :=
  if 0 ≤ e then
    if e ≤ maxPower then
      let y := x.product (powerOfTen e.toNat)
      if y.isInfinite then none else some y
    else if x.isZero then some x
    else none
  else if -maxPower ≤ e then some (x.quotient (powerOfTen (-e).toNat))
  else if x.isZero then some x
  else scale? (x.quotient (powerOfTen maxPower)) (e + maxPower)
termination_by (-e).toNat
decreasing_by simp only [maxPower]; omega

def real? (negative : Bool) (digits : Nat) (e : Int) : Option Double :=
  (scale? (.ofInt digits) e).map fun x ↦ if negative then x.negate else x

/-- The integer that the digits spell, if 64 bits hold it. Minus zero is no integer. -/
def integer? (negative : Bool) (digits : Nat) : Option Int :=
  if negative then
    if 0 < digits ∧ Int64.minValue.toInt ≤ -(digits : Int) then some (-digits) else none
  else some digits

def exponent? : Option (Bool × List Char) → Option Int
  | none => some 0
  | some (negative, ds) =>
    let e := ofDigits ds
    if e ≤ maxExponent then some (if negative then -(e : Int) else e) else none

/-- The number of a numeral that is no integer. With an exponent too large to count, it is zero if
that exponent is negative or the digits are. -/
def realAmount? (n : Numeral) : Option Double :=
  let (digits, dropped) := gather 0 n.whole
  let part := n.part.getD []
  let (digits, left) := gather digits part
  let place : Int := dropped.length + left.length - part.length
  match exponent? n.exponent with
  | some e => real? n.negative digits (place + e)
  | none =>
    if digits = 0 ∨ n.exponent.any (·.1) then real? n.negative 0 0 else none

def amount? (n : Numeral) : Option Amount :=
  match n.part, n.exponent, gather 0 n.whole with
  | none, none, (digits, []) =>
    match integer? n.negative digits with
    | some i => some (.integer i)
    | none => (realAmount? n).map .real
  | _, _, _ => (realAmount? n).map .real

end Numeral

namespace Json

def integer? : Json → Option Int
  | number n =>
    match n.amount? with
    | some (.integer i) => some i
    | _ => none
  | _ => none

def single? : Json → Option Single
  | number n => n.amount?.map fun
    | .integer i => .ofInt i
    | .real x => x.narrow
  | _ => none

/-- The library that the program runs with. -/
def standard : Library where
  ofInt n := number (.ofInt n)
  ofSingle := ofSingle
  integer? := integer?
  single? := single?
  print pretty j := write pretty 0 "" j
  parse? := parse?
  depth := 127

end Json

end PropertyFile
