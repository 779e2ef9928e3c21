import PropertyFile.Number.Binary

namespace PropertyFile.Number

structure Decimal where
  digits : Nat
  exponent : Int
deriving DecidableEq, Repr

inductive Tie where
  | up
  | even
deriving DecidableEq, Repr

/-- The reals between `low * unit` and `high * unit` are those that round to `mid * unit`, where
`unit = num / den`; the ends belong to them if `closed`. -/
structure Interval where
  low : Nat
  mid : Nat
  high : Nat
  num : Nat
  den : Nat
  closed : Bool

namespace Interval

variable (i : Interval)

def contains (c : Nat) : Bool :=
  if i.closed then i.low * i.num ≤ c * i.den && c * i.den ≤ i.high * i.num
  else i.low * i.num < c * i.den && c * i.den < i.high * i.num

def onGrid (g : Int) : Interval :=
  { i with num := i.num * Nat.pow 10 (-g).toNat, den := i.den * Nat.pow 10 g.toNat }

/-- The integer of the interval nearest to its middle, if it holds one of the middle's two integer
neighbours. -/
def nearest? (tie : Tie) : Option Nat :=
  let c := i.mid * i.num / i.den
  let r := i.mid * i.num % i.den
  match i.contains c, i.contains (c + 1) with
  | false, false => none
  | true, false => some c
  | false, true => some (c + 1)
  | true, true =>
    if 2 * r < i.den then some c
    else if i.den < 2 * r then some (c + 1)
    else match tie with
      | .up => some (c + 1)
      | .even => some (c + c % 2)

/-- Tries ever finer grids; the first one with a point in the interval wins. -/
def search (tie : Tie) : Nat → Int → Option Decimal
  | 0, _ => none
  | fuel + 1, g =>
    match (i.onGrid g).nearest? tie with
    | some c => some ⟨c, g⟩
    | none => search tie fuel (g - 1)

end Interval

namespace Format

variable (f : Format)

/-- The reals that round to `mantissa * 2 ^ exponent`, in quarters of the last place. The gap
below a power of two is half the gap above it, except at the smallest exponent. -/
def rounding (mantissa : Nat) (exponent : Int) : Interval :=
  let gap := if mantissa = f.fractions ∧ f.minExponent < exponent then 1 else 2
  let (num, den) := scaleBy 1 1 (exponent - 2)
  ⟨4 * mantissa - gap, 4 * mantissa, 4 * mantissa + 2, num, den, mantissa % 2 == 0⟩

def exactDecimal (mantissa : Nat) (exponent : Int) : Decimal :=
  if 0 ≤ exponent then ⟨mantissa * Nat.pow 2 exponent.toNat, 0⟩
  else ⟨mantissa * Nat.pow 5 (-exponent).toNat, exponent⟩

def coarsest (mantissa : Nat) (exponent : Int) : Int :=
  (mantissa.log2 + 1 + exponent) * 30103 / 100000 + 1

/-- The decimal of fewest digits that rounds to `mantissa * 2 ^ exponent`, and of those the nearest.
Eighteen digits are enough for every number of 53 bits. -/
def shortest (tie : Tie) (mantissa : Nat) (exponent : Int) : Decimal :=
  if mantissa = 0 then ⟨0, 0⟩
  else ((f.rounding mantissa exponent).search tie 21 (coarsest mantissa exponent)).getD
    (exactDecimal mantissa exponent)

end Format

def digitChars (n : Nat) : List Char := Nat.toDigits 10 n

namespace Decimal

/-- The digits before and after the point; neither side is padded with needless zeros. -/
def pointed (d : Decimal) : List Char × List Char :=
  let ds := digitChars d.digits
  if 0 ≤ d.exponent then (ds ++ List.replicate d.exponent.toNat '0', [])
  else
    let k := (-d.exponent).toNat
    if k < ds.length then (ds.take (ds.length - k), ds.drop (ds.length - k))
    else (['0'], List.replicate (k - ds.length) '0' ++ ds)

def positional (d : Decimal) : List Char :=
  match d.pointed with
  | (whole, []) => whole
  | (whole, part) => whole ++ '.' :: part

end Decimal

def signed (negative : Bool) (text : List Char) : List Char :=
  if negative then '-' :: text else text

/-- The text of a number: positional, as short as reading back allows, of two equally near forms
the larger. -/
def Format.render (f : Format) : Datum → List Char
  | .nan => ['N', 'a', 'N']
  | .infinite negative => signed negative ['i', 'n', 'f']
  | .finite negative m e => signed negative (f.shortest .up m e).positional

def Single.text (x : Single) : String := .ofList (Format.single.render x.datum)

def Double.text (x : Double) : String := .ofList (Format.double.render x.datum)

def digitValue (c : Char) : Nat := c.toNat - '0'.toNat

def isDigit (c : Char) : Bool := '0' ≤ c && c ≤ '9'

def ofDigits (ds : List Char) : Nat := ds.foldl (fun n c ↦ 10 * n + digitValue c) 0

def splitSign : List Char → Bool × List Char
  | '-' :: s => (true, s)
  | '+' :: s => (false, s)
  | s => (false, s)

def readInt? (s : List Char) : Option Int :=
  let (negative, ds) := splitSign s
  if ds ≠ [] ∧ ds.all isDigit then some (if negative then -(ofDigits ds : Int) else ofDigits ds)
  else none

def readWithin? (low high : Int) (s : List Char) : Option Int :=
  (readInt? s).bind fun n ↦ if low ≤ n ∧ n ≤ high then some n else none

def readNat? (s : List Char) : Option Nat :=
  let ds := match s with
    | '+' :: r => r
    | r => r
  if ds ≠ [] ∧ ds.all isDigit then some (ofDigits ds) else none

/-- The exponent that a run of digits spells. Once it is large enough to be out of every
range, further digits do not count. -/
def exponentOf (ds : List Char) : Nat :=
  ds.foldl (fun n c ↦ if n < 65536 then 10 * n + digitValue c else n) 0

def readExponent? : List Char → Option Int
  | [] => some 0
  | c :: s =>
    let (negative, ds) := splitSign s
    if (c = 'e' ∨ c = 'E') ∧ ds ≠ [] ∧ ds.all isDigit then
      some (if negative then -(exponentOf ds : Int) else exponentOf ds)
    else none

/-- An unsigned decimal: digits with at most one point, at least one digit, and an exponent. -/
def readDecimal? (s : List Char) : Option Decimal :=
  let whole := s.takeWhile isDigit
  let rest := s.dropWhile isDigit
  let (part, rest) := match rest with
    | '.' :: r => (r.takeWhile isDigit, r.dropWhile isDigit)
    | r => ([], r)
  if whole = [] ∧ part = [] then none
  else (readExponent? rest).map fun e ↦ ⟨ofDigits (whole ++ part), e - part.length⟩

def asciiLower (c : Char) : Char := if 'A' ≤ c ∧ c ≤ 'Z' then Char.ofNat (c.toNat + 32) else c

/-- The pattern of the number that a text spells: a decimal, or one of the words `inf`, `infinity`
and `nan` in any case, after an optional sign. -/
def Format.read? (f : Format) (s : List Char) : Option Nat :=
  let (negative, s) := splitSign s
  match readDecimal? s with
  | some d => some (f.ofDecimal negative d.digits d.exponent)
  | none =>
    let word := String.ofList (s.map asciiLower)
    if word = "inf" ∨ word = "infinity" then some (f.withSign negative f.infinity)
    else if word = "nan" then some (f.withSign negative f.quietNaN)
    else none

def Single.read? (s : List Char) : Option Single := (Format.single.read? s).map Single.ofNatBits

end PropertyFile.Number
