namespace PropertyFile.Number

/-- The widths of a binary interchange format. A sign bit stands above both fields. -/
structure Format where
  fractionBits : Nat
  exponentBits : Nat
deriving DecidableEq, Repr

/-- What a bit pattern stands for; a finite value is `mantissa * 2 ^ exponent`. -/
inductive Datum where
  | nan
  | infinite (negative : Bool)
  | finite (negative : Bool) (mantissa : Nat) (exponent : Int)
deriving DecidableEq, Repr

/-- The nearest integer to `num / den`; a half goes to the even neighbour. -/
def roundHalfEven (num den : Nat) : Nat :=
  let q := num / den
  let r := num % den
  if 2 * r < den then q else if den < 2 * r then q + 1 else q + q % 2

def scaleBy (num den : Nat) (shift : Int) : Nat × Nat :=
  (num * Nat.pow 2 shift.toNat, den * Nat.pow 2 (-shift).toNat)

namespace Format

def single : Format := ⟨23, 8⟩

def double : Format := ⟨52, 11⟩

variable (f : Format)

def fractions : Nat := Nat.pow 2 f.fractionBits

def bias : Nat := Nat.pow 2 (f.exponentBits - 1) - 1

def minExponent : Int := 1 - f.bias - f.fractionBits

def signBit : Nat := Nat.pow 2 (f.fractionBits + f.exponentBits)

/-- The pattern of positive infinity; every pattern below it is a finite magnitude. -/
def infinity : Nat := (Nat.pow 2 f.exponentBits - 1) * f.fractions

/-- The one quiet pattern used where a NaN is made. -/
def quietNaN : Nat := f.infinity + f.fractions / 2

def withSign (negative : Bool) (magnitude : Nat) : Nat :=
  if negative then f.signBit + magnitude else magnitude

def decode (bits : Nat) : Datum :=
  let negative := f.signBit ≤ bits
  let magnitude := bits % f.signBit
  let field := magnitude / f.fractions
  let fraction := magnitude % f.fractions
  if f.infinity < magnitude then .nan
  else if magnitude = f.infinity then .infinite negative
  else if field = 0 then .finite negative fraction f.minExponent
  else .finite negative (f.fractions + fraction) (f.minExponent + (field - 1 : Nat))

def placeOf (num den : Nat) : Int :=
  let k : Int := (num.log2 : Int) - den.log2
  let below := num * Nat.pow 2 (-k).toNat < den * Nat.pow 2 k.toNat
  max f.minExponent (k - f.fractionBits - if below then 1 else 0)

/-- The magnitude nearest to `num / den`. A mantissa that rounds up to the next power of two
carries into the exponent field, and a result past the largest finite one is infinity. -/
def magnitude (num den : Nat) : Nat :=
  if num = 0 then 0
  else
    let place := f.placeOf num den
    let (n, d) := scaleBy num den (-place)
    min f.infinity ((place - f.minExponent).toNat * f.fractions + roundHalfEven n d)

def ofRatio (negative : Bool) (num den : Nat) : Nat :=
  f.withSign negative (f.magnitude num den)

def ofScaled (negative : Bool) (mantissa : Nat) (exponent : Int) : Nat :=
  let (n, d) := scaleBy mantissa 1 exponent
  f.ofRatio negative n d

def ofInt (n : Int) : Nat :=
  f.ofRatio (n < 0) n.natAbs 1

def ofDatum : Datum → Nat
  | .nan => f.quietNaN
  | .infinite negative => f.withSign negative f.infinity
  | .finite negative m e => f.ofScaled negative m e

def product (a b : Nat) : Nat :=
  match f.decode a, f.decode b with
  | .finite s m e, .finite t n e' => f.ofScaled (s != t) (m * n) (e + e')
  | .infinite s, .infinite t => f.withSign (s != t) f.infinity
  | .infinite s, .finite t n _ | .finite t n _, .infinite s =>
    if n = 0 then f.quietNaN else f.withSign (s != t) f.infinity
  | _, _ => f.quietNaN

def quotient (a b : Nat) : Nat :=
  match f.decode a, f.decode b with
  | .finite s m e, .finite t n e' =>
    if n = 0 then if m = 0 then f.quietNaN else f.withSign (s != t) f.infinity
    else
      let (num, den) := scaleBy m n (e - e')
      f.ofRatio (s != t) num den
  | .infinite s, .finite t _ _ => f.withSign (s != t) f.infinity
  | .finite s _ _, .infinite t => f.withSign (s != t) 0
  | _, _ => f.quietNaN

/-- The pattern nearest to `± digits * 10 ^ exponent`. The first two cases are decimals beyond
either end of the range; they keep the powers of ten small. -/
def ofDecimal (negative : Bool) (digits : Nat) (exponent : Int) : Nat :=
  let bound : Int := f.bias + f.fractionBits + 2
  let size : Int := digits.log2
  if digits = 0 then f.withSign negative 0
  else if 0 ≤ exponent then
    if bound < size + 3 * exponent then f.withSign negative f.infinity
    else f.ofRatio negative (digits * Nat.pow 10 exponent.toNat) 1
  else if size + 3 * exponent < -bound then f.withSign negative 0
  else f.ofRatio negative digits (Nat.pow 10 (-exponent).toNat)

end Format

structure Single where
  bits : UInt32
deriving DecidableEq, Inhabited, Repr

structure Double where
  bits : UInt64
deriving DecidableEq, Inhabited, Repr

namespace Single

def ofNatBits (n : Nat) : Single := ⟨n.toUInt32⟩

def datum (x : Single) : Datum := Format.single.decode x.bits.toNat

def ofDatum (d : Datum) : Single := ofNatBits (Format.single.ofDatum d)

def ofInt (n : Int) : Single := ofNatBits (Format.single.ofInt n)

def product (x y : Single) : Single :=
  ofNatBits (Format.single.product x.bits.toNat y.bits.toNat)

end Single

namespace Double

def ofNatBits (n : Nat) : Double := ⟨n.toUInt64⟩

def datum (x : Double) : Datum := Format.double.decode x.bits.toNat

def ofDatum (d : Datum) : Double := ofNatBits (Format.double.ofDatum d)

def ofInt (n : Int) : Double := ofNatBits (Format.double.ofInt n)

def product (x y : Double) : Double :=
  ofNatBits (Format.double.product x.bits.toNat y.bits.toNat)

def quotient (x y : Double) : Double :=
  ofNatBits (Format.double.quotient x.bits.toNat y.bits.toNat)

def negate (x : Double) : Double := ofNatBits (x.bits.toNat ^^^ Format.double.signBit)

def isInfinite (x : Double) : Bool :=
  x.bits.toNat % Format.double.signBit == Format.double.infinity

def isNaN (x : Double) : Bool := x.datum == .nan

def zero : Double := ⟨0⟩

def isZero (x : Double) : Bool := x.bits.toNat % Format.double.signBit == 0

def toInt? (x : Double) : Option Int :=
  match x.datum with
  | .finite negative m e =>
    let (n, d) := scaleBy m 1 e
    if n % d = 0 then some (if negative then -(n / d : Nat) else (n / d : Nat)) else none
  | _ => none

/-- The place of `x` in the order that runs from the negative NaNs through the negative numbers,
`-0`, `0` and the positive numbers to the positive NaNs. -/
def rank (x : Double) : Nat :=
  let b := x.bits.toNat
  if b < Format.double.signBit then b + Format.double.signBit else 2 * Format.double.signBit - 1 - b

theorem rank_injective {x y : Double} (h : x.rank = y.rank) : x = y := by
  obtain ⟨x⟩ := x
  obtain ⟨y⟩ := y
  have hx := x.toNat_lt
  have hy := y.toNat_lt
  have hs : Format.double.signBit = 9223372036854775808 := by decide
  simp only [rank, hs] at h
  refine congrArg Double.mk (UInt64.toNat_inj.mp ?_)
  split at h <;> split at h <;> omega

end Double

/-- Widening is exact. Which NaN is made of a NaN is left open, where hardware keeps its sign and
payload; here it is always the quiet one. -/
def Single.widen (x : Single) : Double := .ofDatum x.datum

/-- The nearest single; a NaN becomes the quiet one, as in `Single.widen`. -/
def Double.narrow (x : Double) : Single := .ofDatum x.datum

end PropertyFile.Number
