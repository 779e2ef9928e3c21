namespace PropertyFile

/-- The number that bytes spell, the least significant one first. -/
def leNat (bytes : List UInt8) : Nat := bytes.foldr (fun b n ↦ b.toNat + 256 * n) 0

def leBytes : Nat → Nat → List UInt8
  | 0, _ => []
  | width + 1, n => UInt8.ofNat n :: leBytes width (n / 256)

theorem length_leBytes (width n : Nat) : (leBytes width n).length = width := by
  induction width generalizing n with
  | zero => rfl
  | succ w ih => simp [leBytes, ih]

theorem leNat_leBytes (width n : Nat) : leNat (leBytes width n) = n % Nat.pow 256 width := by
  induction width generalizing n with
  | zero => exact (Nat.mod_one n).symm
  | succ w ih =>
    have h := ih (n / 256)
    simp only [leNat, Nat.pow_eq] at h
    simp only [leBytes, leNat, List.foldr_cons, h, UInt8.toNat_ofNat', Nat.reducePow, Nat.pow_eq,
      Nat.pow_succ, Nat.mul_comm (256 ^ w) 256]
    exact Nat.mod_mul.symm

abbrev Reader (ε : Type) := StateT (List UInt8) (Except ε)

namespace Reader

variable {α ε : Type}

/-- Repeats a reader, with what was read so far in reverse. -/
def timesFrom (p : Reader ε α) : Nat → List α → Reader ε (List α)
  | 0, done => fun s ↦ .ok (done.reverse, s)
  | n + 1, done => fun s ↦
    match p s with
    | .ok (a, rest) => timesFrom p n (a :: done) rest
    | .error e => .error e

def times (n : Nat) (p : Reader ε α) : Reader ε (List α) := timesFrom p n []

end Reader

inductive OutOfBytes where
  | outOfBytes
deriving DecidableEq, Repr

abbrev Scan := Reader OutOfBytes

namespace Scan

variable {α ε : Type}

def take (n : Nat) : Scan (List UInt8) := fun s ↦
  let front := s.take n
  if front.length = n then .ok (front, s.drop n) else .error .outOfBytes

def byte : Scan UInt8
  | b :: s => .ok (b, s)
  | [] => .error .outOfBytes

def nat (width : Nat) : Scan Nat := leNat <$> take width

def word16 : Scan UInt16 := UInt16.ofNat <$> nat 2

def word32 : Scan UInt32 := UInt32.ofNat <$> nat 4

def orFail (p : Scan α) (e : ε) : Reader ε α := fun s ↦
  match p s with
  | .ok r => .ok r
  | .error _ => .error e

end Scan

end PropertyFile
