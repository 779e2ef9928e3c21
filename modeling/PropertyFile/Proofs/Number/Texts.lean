import Mathlib.Algebra.Order.Field.Power
import Mathlib.Algebra.Order.Ring.Rat
import Mathlib.Data.List.TakeWhile
import Mathlib.Tactic.LinearCombination
import Mathlib.Tactic.Positivity
import Mathlib.Tactic.Ring
import PropertyFile.Proofs.Number.Shortest

namespace PropertyFile.Number

theorem zpow_mul_pow_toNat {b : ℚ} (hb : b ≠ 0) (k : Int) :
    b ^ k * b ^ (-k).toNat = b ^ k.toNat := by
  rw [← zpow_natCast, ← zpow_natCast, ← zpow_add₀ hb]
  congr 1
  omega

def Decimal.value (d : Decimal) : ℚ := d.digits * 10 ^ d.exponent

namespace Format

variable (f : Format) {m m' : Nat} {e e' : Int}

theorem gap_le (m : Nat) (e : Int) : f.gap m e ≤ 2 := by
  have h := f.gap_cases m e
  omega

/-- A number between the ends of an interval, and none of them unless they belong to it. -/
structure Within (m : Nat) (e : Int) (v : ℚ) : Prop where
  low : ((4 * m - f.gap m e : Nat) : ℚ) * 2 ^ (e - 2) ≤ v
  high : v ≤ ((4 * m + 2 : Nat) : ℚ) * 2 ^ (e - 2)
  closed : (v = ((4 * m - f.gap m e : Nat) : ℚ) * 2 ^ (e - 2) ∨
    v = ((4 * m + 2 : Nat) : ℚ) * 2 ^ (e - 2)) → m % 2 = 0

theorem within_of_contains {c : Nat} {g : Int}
    (h : ((f.rounding m e).onGrid g).contains c = true) :
    f.Within m e (Decimal.value ⟨c, g⟩) := by
  have hnum : ((2 ^ (e - 2).toNat * 10 ^ (-g).toNat : Nat) : ℚ) * 10 ^ g =
      2 ^ (e - 2) * ((2 ^ (2 - e).toNat * 10 ^ g.toNat : Nat) : ℚ) := by
    have htwo := zpow_mul_pow_toNat (b := 2) two_ne_zero (e - 2)
    have hten := zpow_mul_pow_toNat (b := 10) (by norm_num) g
    rw [Int.neg_sub] at htwo
    push_cast
    rw [← htwo, ← hten]
    ring
  have hden : (0 : ℚ) < ((2 ^ (2 - e).toNat * 10 ^ g.toNat : Nat) : ℚ) := by positivity
  have hten : (0 : ℚ) < 10 ^ g := by positivity
  -- Both sides of a comparison, times the grid and divided by the denominator.
  have hmove : ∀ a : Nat, (a : ℚ) * 2 ^ (e - 2) * ((2 ^ (2 - e).toNat * 10 ^ g.toNat : Nat) : ℚ) =
      ((a * (2 ^ (e - 2).toNat * 10 ^ (-g).toNat) : Nat) : ℚ) * 10 ^ g := by
    intro a
    rw [mul_assoc, ← hnum, Nat.cast_mul a]
    ring
  have hvalue : Decimal.value ⟨c, g⟩ * ((2 ^ (2 - e).toNat * 10 ^ g.toNat : Nat) : ℚ) =
      ((c * (2 ^ (2 - e).toNat * 10 ^ g.toNat) : Nat) : ℚ) * 10 ^ g := by
    rw [Decimal.value, Nat.cast_mul c]
    ring
  have hle : ∀ a : Nat, a * (2 ^ (e - 2).toNat * 10 ^ (-g).toNat) ≤
      c * (2 ^ (2 - e).toNat * 10 ^ g.toNat) ↔ (a : ℚ) * 2 ^ (e - 2) ≤ Decimal.value ⟨c, g⟩ := by
    intro a
    rw [← mul_le_mul_iff_of_pos_right hden, hmove, hvalue, mul_le_mul_iff_of_pos_right hten,
      Nat.cast_le]
  have hge : ∀ a : Nat, c * (2 ^ (2 - e).toNat * 10 ^ g.toNat) ≤
      a * (2 ^ (e - 2).toNat * 10 ^ (-g).toNat) ↔ Decimal.value ⟨c, g⟩ ≤ (a : ℚ) * 2 ^ (e - 2) := by
    intro a
    rw [← mul_le_mul_iff_of_pos_right hden, hmove, hvalue, mul_le_mul_iff_of_pos_right hten,
      Nat.cast_le]
  rw [rounding_eq, Interval.onGrid, Interval.contains] at h
  dsimp only at h
  rw [Nat.pow_eq, Nat.pow_eq] at h
  split at h
  · next heven =>
    simp only [Bool.and_eq_true, decide_eq_true_eq] at h
    exact ⟨(hle _).mp h.1, (hge _).mp h.2, fun _ ↦ beq_iff_eq.mp heven⟩
  · simp only [Bool.and_eq_true, decide_eq_true_eq, ← Nat.not_le] at h
    rw [hge, hle] at h
    refine ⟨le_of_not_ge h.1, le_of_not_ge h.2, ?_⟩
    rintro (heq | heq)
    · exact (h.1 heq.le).elim
    · exact (h.2 heq.ge).elim

theorem within_middle (hm : m ≠ 0) (v : ℚ) (hv : v = m * 2 ^ e) : f.Within m e v := by
  have hunit : (0 : ℚ) < 2 ^ (e - 2) := by positivity
  have hmid : v = ((4 * m : Nat) : ℚ) * 2 ^ (e - 2) := by
    have hpow : (2 : ℚ) ^ e = 2 ^ 2 * 2 ^ (e - 2) := by
      rw [← zpow_natCast, ← zpow_add₀ two_ne_zero]
      congr 1
      omega
    rw [hv, hpow]
    push_cast
    ring
  have hgap := f.gap_cases m e
  have hlow : ((4 * m - f.gap m e : Nat) : ℚ) * 2 ^ (e - 2) < v := by
    rw [hmid]
    exact mul_lt_mul_of_pos_right (Nat.cast_lt.mpr (by omega)) hunit
  have hhigh : v < ((4 * m + 2 : Nat) : ℚ) * 2 ^ (e - 2) := by
    rw [hmid]
    exact mul_lt_mul_of_pos_right (Nat.cast_lt.mpr (by omega)) hunit
  refine ⟨hlow.le, hhigh.le, ?_⟩
  rintro (heq | heq)
  · exact (hlow.ne' heq).elim
  · exact (hhigh.ne heq).elim

theorem Within.pos (hm : m ≠ 0) {v : ℚ} (h : f.Within m e v) : 0 < v := by
  have hgap := f.gap_le m e
  refine lt_of_lt_of_le ?_ h.low
  have hpos : (0 : ℚ) < ((4 * m - f.gap m e : Nat) : ℚ) := Nat.cast_pos.mpr (by omega)
  positivity

/-- The end of one interval is not past the start of a later one; where they meet, one of the two
mantissas is odd. -/
theorem ends_meet (h : f.Canonical m e) (h' : f.Canonical m' e')
    (hlt : e < e' ∨ e = e' ∧ m < m') :
    ((4 * m + 2 : Nat) : ℚ) * 2 ^ (e - 2) ≤ ((4 * m' - f.gap m' e' : Nat) : ℚ) * 2 ^ (e' - 2) ∧
      (((4 * m + 2 : Nat) : ℚ) * 2 ^ (e - 2) = ((4 * m' - f.gap m' e' : Nat) : ℚ) * 2 ^ (e' - 2) →
        m % 2 = 1 ∨ m' % 2 = 1) := by
  have hm := h.mantissa_lt
  have hge := h.exponent_ge
  obtain ⟨k, rfl⟩ : ∃ k : Nat, e' = e + k := ⟨(e' - e).toNat, by omega⟩
  have hunit : (0 : ℚ) < 2 ^ (e - 2) := by positivity
  have hmove : ((4 * m' - f.gap m' (e + k) : Nat) : ℚ) * 2 ^ (e + k - 2) =
      (((4 * m' - f.gap m' (e + k)) * 2 ^ k : Nat) : ℚ) * 2 ^ (e - 2) := by
    rw [add_sub_right_comm, zpow_add₀ two_ne_zero, zpow_natCast]
    push_cast
    ring
  rw [hmove, mul_le_mul_iff_of_pos_right hunit, mul_left_inj' hunit.ne', Nat.cast_le, Nat.cast_inj]
  rcases hlt with hlt | ⟨heq, hlt⟩
  · have hpow : 2 * 2 ^ (k - 1) = 2 ^ k := by
      rw [Nat.mul_comm, ← Nat.pow_succ]
      congr 1
      omega
    have hone := Nat.two_pow_pos (k - 1)
    have hmin : e + k ≠ f.minExponent := by omega
    have hnormal := h'.normal.resolve_left hmin
    have hstart : 4 * f.fractions - 1 ≤ 4 * m' - f.gap m' (e + k) := by
      by_cases hfirst : m' = f.fractions
      · rw [gap, if_pos ⟨hfirst, by omega⟩, hfirst]
      · have hgap := f.gap_le m' (e + k)
        omega
    have hscaled := Nat.mul_le_mul hstart (Nat.le_refl (2 ^ k))
    have hdouble : (4 * f.fractions - 1) * 2 ≤ (4 * f.fractions - 1) * 2 ^ k := by
      refine Nat.mul_le_mul_left _ ?_
      omega
    have hpos := f.fractions_pos
    constructor
    · omega
    · intro hmeet
      left
      omega
  · obtain rfl : k = 0 := by omega
    have hgap : f.gap m' (e + (0 : Nat)) = 2 := by
      rcases f.gap_cases m' (e + (0 : Nat)) with hgap | ⟨-, hfirst, hmin⟩
      · exact hgap
      · have hnormal := h.normal.resolve_left (by omega)
        omega
    rw [hgap, Nat.pow_zero, Nat.mul_one]
    exact ⟨by omega, fun hmeet ↦ by omega⟩

theorem Within.not_later {v : ℚ} (h : f.Within m e v) (h' : f.Within m' e' v)
    (hm : f.Canonical m e) (hm' : f.Canonical m' e') : ¬(e < e' ∨ e = e' ∧ m < m') := by
  intro hlt
  obtain ⟨hle, hmeet⟩ := f.ends_meet hm hm' hlt
  have hend := le_antisymm h.high (hle.trans h'.low)
  have hstart := le_antisymm (h.high.trans hle) h'.low
  have heven := h.closed (.inr hend)
  have heven' := h'.closed (.inl hstart)
  have hodd := hmeet (hend.symm.trans hstart)
  omega

/-- No number lies in the intervals of two mantissas and exponents. -/
theorem Within.unique {v : ℚ} (h : f.Within m e v) (h' : f.Within m' e' v)
    (hm : f.Canonical m e) (hm' : f.Canonical m' e') : m = m' ∧ e = e' := by
  have hlater := Within.not_later f h h' hm hm'
  have hearlier := Within.not_later f h' h hm' hm
  omega

end Format

theorem Interval.contains_of_search {i : Interval} {tie : Tie} {fuel : Nat} {g : Int} {d : Decimal}
    (h : i.search tie fuel g = some d) : (i.onGrid d.exponent).contains d.digits = true := by
  induction fuel generalizing g with
  | zero => cases h
  | succ fuel ih =>
    rw [search] at h
    split at h
    · next hc =>
      obtain rfl := Option.some.inj h
      exact contains_of_nearest? hc
    · exact ih h

namespace Format

variable (f : Format) {m : Nat} {e : Int}

theorem value_exactDecimal (m : Nat) (e : Int) : (exactDecimal m e).value = m * 2 ^ e := by
  rw [exactDecimal]
  split
  · next he =>
    have hpow : (2 : ℚ) ^ e = 2 ^ e.toNat := by
      rw [← zpow_natCast]
      congr 1
      omega
    rw [Decimal.value, hpow, Nat.pow_eq, zpow_zero, mul_one]
    push_cast
    rfl
  · next he =>
    have hten : (10 : ℚ) ^ e = 2 ^ e * 5 ^ e := by
      rw [← mul_zpow]
      norm_num
    have hfive : (5 : ℚ) ^ (-e).toNat * 5 ^ e = 1 := by
      rw [← zpow_natCast, ← zpow_add₀ (by norm_num)]
      rw [show ((-e).toNat : Int) + e = 0 by omega, zpow_zero]
    rw [Decimal.value, hten, Nat.pow_eq]
    push_cast
    linear_combination (m : ℚ) * 2 ^ e * hfive

theorem within_shortest (tie : Tie) (hm : m ≠ 0) : f.Within m e (f.shortest tie m e).value := by
  rw [shortest, if_neg hm]
  cases hsearch : (f.rounding m e).search tie 21 (coarsest m e) with
  | none => exact f.within_middle hm _ (value_exactDecimal m e)
  | some d => exact f.within_of_contains (Interval.contains_of_search hsearch)

theorem value_shortest_zero (tie : Tie) (e : Int) : (f.shortest tie 0 e).value = 0 := by
  rw [shortest, if_pos rfl, Decimal.value]
  norm_num

theorem shortest_injective {tie : Tie} {m' : Nat} {e' : Int} (hm : f.Canonical m e)
    (hm' : f.Canonical m' e')
    (h : (f.shortest tie m e).value = (f.shortest tie m' e').value) : m = m' ∧ e = e' := by
  by_cases hzero : m = 0
  · by_cases hzero' : m' = 0
    · have he := hm.normal.resolve_right (by have := f.fractions_pos; omega)
      have he' := hm'.normal.resolve_right (by have := f.fractions_pos; omega)
      exact ⟨hzero.trans hzero'.symm, he.trans he'.symm⟩
    · have hpos := Within.pos f hzero' (f.within_shortest (e := e') tie hzero')
      rw [← h, hzero, value_shortest_zero] at hpos
      exact (lt_irrefl _ hpos).elim
  · by_cases hzero' : m' = 0
    · have hpos := Within.pos f hzero (f.within_shortest (e := e) tie hzero)
      rw [h, hzero', value_shortest_zero] at hpos
      exact (lt_irrefl _ hpos).elim
    · have hin := f.within_shortest (e := e) tie hzero
      rw [h] at hin
      exact Within.unique f hin (f.within_shortest tie hzero') hm hm'

end Format

theorem ofDigits_zeros (k : Nat) (ds : List Char) :
    ofDigits (List.replicate k '0' ++ ds) = ofDigits ds := by
  induction k with
  | zero => rfl
  | succ k ih =>
    rw [List.replicate_succ, List.cons_append]
    exact ih

theorem ofDigits_digitChars (n : Nat) : ofDigits (digitChars n) = n := by
  have h := ofDigits_paddedDigits n 0
  rwa [paddedDigits, List.replicate_zero, List.append_nil, Nat.pow_zero, Nat.mul_one] at h

theorem all_isDigit_digitChars (n : Nat) : ∀ c ∈ digitChars n, isDigit c = true :=
  fun _ ↦ isDigit_of_mem_digitChars

theorem readDecimal?_whole {ds : List Char} (hne : ds ≠ []) (h : ∀ c ∈ ds, isDigit c = true) :
    readDecimal? ds = some ⟨ofDigits ds, 0⟩ := by
  have htake : ds.takeWhile isDigit = ds := List.takeWhile_eq_self_iff.mpr h
  have hdrop : ds.dropWhile isDigit = [] := List.dropWhile_eq_nil_iff.mpr h
  rw [readDecimal?, htake, hdrop]
  simp only [hne, false_and, if_false, readExponent?, Option.map_some, List.append_nil,
    List.length_nil]
  rfl

theorem readDecimal?_pointed {ds part : List Char} (hne : ds ≠ [])
    (h : ∀ c ∈ ds, isDigit c = true) (h' : ∀ c ∈ part, isDigit c = true) :
    readDecimal? (ds ++ '.' :: part) = some ⟨ofDigits (ds ++ part), -part.length⟩ := by
  have htake : (ds ++ '.' :: part).takeWhile isDigit = ds := by
    rw [List.takeWhile_append_of_pos h, List.takeWhile_cons_of_neg (by decide), List.append_nil]
  have hdrop : (ds ++ '.' :: part).dropWhile isDigit = '.' :: part := by
    rw [List.dropWhile_append_of_pos h, List.dropWhile_cons_of_neg (by decide)]
  have htake' : part.takeWhile isDigit = part := List.takeWhile_eq_self_iff.mpr h'
  have hdrop' : part.dropWhile isDigit = [] := List.dropWhile_eq_nil_iff.mpr h'
  rw [readDecimal?, htake, hdrop]
  simp only [htake', hdrop', hne, false_and, if_false, readExponent?, Option.map_some,
    Int.zero_sub]

theorem Decimal.pointed_spec (d : Decimal) : d.pointed.1 ≠ [] ∧
    (∀ c ∈ d.pointed.1, isDigit c = true) ∧ (∀ c ∈ d.pointed.2, isDigit c = true) ∧
      (ofDigits (d.pointed.1 ++ d.pointed.2) : ℚ) * 10 ^ (-(d.pointed.2.length : Int)) =
        d.value := by
  have hdigits := all_isDigit_digitChars d.digits
  have hne : digitChars d.digits ≠ [] := Nat.toDigits_ne_nil
  rw [pointed]
  dsimp only
  split
  · next hg =>
    have hpow : (10 : ℚ) ^ d.exponent = 10 ^ d.exponent.toNat := by
      rw [← zpow_natCast]
      congr 1
      omega
    refine ⟨List.append_ne_nil_of_left_ne_nil hne _,
      List.all_eq_true.mp (all_isDigit_paddedDigits _ _), fun c hc ↦ (List.not_mem_nil hc).elim, ?_⟩
    rw [List.append_nil, value, hpow]
    have hvalue := ofDigits_paddedDigits d.digits d.exponent.toNat
    rw [paddedDigits] at hvalue
    rw [hvalue, List.length_nil, Nat.cast_zero, neg_zero, zpow_zero, mul_one]
    push_cast
    rfl
  · next hg =>
    have hplace : -(((-d.exponent).toNat : Nat) : Int) = d.exponent := by omega
    split
    · next hk =>
      refine ⟨?_, fun c hc ↦ hdigits c (List.mem_of_mem_take hc),
        fun c hc ↦ hdigits c (List.mem_of_mem_drop hc), ?_⟩
      · rw [ne_eq, List.take_eq_nil_iff]
        rintro (hzero | hnil)
        · omega
        · exact hne hnil
      · have hlength : ((digitChars d.digits).drop
            ((digitChars d.digits).length - (-d.exponent).toNat)).length =
              (-d.exponent).toNat := by
          rw [List.length_drop]
          omega
        rw [List.take_append_drop, ofDigits_digitChars, hlength, hplace]
        rfl
    · next hk =>
      have hlength : (List.replicate ((-d.exponent).toNat - (digitChars d.digits).length) '0' ++
          digitChars d.digits).length = (-d.exponent).toNat := by
        rw [List.length_append, List.length_replicate]
        omega
      refine ⟨List.cons_ne_nil _ _, ?_, fun c hc ↦ ?_, ?_⟩
      · rw [List.forall_mem_singleton]
        rfl
      · rcases List.mem_append.mp hc with hc | hc
        · rw [List.eq_of_mem_replicate hc]
          rfl
        · exact hdigits c hc
      · have hspelled : ofDigits ('0' :: (List.replicate
            ((-d.exponent).toNat - (digitChars d.digits).length) '0' ++ digitChars d.digits)) =
              d.digits := by
          have hfirst := ofDigits_zeros 1 (List.replicate
            ((-d.exponent).toNat - (digitChars d.digits).length) '0' ++ digitChars d.digits)
          exact hfirst.trans ((ofDigits_zeros _ _).trans (ofDigits_digitChars _))
        rw [hlength, hplace]
        exact congrArg (fun n : Nat ↦ (n : ℚ) * 10 ^ d.exponent) hspelled

theorem Decimal.positional_cases (d : Decimal) : d.pointed.2 = [] ∧ d.positional = d.pointed.1 ∨
    d.positional = d.pointed.1 ++ '.' :: d.pointed.2 := by
  rw [positional]
  split
  · next h => exact .inl ⟨by rw [h], by rw [h]⟩
  · next h => exact .inr (by rw [h])

/-- Positional notation is read as the decimal that it shows. -/
theorem Decimal.readDecimal?_positional (d : Decimal) :
    ∃ d', readDecimal? d.positional = some d' ∧ d'.value = d.value := by
  obtain ⟨hne, hwhole, hpart, hvalue⟩ := d.pointed_spec
  rcases d.positional_cases with ⟨hnil, h⟩ | h
  · rw [h, ← hvalue, hnil, List.append_nil]
    exact ⟨_, readDecimal?_whole hne hwhole, rfl⟩
  · rw [h, ← hvalue]
    exact ⟨_, readDecimal?_pointed hne hwhole hpart, rfl⟩

theorem Decimal.isDigit_of_head? (d : Decimal) {c : Char} (h : d.positional.head? = some c) :
    isDigit c = true := by
  obtain ⟨hne, hwhole, -, -⟩ := d.pointed_spec
  obtain ⟨c', cs, hc⟩ := List.exists_cons_of_ne_nil hne
  have hhead : d.positional.head? = some c' := by
    rcases d.positional_cases with ⟨-, h⟩ | h <;> rw [h, hc] <;> rfl
  rw [← Option.some.inj (hhead.symm.trans h)]
  exact hwhole c' (hc ▸ List.mem_cons_self)

theorem signed_injective {n n' : Bool} {t t' : List Char} (ht : t.head? ≠ some '-')
    (ht' : t'.head? ≠ some '-') (h : signed n t = signed n' t') : n = n' ∧ t = t' := by
  cases n with
  | false =>
    cases n' with
    | false => exact ⟨rfl, h⟩
    | true =>
      obtain rfl : t = '-' :: t' := h
      exact (ht rfl).elim
  | true =>
    cases n' with
    | false =>
      obtain rfl : '-' :: t = t' := h
      exact (ht' rfl).elim
    | true => exact ⟨rfl, (List.cons.inj h).2⟩

namespace Format

variable (f : Format)

def unsigned (f : Format) : Datum → List Char
  | .nan => ['N', 'a', 'N']
  | .infinite _ => ['i', 'n', 'f']
  | .finite _ m e => (f.shortest .up m e).positional

theorem head?_unsigned (d : Datum) : (f.unsigned d).head? ≠ some '-' := by
  intro h
  cases d with
  | nan => cases h
  | infinite => cases h
  | finite n m e => exact absurd (Decimal.isDigit_of_head? _ h) (by decide)

theorem positional_ne_inf (d : Decimal) : d.positional ≠ ['i', 'n', 'f'] := by
  intro h
  exact absurd (d.isDigit_of_head? (congrArg List.head? h)) (by decide)

theorem render_injective {bits bits' : Nat} (hnan : f.decode bits ≠ .nan)
    (hnan' : f.decode bits' ≠ .nan)
    (h : f.render (f.decode bits) = f.render (f.decode bits')) :
    f.decode bits = f.decode bits' := by
  cases hd : f.decode bits with
  | nan => exact (hnan hd).elim
  | infinite n =>
    cases hd' : f.decode bits' with
    | nan => exact (hnan' hd').elim
    | infinite n' =>
      rw [hd, hd'] at h
      rw [(signed_injective (by decide) (by decide) h).1]
    | finite n' m' e' =>
      rw [hd, hd'] at h
      have hsame := (signed_injective (f.head?_unsigned (.infinite n))
        (f.head?_unsigned (.finite n' m' e')) h).2
      exact (positional_ne_inf _ hsame.symm).elim
  | finite n m e =>
    cases hd' : f.decode bits' with
    | nan => exact (hnan' hd').elim
    | infinite n' =>
      rw [hd, hd'] at h
      have hsame := (signed_injective (f.head?_unsigned (.finite n m e))
        (f.head?_unsigned (.infinite n')) h).2
      exact (positional_ne_inf _ hsame).elim
    | finite n' m' e' =>
      rw [hd, hd'] at h
      obtain ⟨rfl, hsame⟩ := signed_injective (f.head?_unsigned (.finite n m e))
        (f.head?_unsigned (.finite n' m' e')) h
      obtain ⟨d, hread, hvalue⟩ := (f.shortest .up m e).readDecimal?_positional
      obtain ⟨d', hread', hvalue'⟩ := (f.shortest .up m' e').readDecimal?_positional
      have hone : d = d' := Option.some.inj (hread.symm.trans
        ((congrArg readDecimal? hsame).trans hread'))
      subst hone
      obtain ⟨rfl, rfl⟩ := f.shortest_injective (f.decode_finite hd).1 (f.decode_finite hd').1
        (hvalue.symm.trans hvalue')
      rfl

end Format

/-- Doubles that are no NaN are known by their texts. -/
theorem Double.text_injective {x y : Double} (hx : x.isNaN = false) (hy : y.isNaN = false)
    (h : x.text = y.text) : x = y := by
  have hdatum : x.datum = y.datum := by
    have hne : ∀ {z : Double}, z.isNaN = false → z.datum ≠ .nan := by
      intro z hz hnan
      rw [isNaN, hnan] at hz
      cases hz
    exact Format.render_injective Format.double (hne hx) (hne hy) (String.ofList_injective h)
  cases hd : x.datum with
  | nan =>
    rw [isNaN, hd] at hx
    cases hx
  | infinite n =>
    obtain ⟨hmod, hsign⟩ := Format.decode_infinite Format.double hd
    obtain ⟨hmod', hsign'⟩ := Format.decode_infinite Format.double (hdatum ▸ hd)
    obtain ⟨bits⟩ := x
    obtain ⟨bits'⟩ := y
    have hb := bits.toNat_lt
    have hb' := bits'.toNat_lt
    have hboth := decide_eq_decide.mp (hsign.symm.trans hsign')
    rw [signBit_eq] at hmod hmod' hboth
    rw [infinity_eq] at hmod hmod'
    refine congrArg Double.mk (UInt64.toNat_inj.mp ?_)
    dsimp only at hmod hmod' hboth
    omega
  | finite n m e =>
    have hd' : y.datum = .finite n m e := hdatum ▸ hd
    exact (eq_of_datum hd).trans (eq_of_datum hd').symm

end PropertyFile.Number
