import PropertyFile.Number.Decimal
import PropertyFile.Proofs.Number.Exact

namespace PropertyFile.Number

theorem roundHalfEven_eq {num den q : Nat} (hden : 0 < den)
    (hlow : 2 * (q * den) ≤ 2 * num + den) (hhigh : 2 * num ≤ 2 * (q * den) + den)
    (htie : 2 * num = 2 * (q * den) + den ∨ 2 * num + den = 2 * (q * den) → q % 2 = 0) :
    roundHalfEven num den = q := by
  have hdiv := Nat.div_add_mod' num den
  have hmod := Nat.mod_lt num hden
  rw [roundHalfEven]
  generalize num / den = k at hdiv
  generalize num % den = r at hdiv hmod
  have hle : k ≤ q := Nat.le_of_lt_succ (Nat.lt_of_mul_lt_mul_right (a := den) (by
    rw [Nat.succ_mul]
    omega))
  have hge : q ≤ k + 1 := Nat.le_of_lt_succ (Nat.lt_of_mul_lt_mul_right (a := den) (by
    rw [Nat.succ_mul, Nat.succ_mul]
    omega))
  rcases Nat.eq_or_lt_of_le hle with rfl | hlt
  · split
    · rfl
    · split <;> omega
  · obtain rfl : q = k + 1 := by omega
    rw [Nat.add_mul, Nat.one_mul] at hlow hhigh htie
    split
    · omega
    · split
      · rfl
      · omega

theorem roundHalfEven_bounds {n d q : Nat} (hlow : q * d ≤ n) (hhigh : n < 2 * q * d) :
    q ≤ roundHalfEven n d ∧ roundHalfEven n d ≤ 2 * q := by
  have hd : 0 < d := Nat.pos_of_ne_zero fun h ↦ by
    subst h
    exact Nat.not_lt_zero _ hhigh
  have hge : q ≤ n / d := (Nat.le_div_iff_mul_le hd).mpr hlow
  have hlt : n / d < 2 * q := (Nat.div_lt_iff_lt_mul hd).mpr hhigh
  rw [roundHalfEven]
  split
  · omega
  · split <;> omega

namespace Format

variable (f : Format)

theorem magnitude_nat {n k : Nat} (hn : n ≠ 0) (hlog : n.log2 = f.fractionBits + k)
    (hmin : f.minExponent ≤ k) : f.magnitude n 1 =
      min f.infinity ((k - f.minExponent).toNat * f.fractions + roundHalfEven n (2 ^ k)) := by
  have hplace : f.placeOf n 1 = k := by
    have h := placeOf_pow f hn 0
    rw [Nat.pow_zero] at h
    rw [h]
    omega
  have hscale : scaleBy n 1 (-(k : Int)) = (n, 2 ^ k) := by
    rw [scaleBy, show (-(k : Int)).toNat = 0 by omega, show (-(-(k : Int))).toNat = k by omega,
      Nat.one_mul]
    exact Prod.ext (Nat.mul_one n) rfl
  simp only [magnitude, hn, if_false, hplace, hscale]

/-- How far below a mantissa its interval reaches, in quarters of the last place. -/
def gap (m : Nat) (e : Int) : Nat := if m = f.fractions ∧ f.minExponent < e then 1 else 2

theorem gap_cases (m : Nat) (e : Int) : f.gap m e = 2 ∨
    f.gap m e = 1 ∧ m = f.fractions ∧ f.minExponent < e := by
  rw [gap]
  split
  · next h => exact .inr ⟨rfl, h⟩
  · exact .inl rfl

theorem rounding_eq (m : Nat) (e : Int) : f.rounding m e =
    ⟨4 * m - f.gap m e, 4 * m, 4 * m + 2, 2 ^ (e - 2).toNat, 2 ^ (2 - e).toNat, m % 2 == 0⟩ := by
  rw [rounding, scaleBy, Nat.one_mul, Nat.one_mul, Int.neg_sub]
  rfl

theorem bounds_of_contains {m n : Nat} {e : Int} (h : (f.rounding m e).contains n = true) :
    (4 * m - f.gap m e) * 2 ^ e.toNat ≤ 4 * (n * 2 ^ (-e).toNat) ∧
      4 * (n * 2 ^ (-e).toNat) ≤ (4 * m + 2) * 2 ^ e.toNat ∧
      (m % 2 ≠ 0 → (4 * m - f.gap m e) * 2 ^ e.toNat ≠ 4 * (n * 2 ^ (-e).toNat) ∧
        4 * (n * 2 ^ (-e).toNat) ≠ (4 * m + 2) * 2 ^ e.toNat) := by
  obtain ⟨k, hk, hk'⟩ : ∃ k, (e - 2).toNat + k = e.toNat ∧ (2 - e).toNat + k = 2 + (-e).toNat :=
    ⟨e.toNat - (e - 2).toNat, by omega, by omega⟩
  have hpos := Nat.two_pow_pos k
  have hunit : 4 * (n * 2 ^ (-e).toNat) = n * 2 ^ (2 - e).toNat * 2 ^ k := by
    rw [Nat.mul_assoc n, ← Nat.pow_add, hk', Nat.pow_add, Nat.mul_left_comm]
  rw [rounding_eq, Interval.contains] at h
  dsimp only at h
  rw [hunit, ← hk, Nat.pow_add, ← Nat.mul_assoc, ← Nat.mul_assoc]
  split at h
  · simp only [Bool.and_eq_true, decide_eq_true_eq] at h
    next heven =>
    rw [beq_iff_eq] at heven
    exact ⟨Nat.mul_le_mul_right _ h.1, Nat.mul_le_mul_right _ h.2, fun hodd ↦ (hodd heven).elim⟩
  · simp only [Bool.and_eq_true, decide_eq_true_eq] at h
    have hlow := Nat.mul_lt_mul_of_pos_right h.1 hpos
    have hhigh := Nat.mul_lt_mul_of_pos_right h.2 hpos
    exact ⟨Nat.le_of_lt hlow, Nat.le_of_lt hhigh, fun _ ↦ ⟨Nat.ne_of_lt hlow, Nat.ne_of_lt hhigh⟩⟩

theorem contains_middle {m n : Nat} {e : Int} (hm : m ≠ 0)
    (h : n * 2 ^ (2 - e).toNat = 4 * m * 2 ^ (e - 2).toNat) :
    (f.rounding m e).contains n = true := by
  have hpos := Nat.two_pow_pos (e - 2).toNat
  have hgap : 0 < f.gap m e ∧ f.gap m e ≤ 2 := by
    rw [gap]
    split <;> decide
  have hlow : (4 * m - f.gap m e) * 2 ^ (e - 2).toNat < 4 * m * 2 ^ (e - 2).toNat :=
    Nat.mul_lt_mul_of_pos_right (by omega) hpos
  have hhigh : 4 * m * 2 ^ (e - 2).toNat < (4 * m + 2) * 2 ^ (e - 2).toNat :=
    Nat.mul_lt_mul_of_pos_right (by omega) hpos
  rw [rounding_eq, Interval.contains]
  dsimp only
  rw [h]
  split
  · exact Bool.and_eq_true_iff.mpr
      ⟨decide_eq_true (Nat.le_of_lt hlow), decide_eq_true (Nat.le_of_lt hhigh)⟩
  · exact Bool.and_eq_true_iff.mpr ⟨decide_eq_true hlow, decide_eq_true hhigh⟩

end Format

namespace Double

/-- An integer rounds to a mantissa and an exponent, and equals them if these have a fraction. -/
structure Rounds (n m : Nat) (e : Int) : Prop where
  canonical : Format.double.Canonical m e
  normal : 4503599627370496 ≤ m
  low : -52 ≤ e
  high : e ≤ 12
  exact : e ≤ 0 → n * 2 ^ (-e).toNat = m
  magnitude_eq : Format.double.magnitude n 1 = Format.double.pattern m e

theorem rounds_small {n : Nat} (hn : n ≠ 0) (h : n < 9007199254740992) :
    ∃ m e, Rounds n m e ∧ e ≤ 0 := by
  obtain ⟨s, hs, hcanonical⟩ := exists_shift hn h
  have hlt := pattern_lt hcanonical (by omega)
  have heq : n * 2 ^ (-(-(s : Int))).toNat = n * 2 ^ s := by
    rw [Int.neg_neg, Int.toNat_natCast]
  refine ⟨_, _, ⟨hcanonical, ?_, by omega, by omega, fun _ ↦ heq, ?_⟩, by omega⟩
  · have hnormal := hcanonical.normal
    rw [minExponent_eq, fractions_eq] at hnormal
    exact hnormal.resolve_left (by omega)
  · have hmag := Format.magnitude_exact Format.double hcanonical
      (Nat.mul_ne_zero hn (Nat.ne_of_gt (Nat.two_pow_pos s))) (n := n) (d := 0)
      (by rw [heq, Int.toNat_neg_natCast, Nat.pow_zero, Nat.mul_one])
    rwa [Nat.min_eq_right (Nat.le_of_lt hlt)] at hmag

theorem rounds_large {n k : Nat} (hn : n ≠ 0) (hlog : n.log2 = 52 + k) (hpos : 1 ≤ k)
    (hk : k ≤ 11) : ∃ m e, Rounds n m e := by
  have hmag := Format.magnitude_nat Format.double hn hlog (by rw [minExponent_eq]; omega)
  obtain ⟨hlow, hhigh⟩ := (Nat.log2_eq_iff hn).mp hlog
  have hbounds := roundHalfEven_bounds (q := 4503599627370496) (n := n) (d := 2 ^ k)
    (by rw [Nat.pow_add] at hlow; exact hlow)
    (by rw [Nat.add_right_comm, Nat.pow_add] at hhigh; exact hhigh)
  generalize roundHalfEven n (2 ^ k) = r at hmag hbounds
  rw [infinity_eq, minExponent_eq, fractions_eq] at hmag
  by_cases hr : r < 9007199254740992
  · have hcanonical : Format.double.Canonical r k :=
      ⟨by rw [fractions_eq]; omega, by rw [minExponent_eq]; omega,
        .inr (by rw [fractions_eq]; exact hbounds.1)⟩
    refine ⟨r, k, hcanonical, hbounds.1, by omega, by omega, fun he ↦ by omega, ?_⟩
    rw [hmag, Format.pattern, minExponent_eq, fractions_eq]
    omega
  · have hcanonical : Format.double.Canonical 4503599627370496 (k + 1) :=
      ⟨by rw [fractions_eq]; omega, by rw [minExponent_eq]; omega,
        .inr (Nat.le_of_eq fractions_eq)⟩
    refine ⟨_, _, hcanonical, Nat.le_refl _, by omega, by omega, fun he ↦ by omega, ?_⟩
    rw [hmag, Format.pattern, minExponent_eq, fractions_eq]
    omega

theorem exists_rounds {n : Nat} (hn : n ≠ 0) (h : n ≤ 9223372036854775808) :
    ∃ m e, Rounds n m e := by
  by_cases hsmall : n < 9007199254740992
  · obtain ⟨m, e, hrounds, -⟩ := rounds_small hn hsmall
    exact ⟨m, e, hrounds⟩
  · have hlow : 53 ≤ n.log2 := (Nat.le_log2 hn).mpr (by omega)
    have hhigh : n.log2 < 64 := (Nat.log2_lt hn).mpr (by omega)
    exact rounds_large hn (k := n.log2 - 52) (by omega) (by omega) (by omega)

theorem gap_cases (m : Nat) (e : Int) : Format.double.gap m e = 2 ∨
    Format.double.gap m e = 1 ∧ m = 4503599627370496 := by
  rw [← fractions_eq]
  exact (Format.double.gap_cases m e).imp_right fun h ↦ ⟨h.1, h.2.1⟩

/-- Above the middle's power of two the integers of the interval have the middle's last place. -/
theorem magnitude_above {n m k : Nat} (hm : m < 9007199254740992)
    (hn : 4503599627370496 * 2 ^ k ≤ n)
    (hlow : (4 * m - Format.double.gap m k) * 2 ^ k ≤ 4 * n)
    (hhigh : 4 * n ≤ (4 * m + 2) * 2 ^ k)
    (hstrict : m % 2 ≠ 0 → (4 * m - Format.double.gap m k) * 2 ^ k ≠ 4 * n ∧
      4 * n ≠ (4 * m + 2) * 2 ^ k) :
    Format.double.magnitude n 1 =
      min Format.double.infinity ((k + 1074) * 4503599627370496 + m) := by
  have hpos := Nat.two_pow_pos k
  have hbound : (m + 1) * 2 ^ k ≤ 9007199254740992 * 2 ^ k := Nat.mul_le_mul_right _ hm
  have hn0 : n ≠ 0 := by omega
  have hlog : n.log2 = 52 + k := by
    rw [Nat.log2_eq_iff hn0, Nat.add_right_comm, Nat.pow_add, Nat.pow_add]
    rw [Nat.add_mul] at hhigh hbound
    rw [Nat.mul_assoc] at hhigh
    exact ⟨hn, by omega⟩
  have hround : roundHalfEven n (2 ^ k) = m := by
    rw [Nat.sub_mul, Nat.mul_assoc] at hlow hstrict
    rw [Nat.add_mul, Nat.mul_assoc] at hhigh hstrict
    rcases gap_cases m k with hgap | ⟨hgap, rfl⟩
    · rw [hgap] at hlow hstrict
      refine roundHalfEven_eq hpos (by omega) (by omega) fun htie ↦ ?_
      refine Decidable.byContradiction fun hodd ↦ ?_
      have hne := hstrict hodd
      omega
    · rw [hgap] at hlow
      exact roundHalfEven_eq hpos (by omega) (by omega) fun _ ↦ rfl
  have hmag := Format.magnitude_nat Format.double hn0 hlog (by rw [minExponent_eq]; omega)
  rw [hmag, hround, fractions_eq, minExponent_eq]
  exact congrArg (min _) (by omega)

theorem magnitude_below {n k : Nat} (hn : n < 4503599627370496 * 2 ^ (k + 1))
    (hlow : 18014398509481983 * 2 ^ (k + 1) ≤ 4 * n) :
    Format.double.magnitude n 1 =
      min Format.double.infinity ((k + 1 + 1074) * 4503599627370496 + 4503599627370496) := by
  have hpos := Nat.two_pow_pos k
  rw [Nat.pow_succ] at hn hlow
  have hn0 : n ≠ 0 := by omega
  have hlog : n.log2 = 52 + k := by
    rw [Nat.log2_eq_iff hn0, Nat.add_right_comm, Nat.pow_add, Nat.pow_add]
    exact ⟨by omega, by omega⟩
  have hround : roundHalfEven n (2 ^ k) = 9007199254740992 :=
    roundHalfEven_eq hpos (by omega) (by omega) fun _ ↦ rfl
  have hmag := Format.magnitude_nat Format.double hn0 hlog (by rw [minExponent_eq]; omega)
  rw [hmag, hround, fractions_eq, minExponent_eq]
  exact congrArg (min _) (by omega)

/-- An integer that is stored as it is has no other integer in its interval. -/
theorem Rounds.eq_of_contains {n n' m : Nat} {e : Int} (h : Rounds n m e) (he : e ≤ 0)
    (hc : (Format.double.rounding m e).contains n' = true) : n' = n := by
  obtain ⟨hlow, hhigh, -⟩ := Format.bounds_of_contains Format.double hc
  have hgap := gap_cases m e
  have hsame : n' * 2 ^ (-e).toNat = n * 2 ^ (-e).toNat := by
    rw [Int.toNat_of_nonpos he, Nat.pow_zero, Nat.mul_one] at hlow hhigh
    rw [h.exact he]
    omega
  exact Nat.eq_of_mul_eq_mul_right (Nat.two_pow_pos _) hsame

theorem Rounds.magnitude_of_contains {n n' m : Nat} {e : Int} (h : Rounds n m e)
    (hc : (Format.double.rounding m e).contains n' = true) :
    Format.double.magnitude n' 1 = Format.double.pattern m e := by
  obtain ⟨hlow, hhigh, hstrict⟩ := Format.bounds_of_contains Format.double hc
  have hgap := gap_cases m e
  have hm := h.canonical.mantissa_lt
  have hfinite := pattern_lt h.canonical (by have := h.high; omega)
  rw [fractions_eq] at hm
  by_cases he : e ≤ 0
  · rw [h.eq_of_contains he hc, h.magnitude_eq]
  · obtain ⟨k, rfl⟩ : ∃ k : Nat, e = (k + 1 : Nat) := ⟨(e - 1).toNat, by omega⟩
    rw [Int.toNat_natCast, show (-((k + 1 : Nat) : Int)).toNat = 0 by omega, Nat.pow_zero,
      Nat.mul_one] at hlow hhigh hstrict
    have hpattern : Format.double.pattern m (k + 1 : Nat) =
        (k + 1 + 1074) * 4503599627370496 + m := by
      rw [Format.pattern, fractions_eq, minExponent_eq]
      omega
    rw [hpattern] at hfinite ⊢
    rw [← Nat.min_eq_right (Nat.le_of_lt hfinite)]
    by_cases hn' : 4503599627370496 * 2 ^ (k + 1) ≤ n'
    · exact magnitude_above hm hn' hlow hhigh hstrict
    · have hnormal : m = 4503599627370496 := by
        refine Decidable.byContradiction fun hne ↦ hn' ?_
        have hlarge := Nat.mul_le_mul_right (2 ^ (k + 1)) (show 4503599627370497 ≤ m by
          have hge := h.normal
          omega)
        rw [hgap.resolve_right fun hp ↦ hne hp.2, Nat.sub_mul, Nat.mul_assoc] at hlow
        omega
      have hgap' : Format.double.gap m (k + 1 : Nat) = 1 :=
        if_pos ⟨by rw [hnormal, fractions_eq], by rw [minExponent_eq]; omega⟩
      rw [hgap', hnormal] at hlow
      rw [hnormal]
      exact magnitude_below (by omega) hlow

end Double

namespace Interval

variable {i : Interval} {tie : Tie}

theorem contains_of_nearest? {c : Nat} (h : i.nearest? tie = some c) : i.contains c = true := by
  simp only [nearest?] at h
  split at h
  · cases h
  · next hc _ =>
    obtain rfl := Option.some.inj h
    exact hc
  · next hc =>
    obtain rfl := Option.some.inj h
    exact hc
  · next hc hc' =>
    have hnear : c = i.mid * i.num / i.den ∨ c = i.mid * i.num / i.den + 1 := by
      split at h
      · exact .inl (Option.some.inj h).symm
      · split at h
        · exact .inr (Option.some.inj h).symm
        · cases tie with
          | up => exact .inr (Option.some.inj h).symm
          | even =>
            have h := Option.some.inj h
            omega
    rcases hnear with rfl | rfl
    · exact hc
    · exact hc'

theorem nearest?_ne_none {c : Nat} (h : i.contains c = true) (hc : i.mid * i.num / i.den = c) :
    i.nearest? tie ≠ none := by
  simp only [nearest?, hc, h]
  cases i.contains (c + 1) with
  | false => exact Option.some_ne_none _
  | true =>
    dsimp only
    split
    · exact Option.some_ne_none _
    · split
      · exact Option.some_ne_none _
      · cases tie <;> exact Option.some_ne_none _

/-- A search that comes to the grid of integers ends at a grid that is no finer. -/
theorem search_integer (hfound : (i.onGrid 0).nearest? tie ≠ none) (fuel : Nat) {g : Int}
    (hg : 0 ≤ g) (hfuel : g < fuel) :
    ∃ c h, i.search tie fuel g = some ⟨c, h⟩ ∧ 0 ≤ h ∧ (i.onGrid h).contains c = true := by
  induction fuel generalizing g with
  | zero => omega
  | succ fuel ih =>
    rw [search]
    cases hc : (i.onGrid g).nearest? tie with
    | some c => exact ⟨c, g, rfl, hg, contains_of_nearest? hc⟩
    | none =>
      have hne : g ≠ 0 := by
        rintro rfl
        exact hfound hc
      exact ih (by omega) (by omega)

theorem onGrid_zero : i.onGrid 0 = i := by
  have hone : Nat.pow 10 (0 : Int).toNat = 1 := rfl
  have hone' : Nat.pow 10 (-(0 : Int)).toNat = 1 := rfl
  rw [onGrid, hone, hone', Nat.mul_one, Nat.mul_one]

theorem contains_onGrid {g : Int} (hg : 0 ≤ g) (c : Nat) :
    (i.onGrid g).contains c = i.contains (c * 10 ^ g.toNat) := by
  have hden : c * (i.den * Nat.pow 10 g.toNat) = c * 10 ^ g.toNat * i.den := by
    rw [Nat.pow_eq, Nat.mul_assoc, Nat.mul_comm i.den]
  have hnum : i.num * Nat.pow 10 (-g).toNat = i.num := by
    rw [show (-g).toNat = 0 by omega]
    exact Nat.mul_one _
  simp only [onGrid, contains, hden, hnum]

end Interval

/-- The shortest decimal of an integer is an integer of the interval. -/
theorem Double.Rounds.shortest_eq {n m : Nat} {e : Int} (h : Double.Rounds n m e) (tie : Tie) :
    ∃ c g, Format.double.shortest tie m e = ⟨c, g⟩ ∧ 0 ≤ g ∧
      (Format.double.rounding m e).contains (c * 10 ^ g.toNat) = true := by
  have hnormal := h.normal
  have hlow := h.low
  have hhigh := h.high
  have hm : m ≠ 0 := by omega
  obtain ⟨k, hk⟩ : ∃ k, k * 2 ^ (2 - e).toNat = 4 * m * 2 ^ (e - 2).toNat := by
    by_cases he : e ≤ 0
    · refine ⟨n, ?_⟩
      rw [show (2 - e).toNat = (-e).toNat + 2 by omega, show (e - 2).toNat = 0 by omega,
        Nat.pow_add, ← Nat.mul_assoc, h.exact he]
      omega
    · refine ⟨m * 2 ^ e.toNat, ?_⟩
      rw [Nat.mul_assoc, ← Nat.pow_add, show e.toNat + (2 - e).toNat = 2 + (e - 2).toNat by omega,
        Nat.pow_add, Nat.mul_comm 4 m, Nat.mul_assoc]
  have hfound : ((Format.double.rounding m e).onGrid 0).nearest? tie ≠ none := by
    rw [Interval.onGrid_zero]
    refine Interval.nearest?_ne_none (Format.contains_middle Format.double hm hk) ?_
    rw [Format.rounding_eq]
    dsimp only
    rw [← hk, Nat.mul_div_cancel _ (Nat.two_pow_pos _)]
  have hlog : m.log2 = 52 := by
    have hlt := h.canonical.mantissa_lt
    rw [Double.fractions_eq] at hlt
    exact (Nat.log2_eq_iff hm).mpr ⟨hnormal, hlt⟩
  obtain ⟨c, g, hsearch, hg, hc⟩ := Interval.search_integer hfound 21
    (g := Format.coarsest m e) (by rw [Format.coarsest, hlog]; omega)
    (by rw [Format.coarsest, hlog]; omega)
  rw [Interval.contains_onGrid hg] at hc
  refine ⟨c, g, ?_, hg, hc⟩
  rw [Format.shortest, if_neg hm, hsearch, Option.getD_some]

theorem isDigit_of_mem_digitChars {n : Nat} {c : Char} (h : c ∈ digitChars n) :
    isDigit c = true := by
  have hc := Nat.isDigit_of_mem_toDigits (by decide) (by decide) h
  simp only [Char.isDigit, Bool.and_eq_true, decide_eq_true_eq] at hc
  exact Bool.and_eq_true_iff.mpr ⟨decide_eq_true hc.1, decide_eq_true hc.2⟩

theorem toNat_of_isDigit {c : Char} (h : isDigit c = true) : 48 ≤ c.toNat ∧ c.toNat ≤ 57 := by
  rw [isDigit, Bool.and_eq_true, decide_eq_true_eq, decide_eq_true_eq] at h
  exact h

def paddedDigits (n k : Nat) : List Char := digitChars n ++ List.replicate k '0'

theorem ofDigits_paddedDigits (n k : Nat) : ofDigits (paddedDigits n k) = n * 10 ^ k := by
  have h : ofDigits (paddedDigits n k) = Nat.ofDigitChars 10 (paddedDigits n k) 0 :=
    Nat.ofDigitChars_eq_foldl.symm
  rw [h, paddedDigits, Nat.ofDigitChars_append, digitChars, Nat.ofDigitChars_ten_toDigits,
    Nat.ofDigitChars_replicate_zero, Nat.mul_comm]

theorem all_isDigit_paddedDigits (n k : Nat) : (paddedDigits n k).all isDigit = true := by
  rw [List.all_eq_true]
  intro c hc
  rcases List.mem_append.mp hc with hc | hc
  · exact isDigit_of_mem_digitChars hc
  · rw [List.eq_of_mem_replicate hc]
    rfl

theorem paddedDigits_ne_nil (n k : Nat) : paddedDigits n k ≠ [] :=
  List.append_ne_nil_of_left_ne_nil Nat.toDigits_ne_nil _

theorem splitSign_signed (negative : Bool) {ds : List Char} (h : ds.all isDigit = true) :
    splitSign (signed negative ds) = (negative, ds) := by
  cases negative with
  | true => rfl
  | false =>
    cases ds with
    | nil => rfl
    | cons c ds =>
      rw [List.all_cons, Bool.and_eq_true] at h
      rw [signed, if_neg Bool.false_ne_true]
      unfold splitSign
      split
      · next heq =>
        injection heq with hc
        subst hc
        exact absurd h.1 (by decide)
      · next heq =>
        injection heq with hc
        subst hc
        exact absurd h.1 (by decide)
      · rfl

theorem readInt?_signed (negative : Bool) (n k : Nat) :
    readInt? (signed negative (paddedDigits n k)) =
      some (if negative then -((n * 10 ^ k : Nat) : Int) else (n * 10 ^ k : Nat)) := by
  rw [readInt?, splitSign_signed negative (all_isDigit_paddedDigits n k)]
  dsimp only
  rw [if_pos ⟨paddedDigits_ne_nil n k, all_isDigit_paddedDigits n k⟩, ofDigits_paddedDigits]

theorem Decimal.positional_integer (c : Nat) {g : Int} (hg : 0 ≤ g) :
    Decimal.positional ⟨c, g⟩ = paddedDigits c g.toNat := by
  rw [positional, pointed, if_pos hg]
  rfl

/-- The text of an integer is an integer that rounds to the same number. -/
theorem Double.readInt?_text (i : Int) (h : i.natAbs ≤ 9223372036854775808) :
    ∃ n, readInt? (ofInt i).text.toList = some n ∧ ofInt n = ofInt i := by
  by_cases hi : i = 0
  · subst hi
    refine ⟨0, ?_, rfl⟩
    rw [text, String.toList_ofList, show (ofInt 0).datum = .finite false 0 (-1074) by decide]
    rfl
  · obtain ⟨m, e, hrounds⟩ := exists_rounds (Int.natAbs_ne_zero.mpr hi) h
    have hhigh := hrounds.high
    have hnormal := hrounds.normal
    have hlt := pattern_lt hrounds.canonical (by omega)
    have hbits : ofInt i =
        ofNatBits (Format.double.withSign (i < 0) (Format.double.pattern m e)) := by
      rw [ofInt, Format.ofInt, Format.ofRatio, hrounds.magnitude_eq]
    obtain ⟨c, g, hshortest, hg, hc⟩ := hrounds.shortest_eq .up
    have hmag := hrounds.magnitude_of_contains hc
    refine ⟨if decide (i < 0) then -((c * 10 ^ g.toNat : Nat) : Int) else (c * 10 ^ g.toNat : Nat),
      ?_, ?_⟩
    · rw [text, String.toList_ofList, hbits, datum_ofNatBits hrounds.canonical hlt, Format.render,
        hshortest, Decimal.positional_integer c hg]
      exact readInt?_signed _ c g.toNat
    · have hne : c * 10 ^ g.toNat ≠ 0 := by
        intro hzero
        rw [hzero] at hmag
        have hpos : Format.double.pattern m e = 0 := hmag.symm
        rw [Format.pattern] at hpos
        omega
      rw [hbits, ← hmag]
      generalize c * 10 ^ g.toNat = k at hne
      by_cases hneg : i < 0
      · rw [decide_eq_true hneg, if_pos rfl, ofInt, Format.ofInt, Format.ofRatio, Int.natAbs_neg,
          Int.natAbs_natCast, decide_eq_true (by omega)]
      · rw [decide_eq_false hneg, if_neg Bool.false_ne_true, ofInt, Format.ofInt, Format.ofRatio,
          Int.natAbs_natCast, decide_eq_false (by omega)]

end PropertyFile.Number
