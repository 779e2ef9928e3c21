import Mathlib.Algebra.Group.Nat.Defs
import PropertyFile.Proofs.Number.Integers

namespace PropertyFile.Number

theorem roundHalfEven_mul {q den : Nat} (h : 0 < den) : roundHalfEven (q * den) den = q := by
  rw [roundHalfEven, Nat.mul_div_cancel q h, Nat.mul_mod_left]
  exact if_pos (by omega)

theorem log2_mul_pow {n : Nat} (h : n ≠ 0) (k : Nat) : (n * 2 ^ k).log2 = n.log2 + k := by
  have hk := Nat.two_pow_pos k
  rw [Nat.log2_eq_iff (Nat.mul_ne_zero h (Nat.ne_of_gt hk)), Nat.pow_add, Nat.add_right_comm,
    Nat.pow_add]
  exact ⟨Nat.mul_le_mul_right _ (Nat.log2_self_le h),
    Nat.mul_lt_mul_of_pos_right Nat.lt_log2_self hk⟩

namespace Format

variable (f : Format) {m : Nat} {e : Int}

/-- The mantissas and exponents that patterns stand for. -/
structure Canonical (m : Nat) (e : Int) : Prop where
  mantissa_lt : m < 2 * f.fractions
  exponent_ge : f.minExponent ≤ e
  normal : e = f.minExponent ∨ f.fractions ≤ m

def pattern (m : Nat) (e : Int) : Nat := (e - f.minExponent).toNat * f.fractions + m

theorem fractions_eq : f.fractions = 2 ^ f.fractionBits := rfl

theorem fractions_pos : 0 < f.fractions := Nat.two_pow_pos _

/-- A denominator that is a power of two never makes the leading digits of both disagree. -/
theorem placeOf_pow {num : Nat} (hnum : num ≠ 0) (d : Nat) :
    f.placeOf num (2 ^ d) = max f.minExponent ((num.log2 : Int) - d - f.fractionBits) := by
  have hnot : ¬num * 2 ^ (-((num.log2 : Int) - d)).toNat <
      2 ^ d * 2 ^ ((num.log2 : Int) - d).toNat := by
    have hexp : d + ((num.log2 : Int) - d).toNat = num.log2 + (-((num.log2 : Int) - d)).toNat := by
      omega
    rw [← Nat.pow_add, hexp, Nat.pow_add]
    exact Nat.not_lt.mpr (Nat.mul_le_mul_right _ (Nat.log2_self_le hnum))
  simp only [placeOf, Nat.log2_two_pow, Nat.pow_eq, hnot, if_false, Int.sub_zero]

theorem Canonical.log2_le (h : f.Canonical m e) (hm : m ≠ 0) : m.log2 ≤ f.fractionBits := by
  have hlt := h.mantissa_lt
  rw [fractions_eq, Nat.mul_comm, ← Nat.pow_succ] at hlt
  exact Nat.le_of_lt_succ ((Nat.log2_lt hm).mpr hlt)

theorem Canonical.place_eq (h : f.Canonical m e) (hm : m ≠ 0) :
    max f.minExponent ((m.log2 : Int) + e - f.fractionBits) = e := by
  have hle := h.log2_le f hm
  have hge := h.exponent_ge
  rcases h.normal with rfl | hnormal
  · omega
  · rw [fractions_eq, ← Nat.le_log2 hm] at hnormal
    omega

/-- A quotient that equals a canonical number rounds to its pattern. -/
theorem magnitude_exact (h : f.Canonical m e) (hm : m ≠ 0) {n d : Nat}
    (heq : n * 2 ^ (-e).toNat = m * 2 ^ (e.toNat + d)) :
    f.magnitude n (2 ^ d) = min f.infinity (f.pattern m e) := by
  have hnum : n ≠ 0 := by
    rintro rfl
    rw [Nat.zero_mul] at heq
    exact Nat.mul_ne_zero hm (Nat.ne_of_gt (Nat.two_pow_pos _)) heq.symm
  have hlog := congrArg Nat.log2 heq
  rw [log2_mul_pow hnum, log2_mul_pow hm] at hlog
  have hplace : f.placeOf n (2 ^ d) = e := by
    rw [placeOf_pow f hnum, ← h.place_eq f hm]
    congr 1
    omega
  simp only [magnitude, hnum, if_false, hplace, scaleBy, Int.neg_neg, Nat.pow_eq, heq]
  rw [← Nat.pow_add, Nat.add_comm d, roundHalfEven_mul (Nat.two_pow_pos _)]
  rfl

theorem infinity_lt_signBit : f.infinity < f.signBit := by
  rw [infinity, signBit, fractions_eq, Nat.pow_eq, Nat.pow_eq, Nat.pow_add, Nat.mul_comm]
  exact Nat.mul_lt_mul_of_pos_left (Nat.sub_lt (Nat.two_pow_pos _) Nat.one_pos) (Nat.two_pow_pos _)

theorem withSign_mod (negative : Bool) {b : Nat} (hb : b < f.signBit) :
    f.withSign negative b % f.signBit = b := by
  rw [withSign]
  split
  · rw [Nat.add_mod_left, Nat.mod_eq_of_lt hb]
  · exact Nat.mod_eq_of_lt hb

theorem signBit_le_withSign (negative : Bool) {b : Nat} (hb : b < f.signBit) :
    decide (f.signBit ≤ f.withSign negative b) = negative := by
  cases negative with
  | false => exact decide_eq_false (Nat.not_le.mpr hb)
  | true => exact decide_eq_true (Nat.le_add_right _ _)

variable {bits : Nat} {negative : Bool}

theorem decode_finite (h : f.decode bits = .finite negative m e) : f.Canonical m e ∧
    f.pattern m e = bits % f.signBit ∧ bits % f.signBit < f.infinity ∧
      negative = decide (f.signBit ≤ bits) := by
  have hdiv := Nat.div_add_mod' (bits % f.signBit) f.fractions
  have hmod := Nat.mod_lt (bits % f.signBit) f.fractions_pos
  rw [decode] at h
  split at h
  · cases h
  · next hnan =>
    split at h
    · cases h
    · next hinf =>
      have hlt := Nat.lt_of_le_of_ne (Nat.not_lt.mp hnan) hinf
      split at h
      · next hfield =>
        injection h with hn hm he
        subst hn hm he
        rw [hfield, Nat.zero_mul, Nat.zero_add] at hdiv
        refine ⟨⟨by omega, Int.le_refl _, .inl rfl⟩, ?_, hlt, rfl⟩
        rw [pattern, Int.sub_self, hdiv]
        exact (congrArg (· + _) (Nat.zero_mul _)).trans (Nat.zero_add _)
      · next hfield =>
        injection h with hn hm he
        subst hn hm he
        refine ⟨⟨by omega, by omega, .inr (Nat.le_add_right _ _)⟩, ?_, hlt, rfl⟩
        obtain ⟨k, hk⟩ := Nat.exists_eq_succ_of_ne_zero hfield
        have hexp : (f.minExponent + (k.succ - 1 : Nat) - f.minExponent).toNat = k := by omega
        rw [pattern, hk, hexp]
        rw [hk, Nat.succ_mul, Nat.add_assoc] at hdiv
        exact hdiv

theorem decode_pattern (h : f.Canonical m e) (hlt : f.pattern m e < f.infinity)
    (negative : Bool) : f.decode (f.withSign negative (f.pattern m e)) = .finite negative m e := by
  have hsign := Nat.lt_trans hlt f.infinity_lt_signBit
  have hge := h.exponent_ge
  have hm := h.mantissa_lt
  rw [decode]
  simp only [withSign_mod f negative hsign, signBit_le_withSign f negative hsign,
    Nat.not_lt.mpr (Nat.le_of_lt hlt), Nat.ne_of_lt hlt, if_false]
  by_cases hsmall : m < f.fractions
  · obtain rfl : e = f.minExponent := h.normal.resolve_right (Nat.not_le.mpr hsmall)
    have hpattern : f.pattern m f.minExponent = m := by
      rw [pattern, Int.sub_self]
      exact (congrArg (· + m) (Nat.zero_mul _)).trans (Nat.zero_add m)
    rw [hpattern, if_pos (Nat.div_eq_of_lt hsmall), Nat.mod_eq_of_lt hsmall]
  · obtain ⟨r, rfl⟩ := Nat.exists_eq_add_of_le (Nat.not_lt.mp hsmall)
    have hr : r < f.fractions := by omega
    have hpattern : f.pattern (f.fractions + r) e =
        r + f.fractions * ((e - f.minExponent).toNat + 1) := by
      rw [pattern, Nat.mul_succ, Nat.mul_comm]
      omega
    rw [hpattern, Nat.add_mul_div_left _ _ f.fractions_pos, Nat.div_eq_of_lt hr,
      Nat.add_mul_mod_self_left, Nat.mod_eq_of_lt hr, if_neg (by omega)]
    congr 1
    omega

theorem canonical_shift (hm : m ≠ 0) (hlt : m < 2 * f.fractions)
    (hmin : f.minExponent ≤ e - (f.fractionBits - m.log2 : Nat)) :
    f.Canonical (m * 2 ^ (f.fractionBits - m.log2)) (e - (f.fractionBits - m.log2 : Nat)) := by
  have hlog : m.log2 ≤ f.fractionBits := by
    rw [fractions_eq, Nat.mul_comm, ← Nat.pow_succ] at hlt
    exact Nat.le_of_lt_succ ((Nat.log2_lt hm).mpr hlt)
  have hsum : m.log2 + (f.fractionBits - m.log2) = f.fractionBits := by omega
  refine ⟨?_, hmin, .inr ?_⟩
  · have hup := Nat.mul_lt_mul_of_pos_right (Nat.lt_log2_self (n := m))
      (Nat.two_pow_pos (f.fractionBits - m.log2))
    rw [Nat.pow_succ, Nat.mul_right_comm, ← Nat.pow_add, hsum] at hup
    rw [fractions_eq]
    omega
  · have hdown := Nat.mul_le_mul_right (2 ^ (f.fractionBits - m.log2)) (Nat.log2_self_le hm)
    rwa [← Nat.pow_add, hsum] at hdown

end Format

theorem scaleBy_eq (m : Nat) (e : Int) : scaleBy m 1 e = (m * 2 ^ e.toNat, 2 ^ (-e).toNat) := by
  rw [scaleBy, Nat.one_mul]
  rfl

namespace Double

theorem toNat_ofNatBits {n : Nat} (h : n < 18446744073709551616) : (ofNatBits n).bits.toNat = n :=
  UInt64.toNat_ofNat_of_lt' h

theorem withSign_lt (negative : Bool) {b : Nat} (h : b ≤ Format.double.infinity) :
    Format.double.withSign negative b < 18446744073709551616 := by
  rw [infinity_eq] at h
  rw [Format.withSign, signBit_eq]
  split <;> omega

theorem eq_of_datum {x : Double} {negative : Bool} {m : Nat} {e : Int}
    (h : x.datum = .finite negative m e) :
    x = ofNatBits (Format.double.withSign negative (Format.double.pattern m e)) := by
  obtain ⟨-, hpattern, hlt, hsign⟩ := Format.decode_finite Format.double h
  obtain ⟨bits⟩ := x
  have hbits := bits.toNat_lt
  have hsame : Format.double.withSign negative (Format.double.pattern m e) = bits.toNat := by
    rw [infinity_eq] at hlt
    rw [hpattern, hsign, Format.withSign, signBit_eq]
    dsimp only
    split <;> simp only [decide_eq_true_eq] at * <;> omega
  rw [hsame, ofNatBits, Nat.toUInt64, UInt64.ofNat_toNat]

theorem toInt?_eq_some {x : Double} {n : Int} (h : x.toInt? = some n) : ∃ negative m e,
    x.datum = .finite negative m e ∧ n.natAbs * 2 ^ (-e).toNat = m * 2 ^ e.toNat ∧
      n = if negative then -(n.natAbs : Int) else n.natAbs := by
  rw [toInt?] at h
  split at h
  · next negative m e hdatum =>
    rw [scaleBy_eq] at h
    dsimp only at h
    split at h
    · next hmod =>
      have hq := Nat.div_mul_cancel (Nat.dvd_of_mod_eq_zero hmod)
      injection h with h
      refine ⟨negative, m, e, hdatum, ?_⟩
      generalize m * 2 ^ e.toNat / 2 ^ (-e).toNat = q at h hq
      subst h
      cases negative <;> simpa using hq
    · cases h
  · cases h

theorem toInt?_of_datum {x : Double} {negative : Bool} {m : Nat} {e : Int}
    (h : x.datum = .finite negative m e) {q : Nat} (hq : q * 2 ^ (-e).toNat = m * 2 ^ e.toNat) :
    x.toInt? = some (if negative then -(q : Int) else q) := by
  rw [toInt?, h]
  dsimp only
  rw [scaleBy_eq, ← hq, if_pos (Nat.mul_mod_left _ _), Nat.mul_div_cancel _ (Nat.two_pow_pos _)]

theorem ofInt_eq_of_exact {n : Int} {m : Nat} {e : Int} (h : Format.double.Canonical m e)
    (hm : m ≠ 0) (heq : n.natAbs * 2 ^ (-e).toNat = m * 2 ^ e.toNat)
    (hlt : Format.double.pattern m e < Format.double.infinity) :
    ofInt n = ofNatBits (Format.double.withSign (n < 0) (Format.double.pattern m e)) := by
  have hmag := Format.magnitude_exact Format.double h hm (n := n.natAbs) (d := 0) heq
  rw [Nat.min_eq_right (Nat.le_of_lt hlt)] at hmag
  rw [ofInt, Format.ofInt, Format.ofRatio]
  exact congrArg (fun b ↦ ofNatBits (Format.double.withSign (n < 0) b)) hmag

/-- A number that is an integer other than zero is what that integer is stored as. -/
theorem eq_ofInt {x : Double} {n : Int} (h : x.toInt? = some n) (hn : n ≠ 0) : x = ofInt n := by
  obtain ⟨negative, m, e, hdatum, heq, hsign⟩ := toInt?_eq_some h
  obtain ⟨hcanonical, hpattern, hlt, -⟩ := Format.decode_finite Format.double hdatum
  have hm : m ≠ 0 := by
    rintro rfl
    rw [Nat.zero_mul] at heq
    rcases Nat.mul_eq_zero.mp heq with h0 | h0
    · exact hn (Int.natAbs_eq_zero.mp h0)
    · exact Nat.ne_of_gt (Nat.two_pow_pos _) h0
  have hnegative : negative = decide (n < 0) := by
    cases negative with
    | false =>
      simp only [Bool.false_eq_true, if_false] at hsign
      exact (decide_eq_false (by omega)).symm
    | true =>
      simp only [if_true] at hsign
      exact (decide_eq_true (by omega)).symm
  rw [ofInt_eq_of_exact hcanonical hm heq (hpattern ▸ hlt), ← hnegative]
  exact eq_of_datum hdatum

theorem toInt?_ofInt_zero : (ofInt 0).toInt? = some 0 :=
  toInt?_of_datum (show (ofInt 0).datum = .finite false 0 (-1074) by decide) (q := 0)
    (by rw [Nat.zero_mul, Nat.zero_mul])

theorem toInt?_ofInt {x : Double} {n : Int} (h : x.toInt? = some n) :
    (ofInt n).toInt? = some n := by
  by_cases hn : n = 0
  · rw [hn]
    exact toInt?_ofInt_zero
  · rw [← eq_ofInt h hn, h]

theorem minExponent_eq : Format.double.minExponent = -1074 := by decide

theorem fractions_eq : Format.double.fractions = 4503599627370496 := by decide

theorem pattern_lt {m : Nat} {e : Int} (h : Format.double.Canonical m e) (he : e ≤ 971) :
    Format.double.pattern m e < Format.double.infinity := by
  have hm := h.mantissa_lt
  have hge := h.exponent_ge
  rw [fractions_eq] at hm
  rw [minExponent_eq] at hge
  rw [Format.pattern, fractions_eq, infinity_eq, minExponent_eq]
  omega

theorem datum_ofNatBits {m : Nat} {e : Int} (h : Format.double.Canonical m e)
    (hlt : Format.double.pattern m e < Format.double.infinity) (negative : Bool) :
    (ofNatBits (Format.double.withSign negative (Format.double.pattern m e))).datum =
      .finite negative m e := by
  rw [datum, toNat_ofNatBits (withSign_lt negative (Nat.le_of_lt hlt))]
  exact Format.decode_pattern Format.double h hlt negative

theorem exists_shift {n : Nat} (hn : n ≠ 0) (h : n < 9007199254740992) :
    ∃ s : Nat, s ≤ 52 ∧ Format.double.Canonical (n * 2 ^ s) (-s : Int) := by
  have hbits : Format.double.fractionBits = 52 := rfl
  have hcanonical := Format.canonical_shift Format.double (e := 0) hn
    (by rwa [fractions_eq]) (by rw [hbits, minExponent_eq]; omega)
  rw [Int.zero_sub] at hcanonical
  exact ⟨_, Nat.sub_le _ _, hcanonical⟩

/-- Integers with no more digits than a mantissa are stored as they are. -/
theorem toInt?_ofInt_of_lt {n : Int} (h : n.natAbs < 9007199254740992) :
    (ofInt n).toInt? = some n := by
  by_cases hn : n = 0
  · rw [hn]
    exact toInt?_ofInt_zero
  · have habs : n.natAbs ≠ 0 := Int.natAbs_ne_zero.mpr hn
    obtain ⟨s, -, hcanonical⟩ := exists_shift habs h
    have hlt := pattern_lt hcanonical (by omega)
    have heq : n.natAbs * 2 ^ (-(-(s : Int))).toNat =
        n.natAbs * 2 ^ s * 2 ^ (-(s : Int)).toNat := by
      rw [Int.neg_neg, Int.toNat_natCast, Int.toNat_neg_natCast, Nat.pow_zero, Nat.mul_one]
    have hm : n.natAbs * 2 ^ s ≠ 0 := Nat.mul_ne_zero habs (Nat.ne_of_gt (Nat.two_pow_pos s))
    have hdatum := datum_ofNatBits hcanonical hlt (n < 0)
    rw [← ofInt_eq_of_exact hcanonical hm heq hlt] at hdatum
    rw [toInt?_of_datum hdatum heq]
    by_cases hneg : n < 0
    · rw [decide_eq_true hneg, if_pos rfl]
      congr 1
      omega
    · rw [decide_eq_false hneg, if_neg Bool.false_ne_true]
      congr 1
      omega

end Double

namespace Format

variable (f : Format)

theorem decode_withSign_ne_nan (negative : Bool) {b : Nat} (h : b ≤ f.infinity) :
    f.decode (f.withSign negative b) ≠ .nan := by
  rw [decode, withSign_mod f negative (Nat.lt_of_le_of_lt h f.infinity_lt_signBit)]
  simp only [Nat.not_lt.mpr h, if_false]
  split
  · exact Datum.noConfusion
  · split <;> exact Datum.noConfusion

theorem decode_infinite {bits : Nat} {negative : Bool} (h : f.decode bits = .infinite negative) :
    bits % f.signBit = f.infinity ∧ negative = decide (f.signBit ≤ bits) := by
  rw [decode] at h
  split at h
  · cases h
  · split at h
    · next hinf =>
      injection h with h
      exact ⟨hinf, h.symm⟩
    · split at h <;> cases h

/-- What is made from a NaN is the quiet NaN, and nothing else makes one. -/
theorem ofDatum_of_nan {d : Datum} (h : f.decode (f.ofDatum d) = .nan) : d = .nan := by
  cases d with
  | nan => rfl
  | infinite negative => exact (decode_withSign_ne_nan f negative (Nat.le_refl _) h).elim
  | finite negative m e => exact (decode_withSign_ne_nan f negative (magnitude_le f _ _) h).elim

end Format

namespace Single

theorem toNat_ofNatBits {n : Nat} (h : n < 4294967296) : (ofNatBits n).bits.toNat = n :=
  UInt32.toNat_ofNat_of_lt' h

theorem signBit_eq : Format.single.signBit = 2147483648 := by decide

theorem infinity_eq : Format.single.infinity = 2139095040 := by decide

theorem fractions_eq : Format.single.fractions = 8388608 := by decide

theorem minExponent_eq : Format.single.minExponent = -149 := by decide

theorem withSign_lt (negative : Bool) {b : Nat} (h : b ≤ Format.single.infinity) :
    Format.single.withSign negative b < 4294967296 := by
  rw [infinity_eq] at h
  rw [Format.withSign, signBit_eq]
  split <;> omega

theorem eq_withSign (y : Single) : y = ofNatBits (Format.single.withSign
    (decide (Format.single.signBit ≤ y.bits.toNat)) (y.bits.toNat % Format.single.signBit)) := by
  obtain ⟨bits⟩ := y
  have hbits := bits.toNat_lt
  have hsame : Format.single.withSign (decide (Format.single.signBit ≤ bits.toNat))
      (bits.toNat % Format.single.signBit) = bits.toNat := by
    rw [Format.withSign, signBit_eq]
    split <;> simp only [decide_eq_true_eq] at * <;> omega
  rw [hsame, ofNatBits, Nat.toUInt32, UInt32.ofNat_toNat]

theorem datum_widen {y : Single} {negative : Bool} {m : Nat} {e : Int}
    (h : y.datum = .finite negative m e) (hm : m ≠ 0) :
    ∃ s : Nat, y.widen.datum = .finite negative (m * 2 ^ s) (e - s) := by
  obtain ⟨hcanonical, hpattern, hlt, -⟩ := Format.decode_finite Format.single h
  have hmantissa := hcanonical.mantissa_lt
  have hge := hcanonical.exponent_ge
  have he : e ≤ 105 := by
    rw [← hpattern, Format.pattern, fractions_eq, infinity_eq, minExponent_eq] at hlt
    omega
  rw [fractions_eq] at hmantissa
  rw [minExponent_eq] at hge
  have hbits : Format.double.fractionBits = 52 := rfl
  have hshifted := Format.canonical_shift Format.double (e := e) hm
    (by rw [Double.fractions_eq]; omega) (by rw [hbits, Double.minExponent_eq]; omega)
  generalize Format.double.fractionBits - m.log2 = s at hshifted
  have hfinite := Double.pattern_lt hshifted (by omega)
  have hmag := Format.magnitude_exact Format.double hshifted
    (Nat.mul_ne_zero hm (Nat.ne_of_gt (Nat.two_pow_pos s))) (n := m * 2 ^ e.toNat)
    (d := (-e).toNat) (by
      rw [Nat.mul_assoc, Nat.mul_assoc, ← Nat.pow_add, ← Nat.pow_add]
      congr 2
      omega)
  rw [Nat.min_eq_right (Nat.le_of_lt hfinite)] at hmag
  refine ⟨s, ?_⟩
  rw [widen, h, Double.ofDatum, Format.ofDatum, Format.ofScaled, scaleBy_eq]
  dsimp only
  rw [Format.ofRatio, hmag, Double.datum_ofNatBits hshifted hfinite]

theorem narrow_widen_of_ne_zero {y : Single} {negative : Bool} {m : Nat} {e : Int}
    (h : y.datum = .finite negative m e) (hm : m ≠ 0) : y.widen.narrow = y := by
  obtain ⟨hcanonical, hpattern, hlt, hsign⟩ := Format.decode_finite Format.single h
  obtain ⟨s, hwiden⟩ := datum_widen h hm
  have hmag := Format.magnitude_exact Format.single hcanonical hm
    (n := m * 2 ^ s * 2 ^ (e - s).toNat) (d := (-(e - s)).toNat) (by
      rw [Nat.mul_assoc, Nat.mul_assoc, ← Nat.pow_add, ← Nat.pow_add]
      congr 2
      omega)
  rw [hpattern, Nat.min_eq_right (Nat.le_of_lt hlt)] at hmag
  rw [Double.narrow, hwiden, ofDatum, Format.ofDatum, Format.ofScaled, scaleBy_eq]
  dsimp only
  rw [Format.ofRatio, hmag, hsign]
  exact (eq_withSign y).symm

theorem narrow_widen {y : Single} (h : y.datum = .nan → y = ofDatum .nan) :
    y.widen.narrow = y := by
  cases hdatum : y.datum with
  | nan =>
    rw [h hdatum]
    decide
  | infinite negative =>
    obtain ⟨hinf, hsign⟩ := Format.decode_infinite Format.single hdatum
    rw [eq_withSign y, hinf, ← hsign]
    cases negative <;> decide
  | finite negative m e =>
    by_cases hm : m = 0
    · obtain ⟨hcanonical, hpattern, -, hsign⟩ := Format.decode_finite Format.single hdatum
      subst hm
      have he := hcanonical.normal.resolve_right (by rw [fractions_eq]; omega)
      rw [he, Format.pattern, Int.sub_self] at hpattern
      rw [eq_withSign y, ← hpattern, ← hsign, fractions_eq]
      cases negative <;> decide
    · exact narrow_widen_of_ne_zero hdatum hm

end Single

/-- Widening loses nothing of what narrowing gives. -/
theorem Double.narrow_widen_narrow (x : Double) : x.narrow.widen.narrow = x.narrow := by
  refine Single.narrow_widen fun h ↦ ?_
  have hlt : Format.single.ofDatum x.datum < 4294967296 := by
    cases x.datum with
    | nan => decide
    | infinite negative => exact Single.withSign_lt negative (Nat.le_refl _)
    | finite negative m e => exact Single.withSign_lt negative (Format.magnitude_le _ _ _)
  rw [Double.narrow, Single.ofDatum, Single.datum, Single.toNat_ofNatBits hlt] at h
  rw [Double.narrow, Format.ofDatum_of_nan Format.single h]

def Datum.toInt? : Datum → Option Int
  | .finite negative m e =>
    let (n, d) := scaleBy m 1 e
    if n % d = 0 then some (if negative then -(n / d : Nat) else (n / d : Nat)) else none
  | _ => none

theorem Double.toInt?_eq (x : Double) : x.toInt? = x.datum.toInt? := by
  rw [Double.toInt?]
  cases x.datum <;> rfl

theorem quotient_unique {n d n' d' : Nat} (hd : 0 < d) (hd' : 0 < d') (h : n * d' = n' * d) :
    (n % d = 0 ↔ n' % d' = 0) ∧ n / d = n' / d' := by
  constructor
  · have hmod := Nat.mul_mod_mul_right d' n d
    rw [h, Nat.mul_comm d d', Nat.mul_mod_mul_right] at hmod
    constructor
    · intro h0
      rw [h0, Nat.zero_mul] at hmod
      exact (Nat.mul_eq_zero.mp hmod).resolve_right (Nat.ne_of_gt hd)
    · intro h0
      rw [h0, Nat.zero_mul] at hmod
      exact (Nat.mul_eq_zero.mp hmod.symm).resolve_right (Nat.ne_of_gt hd')
  · rw [← Nat.mul_div_mul_right n d hd', h, Nat.mul_comm d d', Nat.mul_div_mul_right n' d' hd]

theorem Datum.toInt?_shift (negative : Bool) (m : Nat) (e : Int) (s : Nat) :
    (finite negative (m * 2 ^ s) (e - s)).toInt? = (finite negative m e).toInt? := by
  have hcross : m * 2 ^ s * 2 ^ (e - s).toNat * 2 ^ (-e).toNat =
      m * 2 ^ e.toNat * 2 ^ (-(e - s)).toNat := by
    simp only [Nat.mul_assoc, ← Nat.pow_add]
    congr 2
    omega
  obtain ⟨hmod, hdiv⟩ := quotient_unique (Nat.two_pow_pos _) (Nat.two_pow_pos _) hcross
  simp only [toInt?, scaleBy_eq, hmod, hdiv]

theorem Single.toInt?_widen (x : Single) : x.widen.toInt? = x.datum.toInt? := by
  rw [Double.toInt?_eq]
  cases h : x.datum with
  | nan =>
    rw [widen, h]
    decide
  | infinite negative =>
    rw [widen, h]
    cases negative <;> decide
  | finite negative m e =>
    by_cases hm : m = 0
    · have hzero : ∀ e', (Datum.finite negative 0 e').toInt? = some 0 := by
        intro e'
        simp [Datum.toInt?, scaleBy_eq]
      have hwiden : x.widen.datum = .finite negative 0 (-1074) := by
        have hbits : ∀ d, Format.double.ofRatio negative 0 d =
            Format.double.withSign negative 0 := fun _ ↦ rfl
        rw [widen, h, hm, Double.ofDatum, Format.ofDatum, Format.ofScaled, scaleBy_eq,
          Nat.zero_mul]
        dsimp only
        rw [hbits]
        cases negative <;> decide
      rw [hwiden, hm, hzero, hzero]
    · obtain ⟨s, hs⟩ := datum_widen h hm
      rw [hs, Datum.toInt?_shift]

end PropertyFile.Number
