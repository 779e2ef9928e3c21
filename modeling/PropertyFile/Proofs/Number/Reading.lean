import Mathlib.Tactic.Linarith
import PropertyFile.Proofs.Number.Texts

namespace PropertyFile.Number

/-- A quotient that is at most half a unit away from an integer rounds to it, at just half a unit if
the integer is even. -/
theorem roundHalfEven_of_near {n d q : Nat} {w : ℚ} (hd : 0 < d) (hw : (n : ℚ) = w * d)
    (hlow : 2 * (q : ℚ) ≤ 2 * w + 1) (hhigh : 2 * w ≤ 2 * q + 1)
    (htie : 2 * w = 2 * q + 1 ∨ 2 * w + 1 = 2 * q → q % 2 = 0) : roundHalfEven n d = q := by
  have hpos : (0 : ℚ) < d := Nat.cast_pos.mpr hd
  refine roundHalfEven_eq hd ?_ ?_ fun h ↦ htie (h.imp (fun h ↦ ?_) fun h ↦ ?_)
  · have h := mul_le_mul_of_nonneg_right hlow hpos.le
    rw [← Nat.cast_le (α := ℚ)]
    push_cast
    rw [hw]
    linarith
  · have h := mul_le_mul_of_nonneg_right hhigh hpos.le
    rw [← Nat.cast_le (α := ℚ)]
    push_cast
    rw [hw]
    linarith
  · have h := congrArg (Nat.cast (R := ℚ)) h
    push_cast at h
    rw [hw] at h
    exact mul_right_cancel₀ hpos.ne' (by linarith)
  · have h := congrArg (Nat.cast (R := ℚ)) h
    push_cast at h
    rw [hw] at h
    exact mul_right_cancel₀ hpos.ne' (by linarith)

theorem log2_bounds {n : Nat} (hn : n ≠ 0) :
    (2 : ℚ) ^ (n.log2 : Int) ≤ n ∧ (n : ℚ) < 2 ^ (n.log2 + 1 : Int) := by
  constructor
  · rw [zpow_natCast]
    exact_mod_cast Nat.log2_self_le hn
  · rw [← Nat.cast_succ, zpow_natCast]
    exact_mod_cast Nat.lt_log2_self

namespace Format

variable (f : Format) {m : Nat} {e : Int}

/-- The leading digit of a quotient decides which place is its last. -/
theorem placeOf_spec {num den : Nat} (hnum : num ≠ 0) (hden : den ≠ 0) :
    ∃ l : Int, f.placeOf num den = max f.minExponent (l - f.fractionBits) ∧
      (2 : ℚ) ^ l ≤ (num : ℚ) / den ∧ (num : ℚ) / den < 2 ^ (l + 1) := by
  obtain ⟨hnlow, hnhigh⟩ := log2_bounds hnum
  obtain ⟨hdlow, hdhigh⟩ := log2_bounds hden
  have hpos : (0 : ℚ) < den := Nat.cast_pos.mpr (Nat.pos_of_ne_zero hden)
  obtain ⟨k, hk⟩ : ∃ k : Int, (num.log2 : Int) - den.log2 = k := ⟨_, rfl⟩
  have hlow : (2 : ℚ) ^ (k - 1) ≤ (num : ℚ) / den := by
    rw [le_div_iff₀ hpos]
    calc (2 : ℚ) ^ (k - 1) * den ≤ 2 ^ (k - 1) * 2 ^ (den.log2 + 1 : Int) :=
          mul_le_mul_of_nonneg_left hdhigh.le (by positivity)
      _ = 2 ^ (num.log2 : Int) := by
          rw [← zpow_add₀ two_ne_zero]
          congr 1
          omega
      _ ≤ num := hnlow
  have hhigh : (num : ℚ) / den < 2 ^ (k + 1) := by
    rw [div_lt_iff₀ hpos]
    calc (num : ℚ) < 2 ^ (num.log2 + 1 : Int) := hnhigh
      _ = 2 ^ (k + 1) * 2 ^ (den.log2 : Int) := by
          rw [← zpow_add₀ two_ne_zero]
          congr 1
          omega
      _ ≤ 2 ^ (k + 1) * den := mul_le_mul_of_nonneg_left hdlow (by positivity)
  have hbelow : num * 2 ^ (-k).toNat < den * 2 ^ k.toNat ↔ (num : ℚ) / den < 2 ^ k := by
    have hscale : (0 : ℚ) < 2 ^ (-k).toNat := by positivity
    have hmove : (den : ℚ) * 2 ^ k.toNat = 2 ^ k * den * 2 ^ (-k).toNat := by
      rw [← zpow_mul_pow_toNat (b := 2) two_ne_zero k]
      ring
    rw [div_lt_iff₀ hpos, ← Nat.cast_lt (α := ℚ)]
    push_cast
    rw [hmove, mul_lt_mul_iff_of_pos_right hscale]
  rw [placeOf, hk]
  simp only [Nat.pow_eq]
  by_cases h : num * 2 ^ (-k).toNat < den * 2 ^ k.toNat
  · refine ⟨k - 1, ?_, hlow, ?_⟩
    · rw [if_pos h]
      congr 1
      omega
    · rw [Int.sub_add_cancel]
      exact hbelow.mp h
  · refine ⟨k, ?_, ?_, hhigh⟩
    · rw [if_neg h, Int.sub_zero]
    · rw [hbelow] at h
      exact not_lt.mp h

theorem magnitude_of_near {num den q : Nat} {p : Int} {w : ℚ} (hnum : num ≠ 0) (hden : den ≠ 0)
    (hplace : f.placeOf num den = p) (hw : (num : ℚ) / den = w * 2 ^ p)
    (hlow : 2 * (q : ℚ) ≤ 2 * w + 1) (hhigh : 2 * w ≤ 2 * q + 1)
    (htie : 2 * w = 2 * q + 1 ∨ 2 * w + 1 = 2 * q → q % 2 = 0) :
    f.magnitude num den = min f.infinity ((p - f.minExponent).toNat * f.fractions + q) := by
  have hpos : (0 : ℚ) < den := Nat.cast_pos.mpr (Nat.pos_of_ne_zero hden)
  have hround : roundHalfEven (num * 2 ^ (-p).toNat) (den * 2 ^ p.toNat) = q := by
    refine roundHalfEven_of_near
      (Nat.mul_pos (Nat.pos_of_ne_zero hden) (Nat.two_pow_pos _)) ?_ hlow hhigh htie
    have hpow := zpow_mul_pow_toNat (b := 2) two_ne_zero p
    rw [div_eq_iff hpos.ne'] at hw
    push_cast
    rw [← hpow, hw]
    ring
  simp only [magnitude, hnum, if_false, hplace, scaleBy, Int.neg_neg, Nat.pow_eq, hround]

theorem Within.scaled {w : ℚ} (h : f.Within m e (w * 2 ^ e)) :
    ((4 * m - f.gap m e : Nat) : ℚ) ≤ 4 * w ∧ 4 * w ≤ 4 * m + 2 ∧
      (4 * w = ((4 * m - f.gap m e : Nat) : ℚ) ∨ 4 * w = 4 * m + 2 → m % 2 = 0) := by
  have hunit : (0 : ℚ) < 2 ^ (e - 2) := by positivity
  have hmove : w * 2 ^ e = 4 * w * 2 ^ (e - 2) := by
    have hpow : (2 : ℚ) ^ e = 2 ^ (2 : Int) * 2 ^ (e - 2) := by
      rw [← zpow_add₀ two_ne_zero]
      congr 1
      omega
    rw [hpow]
    ring
  obtain ⟨hlow, hhigh, hclosed⟩ := h
  rw [hmove] at hlow hhigh hclosed
  refine ⟨le_of_mul_le_mul_right hlow hunit, ?_, fun h ↦ hclosed (h.imp (fun h ↦ ?_) fun h ↦ ?_)⟩
  · have h := le_of_mul_le_mul_right hhigh hunit
    push_cast at h
    exact h
  · rw [h]
  · rw [h]
    push_cast
    rfl

theorem two_zpow_add_fractionBits (e : Int) :
    (2 : ℚ) ^ (e + f.fractionBits) = f.fractions * 2 ^ e := by
  rw [zpow_add₀ two_ne_zero, zpow_natCast, fractions_eq, mul_comm]
  push_cast
  rfl

/-- Just below a power of two a quotient has a smaller exponent, and it rounds up to the power. -/
theorem magnitude_below_power {num den : Nat} {w : ℚ} (hnum : num ≠ 0) (hden : den ≠ 0)
    (he : f.minExponent < e) (hw : (num : ℚ) / den = w * 2 ^ e)
    (hlow : 4 * (f.fractions : ℚ) ≤ 4 * w + 1) (hhigh : w < f.fractions) :
    f.magnitude num den = min f.infinity (f.pattern f.fractions e) := by
  obtain ⟨l, hplace, hl, hl'⟩ := f.placeOf_spec hnum hden
  rw [hw] at hl hl'
  have hunit : (0 : ℚ) < 2 ^ e := by positivity
  have hone : (1 : ℚ) ≤ f.fractions := by exact_mod_cast f.fractions_pos
  have hup : l < e + f.fractionBits := by
    refine (zpow_lt_zpow_iff_right₀ (one_lt_two (α := ℚ))).mp (hl.trans_lt ?_)
    rw [two_zpow_add_fractionBits]
    exact mul_lt_mul_of_pos_right hhigh hunit
  have hdown : e + f.fractionBits < l + 1 + 1 := by
    refine (zpow_lt_zpow_iff_right₀ (one_lt_two (α := ℚ))).mp ?_
    rw [two_zpow_add_fractionBits, zpow_add_one₀ two_ne_zero (l + 1)]
    refine lt_of_le_of_lt ?_ (mul_lt_mul_of_pos_right hl' (two_pos (α := ℚ)))
    rw [mul_right_comm]
    exact mul_le_mul_of_nonneg_right (by linarith) hunit.le
  have hp : f.placeOf num den = e - 1 := by
    rw [hplace]
    omega
  have hw' : (num : ℚ) / den = 2 * w * 2 ^ (e - 1) := by
    rw [hw, zpow_sub_one₀ two_ne_zero]
    ring
  obtain ⟨k, hk⟩ : ∃ k : Nat, (e - f.minExponent).toNat = k + 1 :=
    ⟨(e - 1 - f.minExponent).toNat, by omega⟩
  rw [f.magnitude_of_near (q := 2 * f.fractions) hnum hden hp hw' (by push_cast; linarith)
    (by push_cast; linarith) fun _ ↦ Nat.mul_mod_right 2 _, pattern, hk,
    show (e - 1 - f.minExponent).toNat = k by omega]
  congr 1
  ring

/-- A quotient within the interval of a number rounds to its pattern. -/
theorem magnitude_of_within {num den : Nat} (hnum : num ≠ 0) (hden : den ≠ 0)
    (hc : f.Canonical m e) (h : f.Within m e ((num : ℚ) / den)) :
    f.magnitude num den = min f.infinity (f.pattern m e) := by
  obtain ⟨l, hplace, hl, hl'⟩ := f.placeOf_spec hnum hden
  obtain ⟨w, hw⟩ : ∃ w : ℚ, (num : ℚ) / den = w * 2 ^ e :=
    ⟨(num : ℚ) / den / 2 ^ e, (div_mul_cancel₀ _ (by positivity)).symm⟩
  rw [hw] at h hl hl'
  obtain ⟨hlow, hhigh, hclosed⟩ := h.scaled f
  have hunit : (0 : ℚ) < 2 ^ e := by positivity
  have hge := hc.exponent_ge
  have hmantissa : (m : ℚ) + 1 ≤ 2 * f.fractions := by exact_mod_cast hc.mantissa_lt
  have hreach : 4 * (m : ℚ) ≤ ((4 * m - f.gap m e : Nat) : ℚ) + f.gap m e := by
    exact_mod_cast Nat.le_add_of_sub_le (Nat.le_refl _)
  have htwo : (f.gap m e : ℚ) ≤ 2 := by exact_mod_cast f.gap_le m e
  have htop : l < e + f.fractionBits + 1 := by
    refine (zpow_lt_zpow_iff_right₀ (one_lt_two (α := ℚ))).mp (hl.trans_lt ?_)
    rw [zpow_add_one₀ two_ne_zero, two_zpow_add_fractionBits, mul_right_comm]
    exact mul_lt_mul_of_pos_right (by linarith) hunit
  by_cases hsame : e = f.minExponent ∨ e + f.fractionBits ≤ l
  · -- The last place is the exponent, and the quotient at most half of it away.
    have hp : f.placeOf num den = e := by
      rw [hplace]
      omega
    refine f.magnitude_of_near hnum hden hp hw (by linarith) (by linarith) ?_
    rintro (heq | heq)
    · exact hclosed (.inr (by linarith))
    · exact hclosed (.inl (by linarith))
  · have hbelow : w < f.fractions := by
      refine lt_of_mul_lt_mul_right (hl'.trans_le ?_) hunit.le
      rw [← two_zpow_add_fractionBits]
      exact zpow_le_zpow_right₀ one_le_two (by omega)
    have hfirst : 4 * m < 4 * f.fractions + f.gap m e := by
      rw [← Nat.cast_lt (α := ℚ)]
      push_cast
      linarith
    have hnormal := hc.normal.resolve_left fun hmin ↦ hsame (.inl hmin)
    obtain rfl : m = f.fractions := by
      have hgap := f.gap_le m e
      omega
    have hquarter : f.gap f.fractions e = 1 := if_pos ⟨rfl, by omega⟩
    rw [hquarter, Nat.cast_one] at hreach
    rw [hquarter] at hlow
    exact f.magnitude_below_power hnum hden (by omega) hw (by linarith) hbelow

theorem Within.bounds {v : ℚ} (h : f.Within m e v) (hm : m ≠ 0) (hc : f.Canonical m e)
    (he : e ≤ f.bias - f.fractionBits) :
    (2 : ℚ) ^ (f.minExponent - 1) ≤ v ∧ v < 2 ^ (f.bias + 1 : Int) := by
  obtain ⟨w, rfl⟩ : ∃ w : ℚ, v = w * 2 ^ e := ⟨v / 2 ^ e, (div_mul_cancel₀ _ (by positivity)).symm⟩
  obtain ⟨hlow, hhigh, -⟩ := h.scaled f
  have hunit : (0 : ℚ) < 2 ^ e := by positivity
  have hge := hc.exponent_ge
  constructor
  · have htwo : (2 : ℚ) ≤ ((4 * m - f.gap m e : Nat) : ℚ) := by
      have hgap := f.gap_le m e
      exact_mod_cast (by omega : 2 ≤ 4 * m - f.gap m e)
    calc (2 : ℚ) ^ (f.minExponent - 1) ≤ 2 ^ (e - 1) := zpow_le_zpow_right₀ one_le_two (by omega)
      _ = 2⁻¹ * 2 ^ e := by rw [zpow_sub_one₀ two_ne_zero, mul_comm]
      _ ≤ w * 2 ^ e := mul_le_mul_of_nonneg_right (by linarith) hunit.le
  · have hmantissa : (m : ℚ) + 1 ≤ 2 * f.fractions := by exact_mod_cast hc.mantissa_lt
    calc w * 2 ^ e < f.fractions * 2 * 2 ^ e := mul_lt_mul_of_pos_right (by linarith) hunit
      _ = 2 ^ (e + f.fractionBits + 1) := by
        rw [zpow_add_one₀ two_ne_zero, two_zpow_add_fractionBits, mul_right_comm]
      _ ≤ 2 ^ (f.bias + 1 : Int) := zpow_le_zpow_right₀ one_le_two (by omega)

theorem two_zpow_le_ten_zpow {k : Int} (hk : 0 ≤ k) : (2 : ℚ) ^ (3 * k) ≤ 10 ^ k := by
  rw [zpow_mul]
  exact zpow_le_zpow_left₀ hk (by positivity) (by norm_num)

theorem ten_zpow_le_two_zpow {k : Int} (hk : k ≤ 0) : (10 : ℚ) ^ k ≤ 2 ^ (3 * k) := by
  have h := two_zpow_le_ten_zpow (k := -k) (by omega)
  rw [Int.mul_neg, zpow_neg, zpow_neg] at h
  exact (inv_le_inv₀ (by positivity) (by positivity)).mp h

/-- A decimal in the interval of a number is read as its pattern. -/
theorem ofDecimal_of_within {d : Decimal} (hm : m ≠ 0) (hc : f.Canonical m e)
    (he : e ≤ f.bias - f.fractionBits) (h : f.Within m e d.value) (negative : Bool) :
    f.ofDecimal negative d.digits d.exponent =
      f.withSign negative (min f.infinity (f.pattern m e)) := by
  obtain ⟨hmin, hmax⟩ := h.bounds f hm hc he
  have hvalue : d.value = d.digits * 10 ^ d.exponent := rfl
  have hdigits : d.digits ≠ 0 := by
    intro hzero
    have hpos := h.pos f hm
    rw [hvalue, hzero, Nat.cast_zero, zero_mul] at hpos
    exact lt_irrefl _ hpos
  obtain ⟨hlow, hhigh⟩ := log2_bounds hdigits
  have hten : (0 : ℚ) < 10 ^ d.exponent := by positivity
  rw [ofDecimal]
  simp only [hdigits, if_false, Nat.pow_eq]
  by_cases hexp : 0 ≤ d.exponent
  · have hsize : (d.digits.log2 : Int) + 3 * d.exponent < f.bias + 1 := by
      refine (zpow_lt_zpow_iff_right₀ (one_lt_two (α := ℚ))).mp (lt_of_le_of_lt ?_ hmax)
      rw [hvalue, zpow_add₀ two_ne_zero]
      exact mul_le_mul hlow (two_zpow_le_ten_zpow hexp) (by positivity) (by positivity)
    have hpow : (10 : ℚ) ^ d.exponent.toNat = 10 ^ d.exponent := by
      rw [← zpow_natCast, Int.toNat_of_nonneg hexp]
    rw [if_pos hexp, if_neg (by omega), ofRatio,
      f.magnitude_of_within (Nat.mul_ne_zero hdigits (by positivity)) one_ne_zero hc]
    push_cast
    rwa [hpow, div_one]
  · have hsize : f.minExponent - 1 < d.digits.log2 + 1 + 3 * d.exponent := by
      refine (zpow_lt_zpow_iff_right₀ (one_lt_two (α := ℚ))).mp (lt_of_le_of_lt hmin ?_)
      rw [hvalue, zpow_add₀ two_ne_zero]
      exact mul_lt_mul hhigh (ten_zpow_le_two_zpow (by omega)) hten (by positivity)
    have hpow : (10 : ℚ) ^ (-d.exponent).toNat * 10 ^ d.exponent = 1 := by
      rw [← zpow_natCast, Int.toNat_of_nonneg (by omega), ← zpow_add₀ (by norm_num),
        Int.add_left_neg, zpow_zero]
    rw [minExponent] at hsize
    rw [if_neg hexp, if_neg (by omega), ofRatio,
      f.magnitude_of_within hdigits (by positivity) hc]
    have hquotient : (d.digits : ℚ) / ((10 ^ (-d.exponent).toNat : Nat) : ℚ) = d.value := by
      rw [div_eq_iff (by positivity), hvalue]
      push_cast
      linear_combination -(d.digits : ℚ) * hpow
    rwa [hquotient]

end Format

theorem splitSign_of_head {s : List Char} (h : s.head? ≠ some '-') (h' : s.head? ≠ some '+')
    (negative : Bool) : splitSign (signed negative s) = (negative, s) := by
  cases negative with
  | true => rfl
  | false =>
    rw [signed, if_neg Bool.false_ne_true]
    unfold splitSign
    split
    · exact (h rfl).elim
    · exact (h' rfl).elim
    · rfl

namespace Format

variable (f : Format)

theorem read?_signed (negative : Bool) (d : Decimal) : ∃ d' : Decimal, d'.value = d.value ∧
    f.read? (signed negative d.positional) =
      some (f.ofDecimal negative d'.digits d'.exponent) := by
  obtain ⟨d', hread, hvalue⟩ := d.readDecimal?_positional
  have hhead : ∀ c, isDigit c = false → d.positional.head? ≠ some c := fun c hc h ↦
    Bool.false_ne_true (hc.symm.trans (d.isDigit_of_head? h))
  refine ⟨d', hvalue, ?_⟩
  rw [read?, splitSign_of_head (hhead _ (by decide)) (hhead _ (by decide)) negative]
  dsimp only
  rw [hread]

theorem read?_render {bits m : Nat} {e : Int} {negative : Bool}
    (h : f.decode bits = .finite negative m e) (he : e ≤ f.bias - f.fractionBits) :
    f.read? (f.render (.finite negative m e)) =
      some (f.withSign negative (bits % f.signBit)) := by
  obtain ⟨hc, hpattern, hlt, -⟩ := f.decode_finite h
  obtain ⟨d, hvalue, hread⟩ := f.read?_signed negative (f.shortest .up m e)
  rw [render, hread]
  by_cases hm : m = 0
  · subst hm
    have hmin := hc.normal.resolve_right (Nat.not_le.mpr f.fractions_pos)
    rw [value_shortest_zero] at hvalue
    have hdigits : d.digits = 0 := by
      have hten : (10 : ℚ) ^ d.exponent ≠ 0 := by positivity
      exact_mod_cast (mul_eq_zero.mp hvalue).resolve_right hten
    rw [← hpattern, pattern, hmin, ofDecimal, Int.sub_self]
    simp only [hdigits, if_true, Int.toNat_zero, Nat.zero_mul, Nat.zero_add]
  · have hin := f.within_shortest (e := e) .up hm
    rw [← hvalue] at hin
    rw [f.ofDecimal_of_within hm hc he hin negative, hpattern, Nat.min_eq_right (Nat.le_of_lt hlt)]

theorem mem_render {d : Datum} {c : Char} (h : c ∈ f.render d) :
    isDigit c = true ∨ c ∈ ['-', '.', 'N', 'a', 'i', 'n', 'f'] := by
  have hsigned : ∀ {negative : Bool} {s : List Char}, c ∈ signed negative s → c = '-' ∨ c ∈ s := by
    intro negative s hc
    cases negative with
    | false => exact .inr hc
    | true => exact List.mem_cons.mp hc
  cases d with
  | nan =>
    have hmem : c = 'N' ∨ c = 'a' ∨ c = 'N' := by simpa [render] using h
    rcases hmem with rfl | rfl | rfl <;> exact .inr (by decide)
  | infinite negative =>
    rcases hsigned h with rfl | hmem
    · exact .inr (by decide)
    · exact .inr (List.mem_append_right ['-', '.', 'N', 'a'] hmem)
  | finite negative m e =>
    rcases hsigned h with rfl | hmem
    · exact .inr (by decide)
    · obtain ⟨-, hwhole, hpart, -⟩ := (f.shortest .up m e).pointed_spec
      rcases (f.shortest .up m e).positional_cases with ⟨-, heq⟩ | heq
      · exact .inl (hwhole c (heq ▸ hmem))
      · rw [heq, List.mem_append, List.mem_cons] at hmem
        rcases hmem with hmem | rfl | hmem
        · exact .inl (hwhole c hmem)
        · exact .inr (by decide)
        · exact .inl (hpart c hmem)

end Format

namespace Single

theorem exponent_le {x : Single} {negative : Bool} {m : Nat} {e : Int}
    (h : x.datum = .finite negative m e) :
    e ≤ (Format.single.bias : Int) - Format.single.fractionBits := by
  obtain ⟨hc, hpattern, hlt, -⟩ := Format.decode_finite Format.single h
  have hnormal := hc.normal
  have hbias : (Format.single.bias : Int) - Format.single.fractionBits = 104 := by decide
  rw [← hpattern, Format.pattern, fractions_eq, infinity_eq, minExponent_eq] at hlt
  rw [fractions_eq, minExponent_eq] at hnormal
  omega

/-- A number that is no NaN is read from its text. -/
theorem read?_text {x : Single} (h : x.datum ≠ .nan) : read? x.text.toList = some x := by
  rw [text, String.toList_ofList, read?]
  cases hd : x.datum with
  | nan => exact (h hd).elim
  | infinite negative =>
    obtain ⟨hmod, hsign⟩ := Format.decode_infinite Format.single hd
    have hread : Format.single.read? (Format.single.render (.infinite negative)) =
        some (Format.single.withSign negative Format.single.infinity) := by
      cases negative <;> decide
    rw [hread, Option.map_some, ← hmod, hsign, ← eq_withSign]
  | finite negative m e =>
    obtain ⟨-, -, -, hsign⟩ := Format.decode_finite Format.single hd
    rw [Format.read?_render Format.single hd (exponent_le hd), Option.map_some, hsign,
      ← eq_withSign]

end Single

end PropertyFile.Number
