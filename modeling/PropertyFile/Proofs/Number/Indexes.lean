import PropertyFile.Proofs.Number.Shortest

namespace PropertyFile.Number

theorem paddedDigits_eq {n : Nat} (hn : n ≠ 0) (k : Nat) :
    paddedDigits n k = digitChars (n * 10 ^ k) := by
  induction k with
  | zero => rw [paddedDigits, List.replicate_zero, List.append_nil, Nat.pow_zero, Nat.mul_one]
  | succ k ih =>
    have hpos : 0 < n * 10 ^ k := Nat.mul_pos (Nat.pos_of_ne_zero hn) (Nat.pow_pos (by decide))
    have hdigit := Nat.toDigits_append_toDigits (b := 10) (d := 0) (by decide) hpos (by decide)
    have hzero : Nat.toDigits 10 0 = ['0'] := rfl
    rw [hzero, Nat.add_zero] at hdigit
    rw [paddedDigits] at ih ⊢
    rw [List.replicate_succ', ← List.append_assoc, ih, Nat.pow_succ, ← Nat.mul_assoc,
      Nat.mul_comm _ 10]
    exact hdigit

theorem signed_digitChars (i : Int) :
    String.ofList (signed (i < 0) (digitChars i.natAbs)) = toString i := by
  cases i with
  | ofNat n =>
    have hneg : decide (Int.ofNat n < 0) = false :=
      decide_eq_false (Int.not_lt.mpr (Int.natCast_nonneg n))
    rw [hneg]
    rfl
  | negSucc n =>
    have htext : toString (Int.negSucc n) = "-" ++ String.ofList (digitChars (n + 1)) := rfl
    rw [decide_eq_true (Int.negSucc_lt_zero n), htext]
    apply String.toList_inj.mp
    rw [String.toList_append, String.toList_ofList (l := digitChars (n + 1)), String.toList_ofList]
    rfl

theorem readInt?_toString (i : Int) : readInt? (toString i).toList = some i := by
  have htext : (toString i).toList = signed (i < 0) (paddedDigits i.natAbs 0) := by
    rw [← signed_digitChars, String.toList_ofList, paddedDigits, List.replicate_zero,
      List.append_nil]
  rw [htext, readInt?_signed, Nat.pow_zero, Nat.mul_one]
  simp only [decide_eq_true_eq]
  exact congrArg some (by split <;> omega)

theorem readWithin?_toString {low high i : Int} (hlow : low ≤ i) (hhigh : i ≤ high) :
    readWithin? low high (toString i).toList = some i := by
  rw [readWithin?, readInt?_toString, Option.bind_some, if_pos ⟨hlow, hhigh⟩]

namespace Double

theorem lt_or_eq_limit {i : Int} (h : i.natAbs ≤ 9007199254740992) :
    i.natAbs < 9007199254740992 ∨ i = 9007199254740992 ∨ i = -9007199254740992 := by
  omega

theorem toInt?_ofInt_of_le {i : Int} (h : i.natAbs ≤ 9007199254740992) :
    (ofInt i).toInt? = some i := by
  rcases lt_or_eq_limit h with hlt | rfl | rfl
  · exact toInt?_ofInt_of_lt hlt
  · decide
  · decide

theorem text_ofInt {i : Int} (h : i.natAbs ≤ 9007199254740992) : (ofInt i).text = toString i := by
  rcases lt_or_eq_limit h with hlt | rfl | rfl
  · by_cases hi : i = 0
    · subst hi
      decide
    · obtain ⟨m, e, hrounds, he⟩ := rounds_small (Int.natAbs_ne_zero.mpr hi) hlt
      obtain ⟨c, g, hshortest, hg, hc⟩ := hrounds.shortest_eq .up
      have heq := hrounds.eq_of_contains he hc
      have hne : c ≠ 0 := by
        rintro rfl
        rw [Nat.zero_mul] at heq
        exact hi (Int.natAbs_eq_zero.mp heq.symm)
      have hbits : ofInt i =
          ofNatBits (Format.double.withSign (i < 0) (Format.double.pattern m e)) := by
        rw [ofInt, Format.ofInt, Format.ofRatio, hrounds.magnitude_eq]
      rw [text, hbits, datum_ofNatBits hrounds.canonical (pattern_lt hrounds.canonical (by omega)),
        Format.render, hshortest, Decimal.positional_integer c hg, paddedDigits_eq hne, heq]
      exact signed_digitChars i
  · decide
  · decide

theorem magnitude_lt {n n' : Nat} (hlt : n < n') (h : n' < 9007199254740992) :
    Format.double.magnitude n 1 < Format.double.magnitude n' 1 := by
  obtain ⟨m', e', h', he'⟩ := rounds_small (by omega) h
  have hexact' := h'.exact he'
  have hnormal' := h'.normal
  have hlt' := h'.canonical.mantissa_lt
  rw [fractions_eq] at hlt'
  by_cases hn : n = 0
  · have hzero : Format.double.magnitude 0 1 = 0 := rfl
    rw [hn, hzero, h'.magnitude_eq, Format.pattern]
    omega
  obtain ⟨m, e, hr, he⟩ := rounds_small hn (Nat.lt_trans hlt h)
  have hexact := hr.exact he
  have hnormal := hr.normal
  have hmantissa := hr.canonical.mantissa_lt
  rw [fractions_eq] at hmantissa
  have hlow := hr.low
  -- The larger integer is moved up by no more bits.
  have hshift : (-e').toNat ≤ (-e).toNat := by
    refine Nat.le_of_not_lt fun hmore ↦ ?_
    have hpow : 2 ^ ((-e).toNat + 1) ≤ 2 ^ (-e').toNat := Nat.pow_le_pow_right (by decide) hmore
    have hge := Nat.mul_le_mul_left n' hpow
    rw [Nat.pow_succ] at hge
    have hmove := Nat.mul_lt_mul_of_pos_right hlt (Nat.two_pow_pos (-e).toNat)
    rw [← Nat.mul_assoc] at hge
    omega
  rw [hr.magnitude_eq, h'.magnitude_eq, Format.pattern, Format.pattern, fractions_eq,
    minExponent_eq]
  by_cases hsame : e = e'
  · subst hsame
    have hmove := Nat.mul_lt_mul_of_pos_right hlt (Nat.two_pow_pos (-e).toNat)
    omega
  · omega

theorem magnitude_lt_limit {n : Nat} (h : n < 9007199254740992) :
    Format.double.magnitude n 1 < Format.double.magnitude 9007199254740992 1 := by
  have hlimit : Format.double.magnitude 9007199254740992 1 = 1076 * 4503599627370496 := by
    decide
  rw [hlimit]
  by_cases hn : n = 0
  · subst hn
    decide
  · obtain ⟨m, e, hr, he⟩ := rounds_small hn h
    have hmantissa := hr.canonical.mantissa_lt
    have hlow := hr.low
    rw [fractions_eq] at hmantissa
    rw [hr.magnitude_eq, Format.pattern, fractions_eq, minExponent_eq]
    omega

theorem magnitude_strictMono {n n' : Nat} (hlt : n < n') (h : n' ≤ 9007199254740992) :
    Format.double.magnitude n 1 < Format.double.magnitude n' 1 := by
  rcases Nat.lt_or_eq_of_le h with hsmall | rfl
  · exact magnitude_lt hlt hsmall
  · exact magnitude_lt_limit hlt

theorem rank_ofInt (i : Int) : (ofInt i).rank =
    if i < 0 then 9223372036854775807 - Format.double.magnitude i.natAbs 1
    else 9223372036854775808 + Format.double.magnitude i.natAbs 1 := by
  have hle := Format.double.magnitude_le i.natAbs 1
  rw [infinity_eq] at hle
  rw [rank, toNat_ofInt, Format.withSign, signBit_eq]
  by_cases hi : i < 0
  · rw [decide_eq_true hi, if_pos rfl, if_pos hi]
    rw [if_neg (by omega)]
    omega
  · rw [decide_eq_false hi, if_neg Bool.false_ne_true, if_neg hi]
    rw [if_pos (by omega)]
    omega

theorem rank_ofInt_lt {i j : Int} (hlt : i < j) (hi : i.natAbs ≤ 9007199254740992)
    (hj : j.natAbs ≤ 9007199254740992) : (ofInt i).rank < (ofInt j).rank := by
  have hle := Format.double.magnitude_le i.natAbs 1
  rw [infinity_eq] at hle
  rw [rank_ofInt, rank_ofInt]
  by_cases hneg : j < 0
  · have hmag : Format.double.magnitude j.natAbs 1 < Format.double.magnitude i.natAbs 1 :=
      magnitude_strictMono (by omega) hi
    rw [if_pos (Int.lt_trans hlt hneg), if_pos hneg]
    omega
  · rw [if_neg hneg]
    by_cases hneg' : i < 0
    · rw [if_pos hneg']
      omega
    · have hmag : Format.double.magnitude i.natAbs 1 < Format.double.magnitude j.natAbs 1 :=
        magnitude_strictMono (by omega) hj
      rw [if_neg hneg']
      omega

end Double

end PropertyFile.Number
