import PropertyFile.Number.Binary

namespace PropertyFile.Number

namespace Format

theorem magnitude_le (f : Format) (num den : Nat) : f.magnitude num den ≤ f.infinity := by
  rw [magnitude]
  split
  · exact Nat.zero_le _
  · exact Nat.min_le_left _ _

/-- What a positive integer rounds to is positive: its last place is far above the smallest. -/
theorem magnitude_pos {n : Nat} (h : n ≠ 0) : 0 < double.magnitude n 1 := by
  have hmin : double.minExponent = -1074 := by decide
  have hbits : double.fractionBits = 52 := rfl
  have hfractions : double.fractions = 4503599627370496 := by decide
  have hinfinity : double.infinity = 9218868437227405312 := by decide
  have hplace : -53 ≤ double.placeOf n 1 := by
    have hlog : Nat.log2 1 = 0 := by decide
    simp only [placeOf, hmin, hbits, hlog]
    split <;> omega
  rw [magnitude, if_neg h]
  simp only [hmin, hfractions, hinfinity]
  omega

end Format

namespace Double

theorem signBit_eq : Format.double.signBit = 9223372036854775808 := by decide

theorem infinity_eq : Format.double.infinity = 9218868437227405312 := by decide

theorem toNat_ofInt (n : Int) :
    (ofInt n).bits.toNat = Format.double.withSign (n < 0) (Format.double.magnitude n.natAbs 1) := by
  have hle := Format.double.magnitude_le n.natAbs 1
  rw [infinity_eq] at hle
  rw [ofInt, ofNatBits, Format.ofInt, Format.ofRatio, Nat.toUInt64]
  refine UInt64.toNat_ofNat_of_lt' ?_
  rw [Format.withSign, signBit_eq]
  show _ < 18446744073709551616
  split <;> omega

theorem ofInt_mod (n : Int) : (ofInt n).bits.toNat % Format.double.signBit =
    Format.double.magnitude n.natAbs 1 := by
  have hle := Format.double.magnitude_le n.natAbs 1
  rw [infinity_eq] at hle
  rw [toNat_ofInt, Format.withSign, signBit_eq]
  split <;> omega

theorem isNaN_of_mod_le {x : Double}
    (h : x.bits.toNat % Format.double.signBit ≤ Format.double.infinity) : x.isNaN = false := by
  rw [isNaN, datum, Format.decode]
  simp only [Nat.not_lt.mpr h, if_false]
  split
  · rfl
  · split <;> rfl

theorem isNaN_ofInt (n : Int) : (ofInt n).isNaN = false := by
  refine isNaN_of_mod_le ?_
  rw [ofInt_mod]
  exact Format.double.magnitude_le _ _

theorem isNaN_of_isZero {x : Double} (h : x.isZero = true) : x.isNaN = false := by
  refine isNaN_of_mod_le ?_
  rw [isZero, beq_iff_eq] at h
  rw [h]
  exact Nat.zero_le _

theorem isZero_zero : zero.isZero = true := by decide

theorem ofInt_eq_zero {n : Int} (h : (ofInt n).isZero = true) : ofInt n = zero := by
  rw [isZero, beq_iff_eq, ofInt_mod] at h
  have hn : n.natAbs = 0 := Decidable.byContradiction fun hne ↦ by
    have hpos := Format.magnitude_pos hne
    omega
  obtain rfl := Int.natAbs_eq_zero.mp hn
  decide

end Double

end PropertyFile.Number
