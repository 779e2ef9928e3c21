import Mathlib.Data.Nat.Bitwise
import PropertyFile.Inibin.Decode
import PropertyFile.Inibin.Encode

namespace PropertyFile.Inibin

def bitsNumber (bits : List Bool) : Nat := bits.foldr (fun b n ↦ b.toNat + 2 * n) 0

theorem testBit_bitsNumber (bits : List Bool) (i : Nat) :
    (bitsNumber bits).testBit i = bits.getD i false := by
  induction bits generalizing i with
  | nil => simp only [bitsNumber, List.foldr_nil, Nat.zero_testBit, List.getD_nil]
  | cons b bits ih =>
    have hn : bitsNumber (b :: bits) = b.toNat + 2 * bitsNumber bits := rfl
    rw [hn]
    cases i with
    | zero =>
      rw [Nat.testBit_zero, List.getD_cons_zero]
      cases b <;> simp only [Bool.toNat_false, Bool.toNat_true, decide_eq_true_eq,
        decide_eq_false_iff_not] <;> omega
    | succ i =>
      have hdiv : (b.toNat + 2 * bitsNumber bits) / 2 = bitsNumber bits := by
        have hb := b.toNat_lt
        omega
      rw [Nat.testBit_succ, hdiv, ih, List.getD_cons_succ]

theorem bits_packByte (l : List Bool) :
    bits (packByte l) = (List.range 8).map fun i ↦ l.getD i false := by
  refine List.map_congr_left fun i hi ↦ ?_
  have h8 := List.mem_range.mp hi
  have hmod : (packByte l).toNat = bitsNumber l % 2 ^ 8 := rfl
  rw [hmod, Nat.testBit_mod_two_pow, testBit_bitsNumber]
  simp only [h8, decide_true, Bool.true_and]

theorem length_bits (b : UInt8) : (bits b).length = 8 := by
  simp only [bits, List.length_map, List.length_range]

theorem take_bits_packByte {l : List Bool} (h : l.length ≤ 8) :
    (bits (packByte l)).take l.length = l := by
  rw [bits_packByte]
  refine List.ext_getElem ?_ fun i hi hl ↦ ?_
  · simp only [List.length_take, List.length_map, List.length_range]
    omega
  · simp only [List.getElem_take, List.getElem_map, List.getElem_range,
      List.getD_eq_getElem l false hl]

theorem packFrom_eq (n : Nat) (l : List Bool) (hn : l.length ≤ n) (done : List UInt8) :
    packFrom done l = done.reverse ++ pack l := by
  induction n generalizing l done with
  | zero =>
    obtain rfl := List.eq_nil_of_length_eq_zero (Nat.le_zero.mp hn)
    simp only [pack, packFrom, List.reverse_nil, List.append_nil]
  | succ n ih =>
    cases l with
    | nil => simp only [pack, packFrom, List.reverse_nil, List.append_nil]
    | cons b l =>
      have hl : (l.drop 7).length ≤ n := by
        rw [List.length_cons] at hn
        rw [List.length_drop]
        omega
      rw [pack, packFrom, packFrom, ih _ hl, ih _ hl [packByte ((b :: l).take 8)]]
      simp only [List.reverse_cons, List.reverse_nil, List.nil_append, List.append_assoc]

theorem pack_nil : pack [] = [] := by simp only [pack, packFrom, List.reverse_nil]

theorem pack_cons (b : Bool) (l : List Bool) :
    pack (b :: l) = packByte ((b :: l).take 8) :: pack ((b :: l).drop 8) := by
  rw [pack, packFrom]
  exact packFrom_eq _ _ (Nat.le_refl _) [packByte ((b :: l).take 8)]

theorem length_pack (n : Nat) (l : List Bool) (hn : l.length ≤ n) :
    (pack l).length = (l.length + 7) / 8 := by
  induction n generalizing l with
  | zero =>
    obtain rfl := List.eq_nil_of_length_eq_zero (Nat.le_zero.mp hn)
    rw [pack_nil]
    rfl
  | succ n ih =>
    cases l with
    | nil =>
      rw [pack_nil]
      rfl
    | cons b l =>
      rw [pack_cons, List.length_cons, ih _ (by
        simp only [List.length_drop, List.length_cons] at hn ⊢
        omega)]
      simp only [List.length_drop, List.length_cons]
      omega

theorem take_bits_pack (n : Nat) (l : List Bool) (hn : l.length ≤ n) :
    ((pack l).flatMap bits).take l.length = l := by
  induction n generalizing l with
  | zero =>
    obtain rfl := List.eq_nil_of_length_eq_zero (Nat.le_zero.mp hn)
    rfl
  | succ n ih =>
    cases l with
    | nil => rfl
    | cons b l =>
      have hrest := ih ((b :: l).drop 8) (by
        simp only [List.length_drop, List.length_cons] at hn ⊢
        omega)
      have hfirst := take_bits_packByte (l := (b :: l).take 8) (by
        rw [List.length_take]
        omega)
      rw [pack_cons, List.flatMap_cons, List.take_append, length_bits]
      conv_rhs => rw [← List.take_append_drop 8 (b :: l)]
      congr 1
      · by_cases h8 : (b :: l).length ≤ 8
        · rwa [List.take_of_length_le h8] at hfirst ⊢
        · have hlen : ((b :: l).take 8).length = 8 := by
            rw [List.length_take]
            omega
          rw [hlen, List.take_of_length_le (length_bits _).le] at hfirst
          rw [List.take_of_length_le, hfirst]
          rw [length_bits]
          omega
      · rwa [List.length_drop] at hrest

/-- The sum of the powers of two for the numbers below `n` that satisfy `q`. -/
def flagsOf (q : Nat → Bool) (n : Nat) : Nat :=
  ((List.range n).filter q).foldr (fun i m ↦ Nat.pow 2 i + m) 0

theorem foldr_pow_add (l : List Nat) (k : Nat) :
    l.foldr (fun i m ↦ Nat.pow 2 i + m) k = l.foldr (fun i m ↦ Nat.pow 2 i + m) 0 + k := by
  induction l with
  | nil => exact (Nat.zero_add k).symm
  | cons i l ih => rw [List.foldr_cons, List.foldr_cons, ih, Nat.add_assoc]

theorem flagsOf_succ (q : Nat → Bool) (n : Nat) :
    flagsOf q (n + 1) = flagsOf q n + if q n then 2 ^ n else 0 := by
  rw [flagsOf, List.range_succ, List.filter_append, List.foldr_append, foldr_pow_add]
  cases h : q n
  · simp only [List.filter_cons, List.filter_nil, h, flagsOf, List.foldr_nil, Bool.false_eq_true,
      if_false]
  · simp only [List.filter_cons, List.filter_nil, h, flagsOf, List.foldr_cons, List.foldr_nil,
      if_true, Nat.pow_eq, Nat.add_zero]

theorem flagsOf_lt (q : Nat → Bool) (n : Nat) : flagsOf q n < 2 ^ n := by
  induction n with
  | zero => exact Nat.one_pos
  | succ n ih =>
    rw [flagsOf_succ, Nat.pow_succ]
    split <;> omega

theorem testBit_flagsOf (q : Nat → Bool) (n i : Nat) :
    (flagsOf q n).testBit i = (decide (i < n) && q i) := by
  induction n with
  | zero => exact Nat.zero_testBit i
  | succ n ih =>
    have hlt := flagsOf_lt q n
    rw [flagsOf_succ]
    rcases Nat.lt_trichotomy i n with hi | rfl | hi
    · have hs : i < n + 1 := by omega
      cases q n
      · simp only [Bool.false_eq_true, if_false, Nat.add_zero, ih, hi, hs]
      · simp only [if_true, Nat.add_comm _ (2 ^ n), Nat.testBit_two_pow_add_gt hi, ih, hi, hs]
    · have hbit : (flagsOf q i).testBit i = false := Nat.testBit_lt_two_pow hlt
      cases hq : q i
      · simp only [Bool.false_eq_true, if_false, Nat.add_zero, hbit, Bool.and_false]
      · simp only [if_true, Nat.add_comm _ (2 ^ i), Nat.testBit_two_pow_add_eq, hbit,
          Bool.not_false, Nat.lt_add_one, decide_true, Bool.and_self]
    · have hs : ¬ i < n + 1 := by omega
      have hn := flagsOf_lt q (n + 1)
      rw [flagsOf_succ] at hn
      simp only [hs, decide_false, Bool.false_and]
      exact Nat.testBit_lt_two_pow (hn.trans_le (Nat.pow_le_pow_right Nat.two_pos hi))

theorem present_flagsOf (q : Nat → Bool) : present (flagsOf q 13) = (List.range 13).filter q := by
  have hr : List.range 16 = List.range 13 ++ [13, 14, 15] := by decide
  have hlow : (List.range 13).filter (flagsOf q 13).testBit = (List.range 13).filter q := by
    refine List.filter_congr fun i hi ↦ ?_
    rw [testBit_flagsOf, decide_eq_true (List.mem_range.mp hi), Bool.true_and]
  have hhigh : [13, 14, 15].filter (flagsOf q 13).testBit = [] := by
    simp only [List.filter_cons, List.filter_nil, testBit_flagsOf, Nat.lt_irrefl, Nat.reduceLT,
      decide_false, Bool.false_and, Bool.false_eq_true, if_false]
  rw [present, hr, List.filter_append, hlow, hhigh, List.append_nil]

end PropertyFile.Inibin
