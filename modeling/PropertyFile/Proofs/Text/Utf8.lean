import Mathlib.Data.List.TakeWhile
import PropertyFile.Text.Utf8

namespace PropertyFile.Text

theorem unitsFrom_eq (n : Nat) (bytes : List UInt8) (hn : bytes.length ≤ n)
    (done : List (Option Char)) : unitsFrom done bytes = done.reverse ++ units bytes := by
  induction n generalizing bytes done with
  | zero =>
    obtain rfl := List.eq_nil_of_length_eq_zero (Nat.le_zero.mp hn)
    simp only [units, unitsFrom, List.reverse_nil, List.append_nil]
  | succ n ih =>
    cases bytes with
    | nil => simp only [units, unitsFrom, List.reverse_nil, List.append_nil]
    | cons b rest =>
      have hr : ∀ k, (rest.drop k).length ≤ n := by
        intro k
        rw [List.length_cons] at hn
        rw [List.length_drop]
        omega
      rw [units, unitsFrom, unitsFrom]
      cases headChar? (b :: rest) with
      | some c =>
        simp only
        rw [ih _ (hr _), ih _ (hr _) [some c]]
        simp only [List.reverse_cons, List.reverse_nil, List.nil_append, List.append_assoc]
      | none =>
        simp only
        rw [ih _ (hr _), ih _ (hr _) [none]]
        simp only [List.reverse_cons, List.reverse_nil, List.nil_append, List.append_assoc]

theorem units_nil : units [] = [] := by simp only [units, unitsFrom, List.reverse_nil]

theorem units_of_headChar? {b : UInt8} {rest : List UInt8} {c : Char}
    (h : headChar? (b :: rest) = some c) :
    units (b :: rest) = some c :: units (rest.drop (c.utf8Size - 1)) := by
  rw [units, unitsFrom, h]
  exact unitsFrom_eq _ _ (Nat.le_refl _) [some c]

theorem units_of_broken {b : UInt8} {rest : List UInt8} (h : headChar? (b :: rest) = none) :
    units (b :: rest) = none :: units (rest.drop (brokenTail b rest)) := by
  rw [units, unitsFrom, h]
  exact unitsFrom_eq _ _ (Nat.le_refl _) [none]

theorem headChar?_utf8EncodeChar (c : Char) (rest : List UInt8) :
    headChar? (String.utf8EncodeChar c ++ rest) = some c := by
  have hlen : (String.utf8EncodeChar c).length ≤ 4 := by
    rw [String.length_utf8EncodeChar]
    exact c.utf8Size_le_four
  rw [headChar?, List.take_append, List.take_of_length_le hlen, List.toByteArray_append]
  exact ByteArray.utf8DecodeChar?_utf8EncodeChar_append

theorem units_utf8EncodeChar (c : Char) (rest : List UInt8) :
    units (String.utf8EncodeChar c ++ rest) = some c :: units rest := by
  have h := headChar?_utf8EncodeChar c rest
  obtain ⟨b, tail, hb⟩ := List.exists_cons_of_ne_nil (String.utf8EncodeChar_ne_nil (c := c))
  have hsize : tail.length = c.utf8Size - 1 := by
    have := String.length_utf8EncodeChar c
    rw [hb, List.length_cons] at this
    omega
  rw [hb, List.cons_append] at h ⊢
  rw [units_of_headChar? h, ← hsize, List.drop_left]

theorem units_flatMap (cs : List Char) :
    units (cs.flatMap String.utf8EncodeChar) = cs.map some := by
  induction cs with
  | nil => exact units_nil
  | cons c cs ih => rw [List.flatMap_cons, units_utf8EncodeChar, ih, List.map_cons]

theorem ofBytes_flatMap (cs : List Char) :
    ofBytes (cs.flatMap String.utf8EncodeChar) = String.ofList cs := by
  rw [ofBytes, units_flatMap, List.map_map]
  exact congrArg String.ofList (List.map_id cs)

theorem ofBytes_utf8 (s : String) : ofBytes (utf8 s) = s := by
  rw [utf8, ofBytes_flatMap, String.ofList_toList]

def beforeZero (s : String) : String := .ofList (s.toList.takeWhile (· ≠ '\x00'))

theorem zero_notMem_utf8EncodeChar {c : Char} (hc : c ≠ '\x00') :
    0 ∉ String.utf8EncodeChar c := by
  have hv : c.val.toNat ≠ 0 := by
    intro h
    exact hc (Char.ext (UInt32.toNat_inj.mp h))
  intro h
  simp only [String.utf8EncodeChar] at h
  repeat' split at h
  all_goals
    simp only [List.mem_cons, List.not_mem_nil, or_false, ← UInt8.toNat_inj, UInt8.toNat_ofNat',
      UInt8.toNat_zero] at h
    omega

theorem utf8EncodeChar_zero : String.utf8EncodeChar '\x00' = [0] := by decide

/-- Cutting the bytes of a text before a zero byte cuts the text before a zero character. -/
theorem takeWhile_flatMap (cs : List Char) (rest : List UInt8) :
    (cs.flatMap String.utf8EncodeChar ++ 0 :: rest).takeWhile (· ≠ 0) =
      (cs.takeWhile (· ≠ '\x00')).flatMap String.utf8EncodeChar := by
  induction cs with
  | nil => rfl
  | cons c cs ih =>
    rw [List.flatMap_cons, List.append_assoc]
    by_cases hc : c = '\x00'
    · subst hc
      simp [utf8EncodeChar_zero]
    · have hz := zero_notMem_utf8EncodeChar hc
      rw [List.takeWhile_append_of_pos (fun b hb ↦ by
        simp only [ne_eq, decide_eq_true_eq]
        exact fun h ↦ hz (h ▸ hb)), ih, List.takeWhile_cons_of_pos (by simpa using hc),
        List.flatMap_cons]

theorem headChar?_ne_zero {b : UInt8} {rest : List UInt8} (hb : b ≠ 0) :
    headChar? (b :: rest) ≠ some '\x00' := by
  intro h
  obtain ⟨tail, ht⟩ := ByteArray.exists_of_utf8DecodeChar?_eq_some h
  have hl := congrArg (fun bytes : ByteArray ↦ bytes.data.toList) ht
  rw [utf8EncodeChar_zero] at hl
  simp at hl
  exact hb hl.1

theorem zero_notMem_units (n : Nat) (bytes : List UInt8) (hn : bytes.length ≤ n)
    (hz : 0 ∉ bytes) : some '\x00' ∉ units bytes := by
  induction n generalizing bytes with
  | zero =>
    obtain rfl := List.eq_nil_of_length_eq_zero (Nat.le_zero.mp hn)
    simp only [units_nil, List.not_mem_nil, not_false_eq_true]
  | succ n ih =>
    cases bytes with
    | nil => simp only [units_nil, List.not_mem_nil, not_false_eq_true]
    | cons b rest =>
      have hr : ∀ k, some '\x00' ∉ units (rest.drop k) := by
        intro k
        refine ih _ ?_ fun h ↦ hz (List.mem_cons_of_mem b (List.mem_of_mem_drop h))
        rw [List.length_cons] at hn
        rw [List.length_drop]
        omega
      have hb : b ≠ 0 := fun h ↦ hz (h ▸ List.mem_cons_self)
      cases hh : headChar? (b :: rest) with
      | some c =>
        rw [units_of_headChar? hh]
        intro h
        rcases List.mem_cons.mp h with hc | hc
        · exact headChar?_ne_zero hb (hc ▸ hh)
        · exact hr _ hc
      | none =>
        rw [units_of_broken hh]
        intro h
        rcases List.mem_cons.mp h with hc | hc
        · exact absurd hc (Option.some_ne_none _)
        · exact hr _ hc

theorem zero_notMem_ofBytes {bytes : List UInt8} (hz : 0 ∉ bytes) :
    '\x00' ∉ (ofBytes bytes).toList := by
  intro h
  rw [ofBytes, String.toList_ofList, List.mem_map] at h
  obtain ⟨u, hu, hc⟩ := h
  cases u with
  | none => exact absurd hc (by decide)
  | some c =>
    obtain rfl : c = '\x00' := hc
    exact zero_notMem_units _ bytes (Nat.le_refl _) hz hu

theorem beforeZero_eq_self {s : String} (h : '\x00' ∉ s.toList) : beforeZero s = s := by
  rw [beforeZero, List.takeWhile_eq_self_iff.mpr, String.ofList_toList]
  intro c hc
  simp only [ne_eq, decide_eq_true_eq]
  rintro rfl
  exact h hc

theorem length_utf8_beforeZero (s : String) : (utf8 (beforeZero s)).length ≤ (utf8 s).length := by
  have hsplit : s.toList.takeWhile (· ≠ '\x00') ++ s.toList.dropWhile (· ≠ '\x00') = s.toList :=
    List.takeWhile_append_dropWhile
  have hlen := congrArg (fun cs ↦ (cs.flatMap String.utf8EncodeChar).length) hsplit
  simp only [List.flatMap_append, List.length_append] at hlen
  rw [utf8, utf8, beforeZero, String.toList_ofList]
  omega

theorem utf8Size_le_of_headChar? {bytes : List UInt8} {c : Char} (h : headChar? bytes = some c) :
    c.utf8Size ≤ bytes.length := by
  obtain ⟨tail, ht⟩ := ByteArray.exists_of_utf8DecodeChar?_eq_some h
  have hl := congrArg (fun bytes : ByteArray ↦ bytes.data.toList.length) ht
  simp only [ByteArray.data_append, Array.toList_append, List.length_append,
    List.data_toByteArray, List.length_take, String.length_utf8EncodeChar] at hl
  omega

/-- A broken piece has at least one byte, and its replacement has three. -/
theorem length_utf8_ofBytes (bytes : List UInt8) :
    (utf8 (ofBytes bytes)).length ≤ 3 * bytes.length := by
  rw [utf8, ofBytes, String.toList_ofList, List.flatMap_map]
  induction hn : bytes.length using Nat.strong_induction_on generalizing bytes with
  | _ n ih =>
    subst hn
    cases bytes with
    | nil => simp only [units_nil, List.flatMap_nil, List.length_nil, Nat.mul_zero, Nat.le_refl]
    | cons b rest =>
      have hrest (k : Nat) := ih (rest.drop k).length
        (by rw [List.length_drop, List.length_cons]; omega) (rest.drop k) rfl
      cases hh : headChar? (b :: rest) with
      | some c =>
        have htail := hrest (c.utf8Size - 1)
        have hsize := utf8Size_le_of_headChar? hh
        have hpos := c.utf8Size_pos
        rw [units_of_headChar? hh, List.flatMap_cons, List.length_append, Option.getD_some,
          String.length_utf8EncodeChar]
        rw [List.length_cons] at hsize ⊢
        rw [List.length_drop] at htail
        omega
      | none =>
        have htail := hrest (brokenTail b rest)
        have hthree : (String.utf8EncodeChar replacement).length = 3 := by decide
        rw [units_of_broken hh, List.flatMap_cons, List.length_append, Option.getD_none, hthree,
          List.length_cons]
        rw [List.length_drop] at htail
        omega

end PropertyFile.Text
