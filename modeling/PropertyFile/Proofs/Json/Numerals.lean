import PropertyFile.Json.Standard
import PropertyFile.Proofs.Number.Texts

namespace PropertyFile

open Number

namespace Number

theorem head?_digitChars {n : Nat} (h : n ≠ 0) : (digitChars n).head? ≠ some '0' := by
  induction n using Nat.strongRecOn with
  | _ n ih =>
    rw [digitChars, Nat.toDigits_eq_if (by decide)]
    split
    · next hlt =>
      have hdigit : ∀ k < 10, k ≠ 0 → k.digitChar ≠ '0' := by decide
      exact fun hhead ↦ hdigit n hlt h (Option.some.inj hhead)
    · next hle =>
      rw [List.head?_append_of_ne_nil _ Nat.toDigits_ne_nil]
      exact ih (n / 10) (by omega) (by omega)

def Digits (ds : List Char) : Prop := ds ≠ [] ∧ ∀ c ∈ ds, isDigit c = true

theorem digits_digitChars (n : Nat) : Digits (digitChars n) :=
  ⟨Nat.toDigits_ne_nil, all_isDigit_digitChars n⟩

end Number

namespace Numeral

/-- A numeral that JSON allows: digits wherever there must be some, and a zero in front only where
it stands alone. -/
structure Proper (n : Numeral) : Prop where
  whole : Digits n.whole
  zero : n.whole.head? = some '0' → n.whole = ['0']
  part : ∀ ds ∈ n.part, Digits ds
  exponent : ∀ e ∈ n.exponent, Digits e.2

theorem proper_ofInt (i : Int) : (ofInt i).Proper where
  whole := digits_digitChars _
  zero h := by
    by_cases hi : i.natAbs = 0
    · rw [ofInt, hi]
      rfl
    · exact (head?_digitChars hi h).elim
  part := nofun
  exponent := nofun

theorem zero_pointed {d : Decimal} (hd : d.digits ≠ 0) (h : d.pointed.1.head? = some '0') :
    d.pointed.1 = ['0'] := by
  have hhead := head?_digitChars hd
  have hne : digitChars d.digits ≠ [] := Nat.toDigits_ne_nil
  rw [Decimal.pointed] at h ⊢
  dsimp only at h ⊢
  split at h
  · rw [List.head?_append_of_ne_nil _ hne] at h
    exact (hhead h).elim
  · next hneg =>
    rw [if_neg hneg]
    split at h
    · rw [List.head?_take, if_neg (by omega)] at h
      exact (hhead h).elim
    · next hk => rw [if_neg hk]

theorem proper_ofDecimal (negative : Bool) (d : Decimal) : (ofDecimal negative d).Proper := by
  rw [ofDecimal]
  dsimp only
  split
  · exact ⟨digits_digitChars 0, fun _ ↦ rfl, fun ds hds ↦ Option.some.inj hds ▸ digits_digitChars 0,
      nofun⟩
  · next hd =>
    split
    · obtain ⟨hne, hwhole, hpart, -⟩ := d.pointed_spec
      refine ⟨⟨hne, hwhole⟩, zero_pointed hd, fun ds hds ↦ ?_, nofun⟩
      obtain rfl := Option.some.inj hds
      split
      · exact digits_digitChars 0
      · next hempty => exact ⟨fun h ↦ hempty (List.isEmpty_iff.mpr h), hpart⟩
    · obtain ⟨hne, hdigits⟩ := digits_digitChars d.digits
      obtain ⟨c, cs, hcs⟩ := List.exists_cons_of_ne_nil hne
      rw [hcs] at hdigits ⊢
      refine ⟨⟨List.cons_ne_nil _ _, ?_⟩, fun h ↦ ?_, fun ds hds ↦ ?_, fun e he ↦ ?_⟩
      · exact fun c hc ↦ hdigits c (List.mem_of_mem_take hc)
      · exact congrArg (fun c ↦ [c]) (Option.some.inj h)
      · split at hds
        · cases hds
        · next hempty =>
          obtain rfl := Option.some.inj hds
          exact ⟨fun h ↦ hempty (List.isEmpty_iff.mpr h), fun c hc ↦ hdigits c (.tail _ hc)⟩
      · obtain rfl := Option.some.inj he
        exact digits_digitChars _

end Numeral

namespace Json

/-- What may follow a number: nothing that could be read as a part of it. -/
def Ends (rest : List Char) : Prop :=
  ∀ c ∈ rest.head?, isDigit c = false ∧ c ≠ '.' ∧ c ≠ 'e' ∧ c ≠ 'E'

variable {ds rest : List Char}

theorem digits_append (h : ∀ c ∈ ds, isDigit c = true)
    (hrest : ∀ c ∈ rest.head?, isDigit c = false) : digits (ds ++ rest) = (ds, rest) := by
  rw [digits, List.takeWhile_append_of_pos h, List.dropWhile_append_of_pos h]
  cases rest with
  | nil => rw [List.takeWhile_nil, List.dropWhile_nil, List.append_nil]
  | cons c rest =>
    have hc : ¬isDigit c = true := Bool.eq_false_iff.mp (hrest c rfl)
    rw [List.takeWhile_cons_of_neg hc, List.dropWhile_cons_of_neg hc, List.append_nil]

def partChars : Option (List Char) → List Char
  | some part => '.' :: part
  | none => []

def exponentChars : Option (Bool × List Char) → List Char
  | some (negative, ds) => 'e' :: (if negative then '-' else '+') :: ds
  | none => []

theorem chars_eq (n : Numeral) : n.chars =
    signed n.negative (n.whole ++ partChars n.part ++ exponentChars n.exponent) := rfl

theorem lexExponent_append {exponent : Option (Bool × List Char)}
    (h : ∀ e ∈ exponent, Digits e.2) (hrest : Ends rest) :
    lexExponent (exponentChars exponent ++ rest) = some (exponent, rest) := by
  cases exponent with
  | none =>
    cases rest with
    | nil => rfl
    | cons c rest =>
      obtain ⟨-, -, he, hE⟩ := hrest c rfl
      simp only [exponentChars, List.nil_append, lexExponent, he, hE, decide_false, Bool.or_self,
        Bool.false_eq_true, if_false]
  | some e =>
    obtain ⟨negative, ds⟩ := e
    obtain ⟨hne, hdigits⟩ := h _ rfl
    have hsign : splitSign ((if negative then '-' else '+') :: (ds ++ rest)) =
        (negative, ds ++ rest) := by cases negative <;> rfl
    simp only [exponentChars, List.cons_append, lexExponent, hsign,
      digits_append hdigits fun c hc ↦ (hrest c hc).1, List.isEmpty_iff, if_neg hne, decide_true,
      Bool.true_or, if_true]

theorem head?_exponent (exponent : Option (Bool × List Char)) (hrest : Ends rest) :
    ∀ c ∈ (exponentChars exponent ++ rest).head?, isDigit c = false ∧ c ≠ '.' := by
  cases exponent with
  | none => exact fun c hc ↦ ⟨(hrest c hc).1, (hrest c hc).2.1⟩
  | some e =>
    intro c hc
    obtain rfl := Option.some.inj hc
    decide

theorem lexPart_append {part : Option (List Char)} (h : ∀ ds ∈ part, Digits ds)
    (hrest : ∀ c ∈ rest.head?, isDigit c = false ∧ c ≠ '.') :
    lexPart (partChars part ++ rest) = some (part, rest) := by
  cases part with
  | none =>
    rw [partChars, List.nil_append]
    unfold lexPart
    split
    · exact ((hrest '.' rfl).2 rfl).elim
    · rfl
  | some ds =>
    obtain ⟨hne, hdigits⟩ := h ds rfl
    simp only [partChars, List.cons_append, lexPart,
      digits_append hdigits fun c hc ↦ (hrest c hc).1, List.isEmpty_iff, if_neg hne]

theorem lexUnsigned_append {n : Numeral} (h : n.Proper) (hrest : Ends rest) :
    lexUnsigned n.negative (n.whole ++ partChars n.part ++ exponentChars n.exponent ++ rest) =
      some (n, rest) := by
  obtain ⟨hne, hdigits⟩ := h.whole
  have hafter := head?_exponent n.exponent hrest
  have hpart : ∀ c ∈ (partChars n.part ++ (exponentChars n.exponent ++ rest)).head?,
      isDigit c = false := by
    cases n.part with
    | none => exact fun c hc ↦ (hafter c hc).1
    | some ds =>
      intro c hc
      obtain rfl := Option.some.inj hc
      decide
  have hempty : n.whole.isEmpty = false := List.isEmpty_eq_false_iff.mpr hne
  have hzero : ¬(n.whole.head? = some '0' ∧ n.whole ≠ ['0']) := fun ⟨hz, hnot⟩ ↦ hnot (h.zero hz)
  simp only [lexUnsigned, List.append_assoc, digits_append hdigits hpart, hempty, Bool.false_or,
    ← Bool.decide_and, hzero, decide_false, Bool.false_eq_true, if_false,
    lexPart_append h.part hafter, lexExponent_append h.exponent hrest, Option.bind_eq_bind,
    Option.bind_some, Option.pure_def]

/-- What is written for a numeral is read as the numeral. -/
theorem lexNumber_append {n : Numeral} (h : n.Proper) (hrest : Ends rest) :
    lexNumber (n.chars ++ rest) = some (n, rest) := by
  have hlex := lexUnsigned_append h hrest
  obtain ⟨c, cs, hc⟩ := List.exists_cons_of_ne_nil h.whole.1
  rw [chars_eq, signed]
  cases hneg : n.negative with
  | true =>
    rw [hneg] at hlex
    exact hlex
  | false =>
    rw [hneg] at hlex
    have hminus : c ≠ '-' := by
      rintro rfl
      exact absurd (h.whole.2 '-' (hc ▸ List.mem_cons_self)) (by decide)
    rw [if_neg Bool.false_ne_true, lexNumber]
    · exact hlex
    · intro rest' hstart
      rw [hc] at hstart
      exact hminus (List.cons.inj hstart).1

end Json

namespace Numeral

theorem le_foldl_digits (ds : List Char) (n : Nat) :
    n ≤ ds.foldl (fun n c ↦ 10 * n + digitValue c) n := by
  induction ds generalizing n with
  | nil => exact Nat.le_refl n
  | cons c ds ih =>
    have h := ih (10 * n + digitValue c)
    rw [List.foldl_cons]
    omega

theorem gather_eq {ds : List Char} {n : Nat}
    (h : ds.foldl (fun n c ↦ 10 * n + digitValue c) n ≤ maxGathered) :
    gather n ds = (ds.foldl (fun n c ↦ 10 * n + digitValue c) n, []) := by
  induction ds generalizing n with
  | nil => rfl
  | cons c ds ih =>
    have hroom := Nat.le_trans (le_foldl_digits ds _) h
    rw [gather, if_neg (Nat.not_lt.mpr hroom), ih h]
    rfl

/-- The numeral of an integer of 64 bits, with or without a sign, is read as that integer. -/
theorem amount?_ofInt {i : Int} (hlow : Int64.minValue.toInt ≤ i) (hhigh : i < UInt64.size) :
    (ofInt i).amount? = some (.integer i) := by
  have hmin : Int64.minValue.toInt = -9223372036854775808 := rfl
  have hmax : maxGathered = 18446744073709551615 := rfl
  have hsize : UInt64.size = 18446744073709551616 := rfl
  have hspelled : (digitChars i.natAbs).foldl (fun n c ↦ 10 * n + digitValue c) 0 = i.natAbs :=
    ofDigits_digitChars i.natAbs
  have hgather : gather 0 (digitChars i.natAbs) = (i.natAbs, []) := by
    rw [gather_eq (by omega), hspelled]
  have hinteger : integer? (decide (i < 0)) i.natAbs = some i := by
    rw [integer?]
    by_cases hneg : i < 0
    · rw [decide_eq_true hneg, if_pos rfl, if_pos (by omega)]
      exact congrArg some (by omega)
    · rw [decide_eq_false hneg, if_neg Bool.false_ne_true]
      exact congrArg some (by omega)
  simp only [ofInt, amount?, hgather, hinteger]

end Numeral

end PropertyFile
