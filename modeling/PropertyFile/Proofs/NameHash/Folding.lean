import Mathlib.Data.List.Forall2
import PropertyFile.Proofs.Dictionary.History

namespace PropertyFile

namespace NameHash

def utf16 (text : String) : List UInt32 := text.toList.flatMap units

/-- The lower case of a unit; a surrogate, which is no character, stays. -/
def foldUnit (unit : UInt32) : UInt32 :=
  if h : unit.isValidChar then (foldCase ⟨unit, h⟩).val else unit

theorem foldUnit_val (c : Char) : foldUnit c.val = (foldCase c).val := dif_pos c.valid

theorem foldUnit_surrogate {unit : UInt32} (hlow : 0xD800 ≤ unit.toNat)
    (hhigh : unit.toNat < 0xE000) : foldUnit unit = unit := by
  refine dif_neg fun hvalid ↦ ?_
  rw [UInt32.isValidChar, Nat.isValidChar] at hvalid
  omega

theorem units_of_lt {c : Char} (h : c.val < 0x10000) : units c = [c.val] := if_pos h

theorem surrogate_of_mem_units {c : Char} {unit : UInt32} (h : 0x10000 ≤ c.val)
    (hunit : unit ∈ units c) : 0xD800 ≤ unit.toNat ∧ unit.toNat < 0xE000 := by
  have hvalid := c.valid
  rw [UInt32.isValidChar, Nat.isValidChar] at hvalid
  have hsub : (c.val - 0x10000).toNat = c.val.toNat - 0x10000 := UInt32.toNat_sub_of_le _ _ h
  rw [units, if_neg (UInt32.not_lt.mpr h), List.mem_pair] at hunit
  rcases hunit with rfl | rfl
  · simp only [UInt32.toNat_add, UInt32.toNat_div, hsub, UInt32.reduceToNat]
    omega
  · simp only [UInt32.toNat_add, UInt32.toNat_mod, hsub, UInt32.reduceToNat]
    omega

theorem foldCase_lt {c : Char} (h : c.val < 0x10000) : (foldCase c).val < 0x10000 := by
  rw [foldCase]
  split
  · exact h
  · dsimp only
    split
    · next hl => exact hl
    · exact h

theorem units_foldCase (c : Char) : units (foldCase c) = (units c).map foldUnit := by
  by_cases h : c.val < 0x10000
  · rw [units_of_lt h, units_of_lt (foldCase_lt h), List.map_singleton, foldUnit_val]
  · -- a character of two units stays as it is, and so does each of the units, a surrogate
    have hle := UInt32.not_lt.mp h
    have hkeep : ∀ unit ∈ units c, foldUnit unit = unit := fun unit hunit ↦
      have hsurrogate := surrogate_of_mem_units hle hunit
      foldUnit_surrogate hsurrogate.1 hsurrogate.2
    rw [foldCase, if_pos (.inr hle), List.map_congr_left hkeep, List.map_id']

theorem extend_eq_foldl_utf16 (hash : UInt32) (text : String) :
    extend hash text = ((utf16 text).map foldUnit).foldl step hash := by
  have hchar : extendChar = fun hash c ↦ ((units c).map foldUnit).foldl step hash := by
    funext hash c
    rw [extendChar, units_foldCase]
  rw [extend, hchar, utf16, List.map_flatMap, List.foldl_flatMap]

end NameHash

open NameHash

theorem pairHash_eq_nameHash (s name : String) : pairHash s name = nameHash (s ++ "*" ++ name) :=
  (Dictionary.nameHash_pairName s name).symm

/-- The hash takes a text unit by unit, each in lower case by itself, and goes on from the hash of
its first part. So the hash of a pair is that of the text which the separator makes of it, wherever
else that text can be separated. -/
theorem hash_composes :
    (∀ seed text, extend seed text = ((utf16 text).map foldUnit).foldl step seed) ∧
    (∀ seed s t, extend seed (s ++ t) = extend (extend seed s) t) ∧
    (∀ s name, pairHash s name = nameHash (s ++ "*" ++ name)) ∧
    ∀ s name s' name' : String, s ++ "*" ++ name = s' ++ "*" ++ name' →
      pairHash s name = pairHash s' name' := by
  refine ⟨extend_eq_foldl_utf16, extend_append, pairHash_eq_nameHash, fun s name s' name' h ↦ ?_⟩
  rw [pairHash_eq_nameHash, pairHash_eq_nameHash, h]

theorem twoSeparators_compose : "Data" ++ "*" ++ "HP*Max" = "Data*HP" ++ "*" ++ "Max" ∧
    pairHash "Data" "HP*Max" = pairHash "Data*HP" "Max" := by
  have htext : "Data" ++ "*" ++ "HP*Max" = "Data*HP" ++ "*" ++ "Max" := by decide
  exact ⟨htext, hash_composes.2.2.2 _ _ _ _ htext⟩

namespace NameHash

/-- Whether `c'` is `c` or, where that is an ASCII letter, the same letter in either case. -/
def RecasedChar (c c' : Char) : Prop := c' = c ∨ c.isAlpha ∧ (c' = c.toLower ∨ c' = c.toUpper)

instance : DecidableRel RecasedChar := fun c c' ↦
  inferInstanceAs (Decidable (c' = c ∨ c.isAlpha ∧ (c' = c.toLower ∨ c' = c.toUpper)))

/-- Whether `t` is `s` with the case of some of its ASCII letters changed. -/
def Recased (s t : String) : Prop := List.Forall₂ RecasedChar s.toList t.toList

instance : DecidableRel Recased := fun s t ↦
  inferInstanceAs (Decidable (List.Forall₂ RecasedChar s.toList t.toList))

theorem val_of_isAlpha {c : Char} (h : c.isAlpha) : c.val.toNat < 128 := by
  have hletter : c.isUpper ∨ c.isLower := Bool.or_eq_true_iff.mp h
  have hlast : c.val ≤ 'z'.val := by
    rcases hletter with hupper | hlower
    · exact UInt32.le_trans (of_decide_eq_true hupper).2 (by decide)
    · have hbounds : decide ('a'.val ≤ c.val) ∧ decide (c.val ≤ 'z'.val) :=
        Bool.and_eq_true_iff.mp hlower
      exact of_decide_eq_true hbounds.2
  exact Nat.lt_of_le_of_lt (UInt32.le_iff_toNat_le.mp hlast) (by decide)

theorem letter_recased {c : Char} (h : c.isAlpha) :
    (c.toLower.isAlpha ∧ c.toLower.toLower = c.toLower) ∧
      c.toUpper.isAlpha ∧ c.toUpper.toLower = c.toLower := by
  have hascii : ∀ n < 128, (Char.ofNat n).isAlpha →
      ((Char.ofNat n).toLower.isAlpha ∧ (Char.ofNat n).toLower.toLower = (Char.ofNat n).toLower) ∧
        (Char.ofNat n).toUpper.isAlpha ∧
        (Char.ofNat n).toUpper.toLower = (Char.ofNat n).toLower := by decide
  have hc := hascii c.toNat (val_of_isAlpha h)
  rw [Char.ofNat_toNat] at hc
  exact hc h

theorem foldCase_of_isAlpha {c : Char} (h : c.isAlpha) : foldCase c = c.toLower := by
  have hlower : c.toLower.isAlpha := (letter_recased h).1.1
  have hone (l : Char) (hl : l.isAlpha) : l.val < 0x10000 :=
    UInt32.lt_iff_toNat_lt.mpr ((val_of_isAlpha hl).trans (by decide))
  have hdotted : c ≠ Text.dottedCapitalI := by
    rintro rfl
    exact absurd h (by decide)
  have hself : ¬(c = Text.dottedCapitalI ∨ 0x10000 ≤ c.val) :=
    not_or.mpr ⟨hdotted, UInt32.not_le.mpr (hone c h)⟩
  have hc : Text.lowerChar c = c.toLower := if_pos (val_of_isAlpha h)
  rw [foldCase, if_neg hself, hc]
  exact if_pos (hone c.toLower hlower)

theorem RecasedChar.foldCase_eq {c c' : Char} (h : RecasedChar c c') :
    foldCase c' = foldCase c := by
  rcases h with rfl | ⟨hc, hcase⟩
  · rfl
  obtain ⟨⟨hlower, hlowered⟩, hupper, hraised⟩ := letter_recased hc
  rcases hcase with rfl | rfl
  · rw [foldCase_of_isAlpha hc, foldCase_of_isAlpha hlower, hlowered]
  · rw [foldCase_of_isAlpha hc, foldCase_of_isAlpha hupper, hraised]

theorem Recased.extend_eq {s t : String} (h : Recased s t) (hash : UInt32) :
    extend hash s = extend hash t := by
  rw [Recased] at h
  rw [extend, extend]
  generalize s.toList = cs, t.toList = cs' at h
  induction h generalizing hash with
  | nil => rfl
  | cons hc _ ih =>
    rw [List.foldl_cons, List.foldl_cons, extendChar, extendChar, hc.foldCase_eq, ih]

end NameHash

/-- Texts that differ in the case of ASCII letters alone have one hash, from any seed and on either
side of a pair. To a dictionary they are one name: it answers the same to both, and what is
registered in one spelling is found in the other. -/
theorem hash_ignores_case {s t : String} (h : Recased s t) :
    (∀ seed, extend seed s = extend seed t) ∧
    (∀ name, pairHash s name = pairHash t name) ∧
    (∀ inSection, pairHash inSection s = pairHash inSection t) ∧
    ∀ d : Dictionary, d.get? (nameHash s) = d.get? (nameHash t) ∧
      (d.add s).get? (nameHash t) = (d.get? (nameHash s)).or (some s) := by
  have hname : nameHash s = nameHash t := h.extend_eq 0
  refine ⟨h.extend_eq, fun name ↦ ?_, fun inSection ↦ ?_, fun d ↦ ⟨by rw [hname], ?_⟩⟩
  · rw [pairHash, pairHash, hname]
  · exact h.extend_eq _
  · rw [Dictionary.get?_add, if_pos hname, hname]

def mixedName : String := "\u0130ce\u00c9-Hp"

theorem mixedName_hash : Recased mixedName "\u0130CE\u00c9-hP" ∧
    extend 7 mixedName = extend 7 "\u0130CE\u00c9-hP" ∧
    pairHash mixedName "Max" = pairHash "\u0130CE\u00c9-hP" "Max" ∧
    pairHash "Data" mixedName = pairHash "Data" "\u0130CE\u00c9-hP" ∧
    (Dictionary.empty.add mixedName).get? (nameHash "\u0130CE\u00c9-hP") = some mixedName := by
  have hcase : Recased mixedName "\u0130CE\u00c9-hP" := by decide
  obtain ⟨hseed, hsection, hname, hdictionary⟩ := hash_ignores_case hcase
  exact ⟨hcase, hseed 7, hsection "Max", hname "Data", (hdictionary .empty).2⟩

end PropertyFile
