import Mathlib.Logic.Function.Basic
import PropertyFile.Proofs.Tree.Search

namespace PropertyFile

namespace NameHash

/-- The multiplier is odd, so it has an inverse on 32-bit words. -/
def inverse : UInt32 := 2390421439

theorem inverse_mul_multiplier : inverse * multiplier = 1 := by decide

theorem step_injective (unit : UInt32) : Function.Injective fun hash ↦ step hash unit := by
  intro h h' heq
  have hmul : multiplier * h = multiplier * h' := (UInt32.add_right_inj unit).mp heq
  calc h = inverse * (multiplier * h) := by
        rw [← UInt32.mul_assoc, inverse_mul_multiplier, UInt32.one_mul]
    _ = inverse * (multiplier * h') := by rw [hmul]
    _ = h' := by rw [← UInt32.mul_assoc, inverse_mul_multiplier, UInt32.one_mul]

theorem foldl_injective {α : Type} {f : UInt32 → α → UInt32}
    (hf : ∀ a, Function.Injective fun hash ↦ f hash a) (as : List α) :
    Function.Injective fun hash ↦ as.foldl f hash := by
  induction as with
  | nil => exact fun _ _ heq ↦ heq
  | cons a as ih => exact ih.comp (hf a)

theorem extendChar_injective (c : Char) : Function.Injective fun hash ↦ extendChar hash c :=
  foldl_injective step_injective (units (foldCase c))

theorem extend_injective (text : String) : Function.Injective fun hash ↦ extend hash text :=
  foldl_injective extendChar_injective text.toList

end NameHash

open NameHash

theorem pairHash_eq_iff (s s' name : String) :
    pairHash s name = pairHash s' name ↔ nameHash s = nameHash s' := by
  rw [pairHash, pairHash, (extend_injective name).eq_iff,
    (extend_injective separator.toString).eq_iff]

namespace Vocabulary

theorem of_getElem?_candidates {v : Vocabulary} {groups : List String} {hash : UInt32}
    {gw : String × String} (h : (v.candidates groups)[hash]? = some gw) :
    gw.1 ∈ groups ∧ gw.2 ∈ v.words ∧ pairHash gw.1 gw.2 = hash := by
  rw [getElem?_candidates, Dictionary.findPair?_eq_find?] at h
  have hmem := List.mem_of_find?_eq_some h
  obtain ⟨g, hg, hpair⟩ := List.mem_flatMap.mp hmem
  obtain ⟨w, hw, rfl⟩ := List.mem_map.mp hpair
  have hhash := List.find?_some h
  exact ⟨hg, hw, of_decide_eq_true hhash⟩

theorem exists_candidate (v : Vocabulary) {groups : List String} {g w : String} (hg : g ∈ groups)
    (hw : w ∈ v.words) : ∃ gw, (v.candidates groups)[pairHash g w]? = some gw := by
  rw [getElem?_candidates, Dictionary.findPair?_eq_find?, ← Option.isSome_iff_exists,
    List.find?_isSome]
  exact ⟨(g, w), List.mem_flatMap_of_mem hg (List.mem_map_of_mem hw), decide_eq_true rfl⟩

end Vocabulary

/-- Seeds stay apart under every text, so a property name keeps the hashes of sections apart that
are different, and no others. A group loses a word to another group, under the same word, only if
the names of the two have one hash. -/
theorem pairHash_separates : (∀ text, Function.Injective fun seed ↦ extend seed text) ∧
    (∀ s s' name, pairHash s name = pairHash s' name ↔ nameHash s = nameHash s') ∧
    ∀ (v : Vocabulary) (groups : List String), ∀ g ∈ groups, ∀ w ∈ v.words,
      ∃ gw, (v.candidates groups)[pairHash g w]? = some gw ∧ gw.1 ∈ groups ∧
        (gw.2 = w → nameHash gw.1 = nameHash g) := by
  refine ⟨extend_injective, pairHash_eq_iff, fun v groups g hg w hw ↦ ?_⟩
  obtain ⟨gw, hgw⟩ := v.exists_candidate hg hw
  obtain ⟨hmem, -, hhash⟩ := Vocabulary.of_getElem?_candidates hgw
  refine ⟨gw, hgw, hmem, fun hword ↦ ?_⟩
  rw [hword] at hhash
  exact (pairHash_eq_iff gw.1 g w).mp hhash

theorem caseGroups_compete : nameHash "Beam" = nameHash "BEAM" ∧
    pairHash "Beam" "p-life" = pairHash "BEAM" "p-life" ∧
    "BEAM" ∈ ["Beam", "BEAM"] ∧ "p-life" ∈ (Vocabulary.ofWords ["p-life"]).words ∧
    ∃ gw, ((Vocabulary.ofWords ["p-life"]).candidates ["Beam", "BEAM"])[
        pairHash "BEAM" "p-life"]? = some gw ∧ gw.1 ∈ ["Beam", "BEAM"] ∧
      (gw.2 = "p-life" → nameHash gw.1 = nameHash "BEAM") := by
  have hsame : nameHash "Beam" = nameHash "BEAM" := by decide
  have hword : "p-life" ∈ (Vocabulary.ofWords ["p-life"]).words := by decide
  have hgroup : "BEAM" ∈ ["Beam", "BEAM"] := by decide
  exact ⟨hsame, (pairHash_separates.2.1 _ _ _).mpr hsame, hgroup, hword,
    pairHash_separates.2.2 _ _ _ hgroup _ hword⟩

end PropertyFile
