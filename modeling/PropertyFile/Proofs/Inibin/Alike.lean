import PropertyFile.Proofs.Inibin.Decoded
import PropertyFile.Proofs.Inibin.Refusal
import PropertyFile.Proofs.Inibin.RoundTrip
import PropertyFile.Proofs.Tree.Runs

namespace PropertyFile.Inibin

variable {ps qs : List Property}

theorem unnamed_run (ps : List Property) (hash : UInt32) :
    (ps.map Property.unnamed).filter (·.hash = hash) =
      (ps.filter (·.hash = hash)).map Property.unnamed := by
  rw [List.filter_map]
  rfl

theorem perm_of_alike (h : Alike ps qs) :
    (ps.map Property.unnamed).Perm (qs.map Property.unnamed) := by
  have hsort : (ps.map Property.unnamed).mergeSort byHash =
      (qs.map Property.unnamed).mergeSort byHash := by
    refine StableSort.mergeSort_congr byHash_preorder fun a ↦ ?_
    rw [funext (tied_byHash a), unnamed_run, unnamed_run, h a.hash]
  exact (List.mergeSort_perm _ byHash).symm.trans (hsort ▸ List.mergeSort_perm _ byHash)

theorem inBlocks_of_alike (h : Alike ps qs) :
    (inBlocks ps).map stored = (inBlocks qs).map stored := by
  have hruns : inBlocks (ps.map Property.unnamed) = inBlocks (qs.map Property.unnamed) := by
    refine inBlocks_congr fun t hash ↦ ?_
    have hrun := (unnamed_run ps hash).trans ((h hash).trans (unnamed_run qs hash).symm)
    simpa only [List.filter_filter, Bool.decide_and] using
      congrArg (List.filter fun p ↦ decide (p.tag = t)) hrun
  have hmap := inBlocks_map Property.unnamed (fun _ ↦ rfl) fun _ ↦ rfl
  rw [hmap, hmap] at hruns
  have hstored := congrArg (List.map stored) hruns
  rwa [List.map_map, List.map_map] at hstored

theorem stringArea_unnamed (ps : List Property) :
    stringArea (ps.map Property.unnamed) = stringArea ps := by
  rw [stringArea, List.flatMap_map]
  rfl

theorem length_stringArea_of_alike (h : Alike ps qs) :
    (stringArea ps).length = (stringArea qs).length := by
  rw [← stringArea_unnamed ps, ← stringArea_unnamed qs]
  exact ((perm_of_alike h).flatMap_right areaPart).length_eq

theorem fits_of_alike (h : Alike ps qs) (hfit : ∀ q ∈ qs, Fits q) : ∀ p ∈ ps, Fits p := by
  intro p hp
  have hmem := (perm_of_alike h).mem_iff.mp (List.mem_map_of_mem hp)
  obtain ⟨q, hq, heq⟩ := List.mem_map.mp hmem
  have hfits : Fits q.unnamed := hfit q hq
  rw [heq] at hfits
  exact hfits

theorem count_of_alike (h : Alike ps qs) (tag : Tag) :
    (ps.filter (·.tag = tag)).length = (qs.filter (·.tag = tag)).length := by
  have hlen := ((perm_of_alike h).filter fun p ↦ decide (p.tag = tag)).length_eq
  rwa [List.filter_map, List.filter_map, List.length_map, List.length_map] at hlen

theorem isEmpty_of_alike (h : Alike ps qs) : ps.isEmpty = qs.isEmpty := by
  have hempty := (perm_of_alike h).isEmpty_eq
  rwa [List.isEmpty_map, List.isEmpty_map] at hempty

theorem layOutFrom_error {size : Nat} {done : List Entry} {e : EncodeError}
    (hfit : ∀ p ∈ ps, Fits p) (h : layOutFrom size done ps = .error e) : e = .stringsTooLarge := by
  rcases layOutFrom_eq_error h with ⟨before, p, hp, -, -⟩ | ⟨he, -⟩
  · exact absurd (hfit p hp.mem) hp.not_fits
  · exact he

theorem encode_of_fits {t : Tree} (hv : t.version = formatVersion)
    (hfit : ∀ p ∈ t.properties, Fits p)
    (hcount : ∀ tag, (t.properties.filter (·.tag = tag)).length ≤ limit) :
    encode t = if (stringArea t.properties).length ≤ limit then .ok (packed t.properties)
      else .error .stringsTooLarge := by
  split
  · next harea => exact encode_eq_ok_iff.mpr ⟨hv, hfit, harea, hcount, rfl⟩
  · next harea =>
    cases hl : layOut t.properties with
    | ok entries => exact absurd (layOut_eq_ok_iff.mp hl).2.2 harea
    | error e =>
      rw [encode_of_layOut_eq_error hv hl, layOutFrom_error hfit hl]

/-- A tree whose properties are alike to those that came from a file is written, unless its texts
are too large, and what is written is read as the properties of the file block by block. -/
theorem encode_of_alike {t : Tree} (hv : t.version = formatVersion) (hs : Sound ps)
    (h : Alike t.properties ps) :
    encode t = (if (stringArea ps).length ≤ limit then .ok (packed t.properties)
      else .error .stringsTooLarge) ∧
    ((stringArea ps).length ≤ limit →
      decode (packed t.properties) = .ok (treeOf (inBlocks ps))) := by
  have hfit := fits_of_alike h hs.fits
  have hcount : ∀ tag, (t.properties.filter (·.tag = tag)).length ≤ limit :=
    fun tag ↦ (count_of_alike h tag).le.trans (hs.count_le tag)
  rw [← length_stringArea_of_alike h]
  refine ⟨encode_of_fits hv hfit hcount, fun harea ↦ ?_⟩
  have hperm := inBlocks_perm fun p hp ↦ (hs.fits p hp).1
  have hstored : (inBlocks ps).map stored = inBlocks ps := by
    refine List.map_congr_left (fun p hp ↦ hs.stored_eq p (hperm.mem_iff.mp hp)) |>.trans ?_
    exact List.map_id _
  rw [(decode_packed hfit harea hcount).1, readTree, treeOf, inBlocks_of_alike h, hstored,
    isEmpty_of_alike h, hperm.isEmpty_eq]

end PropertyFile.Inibin
