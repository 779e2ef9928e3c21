import Mathlib.Data.List.Pairwise
import PropertyFile.Proofs.Inibin.Alike
import PropertyFile.Proofs.Inibin.Texts

namespace PropertyFile

namespace Inibin

variable {ps qs : List Property}

def kept (ps : List Property) : List Property := (inBlocks ps).map stored

theorem length_areaPart_stored (p : Property) :
    (areaPart (stored p)).length ≤ (areaPart p).length := by
  obtain ⟨hash, name, value, tag⟩ := p
  cases value with
  | string text =>
    simp only [areaPart, stored, storedValue, List.length_append, List.length_singleton]
    exact Nat.add_le_add_right (Text.length_utf8_beforeZero text) 1
  | _ => exact Nat.le_refl 0

theorem length_stringArea_stored (ps : List Property) :
    (stringArea (ps.map stored)).length ≤ (stringArea ps).length := by
  induction ps with
  | nil => exact Nat.le_refl 0
  | cons p ps ih =>
    rw [List.map_cons, length_stringArea_cons, length_stringArea_cons]
    exact Nat.add_le_add (length_areaPart_stored p) ih

theorem pairwise_kept (ps : List Property) :
    (kept ps).Pairwise fun p q ↦ byBlock p q = true :=
  List.pairwise_map.mpr (pairwise_inBlocks ps)

theorem decode_of_encode {t : Tree} {bytes : List UInt8} (h : encode t = .ok bytes) :
    decode bytes = .ok (treeOf (kept t.properties)) ∧ Sound (kept t.properties) ∧
      (stringArea (kept t.properties)).length ≤ limit := by
  obtain ⟨-, hfit, harea, hcount, rfl⟩ := encode_eq_ok_iff.mp h
  have hread := (decode_packed hfit harea hcount).1
  rw [← treeOf_inBlocks hfit] at hread
  obtain ⟨ps, heq, hs⟩ := decode_ok hread
  have hps := congrArg Tree.properties heq
  rw [properties_treeOf, properties_treeOf] at hps
  refine ⟨hread, by rwa [kept, hps], ?_⟩
  have hperm := (inBlocks_perm fun p hp ↦ (hfit p hp).1).flatMap_right areaPart
  exact (length_stringArea_stored _).trans (hperm.length_eq.le.trans harea)

theorem sameData_of_alike (h : Alike ps qs) : SameData ps qs := by
  intro tag hash
  have hrun (l : List Property) : (l.filter fun p ↦ p.tag = tag ∧ p.hash = hash).map stored =
      (((l.filter (·.hash = hash)).map Property.unnamed).filter (·.tag = tag)).map stored := by
    rw [List.filter_map, List.filter_filter, List.map_map]
    simp only [Bool.decide_and]
    rfl
  rw [hrun, hrun, h hash]

theorem sameData_kept (hfit : ∀ p ∈ ps, Fits p) (hs : Sound (kept ps)) : SameData ps (kept ps) := by
  intro tag hash
  have hagain : ((kept ps).filter fun p ↦ p.tag = tag ∧ p.hash = hash).map stored =
      (kept ps).filter fun p ↦ p.tag = tag ∧ p.hash = hash :=
    (List.map_congr_left fun p hp ↦ hs.stored_eq p (List.mem_filter.mp hp).1).trans (List.map_id _)
  rw [hagain, kept, List.filter_map, ← filter_inBlocks (fun p hp ↦ (hfit p hp).1) tag hash]
  rfl

theorem SameData.trans {rs : List Property} (h : SameData ps qs) (h' : SameData qs rs) :
    SameData ps rs :=
  fun tag hash ↦ (h tag hash).trans (h' tag hash)

theorem zeroFree_of_stored (h : ∀ p ∈ ps, stored p = p) : ZeroFree (texts ps) := by
  have hps : ps.map stored = ps := (List.map_congr_left h).trans (List.map_id ps)
  rw [← hps, texts_map_stored]
  intro t ht
  obtain ⟨u, -, rfl⟩ := List.mem_map.mp ht
  rw [Text.beforeZero, String.toList_ofList]
  intro hmem
  simpa using List.mem_takeWhile_imp hmem

theorem texts_unnamed (ps : List Property) : texts (ps.map Property.unnamed) = texts ps := by
  rw [texts, List.filterMap_map]
  rfl

theorem zeroFree_of_alike (h : Alike ps qs) (hz : ZeroFree (texts qs)) : ZeroFree (texts ps) := by
  have hperm := (perm_of_alike h).filterMap text?
  intro t ht
  rw [← texts_unnamed] at ht hz
  exact hz t (hperm.mem_iff.mp ht)

theorem pairwise_texts {le : UInt32 → UInt32 → Bool} (hfit : ∀ p ∈ ps, Fits p)
    (h : ps.Pairwise fun p q ↦ p.tag = .string → q.tag = .string → le p.hash q.hash = true) :
    (texts ps).Pairwise fun t u ↦ le t.1 u.1 = true := by
  rw [texts, List.pairwise_filterMap]
  refine h.imp_of_mem fun {p q} hp hq hle t ht u hu ↦ ?_
  rcases text?_of_fits (hfit p hp) with ⟨hptag, s, hs⟩ | ⟨-, hnone⟩
  · rcases text?_of_fits (hfit q hq) with ⟨hqtag, s', hs'⟩ | ⟨-, hnone⟩
    · rw [hs, Option.some.injEq] at ht
      rw [hs', Option.some.injEq] at hu
      subst ht hu
      exact hle hptag hqtag
    · rw [hnone] at hu
      cases hu
  · rw [hnone] at ht
    cases ht

theorem hash_preorder : StableSort.TotalPreorder fun h k : UInt32 ↦ decide (h ≤ k) where
  trans h k l hhk hkl := by
    simp only [decide_eq_true_eq] at hhk hkl ⊢
    exact UInt32.le_trans hhk hkl
  total h k := by
    simp only [Bool.or_eq_true, decide_eq_true_eq]
    exact UInt32.le_total h k

theorem tied_hash (h k : UInt32) :
    StableSort.tied (fun h k : UInt32 ↦ decide (h ≤ k)) h k = decide (k = h) := by
  simp only [StableSort.tied, ← Bool.decide_and, decide_eq_decide]
  constructor
  · rintro ⟨hhk, hkh⟩
    exact UInt32.le_antisymm hkh hhk
  · rintro rfl
    exact ⟨UInt32.le_refl k, UInt32.le_refl k⟩

theorem hash_le_of_byBlock {p q : Property} (h : byBlock p q = true) (ht : p.tag = q.tag) :
    p.hash ≤ q.hash := by
  rcases of_decide_eq_true h with hlt | hle
  · exact absurd (blockNumber_inj.mpr ht) (Nat.ne_of_lt hlt)
  · exact hle.2

end Inibin

namespace Dictionary

variable (d : Dictionary)

/-- Hashes by the sections where the dictionary places them, and within one section as numbers. -/
def hashOrder : UInt32 → UInt32 → Bool :=
  StableSort.lex
    (fun h k ↦ (Section.named (d.place h).1).before (Section.named (d.place k).1))
    fun h k ↦ decide (h ≤ k)

theorem hashOrder_preorder : StableSort.TotalPreorder d.hashOrder :=
  (Section.before_preorder.comap fun h ↦ Section.named (d.place h).1).lex Inibin.hash_preorder

theorem tied_hashOrder (h k : UInt32) :
    StableSort.tied d.hashOrder h k = decide (k = h) := by
  rw [hashOrder, StableSort.tied_lex, Inibin.tied_hash]
  by_cases hk : k = h
  · subst hk
    rw [decide_eq_true rfl, Bool.and_true]
    exact (Section.before_preorder.comap fun h ↦ Section.named (d.place h).1).tied_self k
  · rw [decide_eq_false hk, Bool.and_false]

theorem hashOrder_of_name {d : Dictionary} {h k : UInt32} (hle : h ≤ k)
    (hname : (d.place h).1 = (d.place k).1) : d.hashOrder h k = true := by
  rw [hashOrder, StableSort.lex, hname, Section.before_preorder.refl, decide_eq_true hle,
    Bool.or_true, Bool.and_true]

theorem hashOrder_of_before {d : Dictionary} {h k : UInt32} {a b : Section}
    (hh : (d.place h).1 = a.name) (hk : (d.place k).1 = b.name) (hab : a.before b = true)
    (hne : a.name ≠ b.name) : d.hashOrder h k = true := by
  have hlt : b.before a = false := by
    rw [← Bool.not_eq_true]
    intro hba
    have htied := Section.tied_before a b
    rw [StableSort.tied, hab, hba, Bool.and_self, eq_comm, decide_eq_true_eq] at htied
    exact hne htied.symm
  rw [hashOrder, StableSort.lex, hh, hk]
  show (a.before b && (!b.before a || decide (h ≤ k))) = true
  rw [hab, hlt]
  rfl

end Dictionary

namespace Inibin

/-- Sorted properties are sorted by section and hash once they are in sections. -/
theorem pairwise_organize {t : Tree} (hv : t.version = formatVersion)
    (hsort : t.properties.Pairwise fun p q ↦ byBlock p q = true) (d : Dictionary) :
    (t.organize d).properties.Pairwise fun p q ↦
      p.tag = .string → q.tag = .string → d.hashOrder p.hash q.hash = true := by
  have hplaced := placed_organize t d hv
  have hname {s : Section} (hs : s ∈ (t.organize d).sections) {p : Property}
      (hp : p ∈ s.properties) : (d.place p.hash).1 = s.name :=
    (d.route_section p).symm.trans (congrArg Prod.fst (hplaced.placed s hs p hp))
  rw [Tree.properties, List.pairwise_flatMap]
  constructor
  · intro s hs
    have hsorted : s.properties.Pairwise fun p q ↦ byBlock p q = true := by
      obtain ⟨name, -, rfl⟩ := mem_organize hs
      rw [Section.gather, List.filter_map, List.map_map]
      exact List.pairwise_map.mpr (hsort.filter _)
    refine hsorted.imp_of_mem fun {p q} hp hq hle hptag hqtag ↦ ?_
    exact Dictionary.hashOrder_of_name (hash_le_of_byBlock hle (hptag.trans hqtag.symm))
      ((hname hs hp).trans (hname hs hq).symm)
  · have hdistinct := List.pairwise_map.mp hplaced.regular.distinct
    refine (hplaced.regular.sorted.and hdistinct).imp_of_mem ?_
    rintro a b ha hb ⟨hab, hne⟩ p hp q hq - -
    exact Dictionary.hashOrder_of_before (hname ha hp) (hname hb hq) hab hne

/-- What is written of properties that were read, in any order that is sorted for texts. -/
theorem encode_again {le : UInt32 → UInt32 → Bool} (hle : StableSort.TotalPreorder le)
    (htied : ∀ h k, StableSort.tied le h k = decide (k = h)) {t u : Tree} {bytes : List UInt8}
    (h : encode t = .ok bytes) (hv : u.version = formatVersion)
    (halike : Alike u.properties (kept t.properties))
    (hsort : u.properties.Pairwise fun p q ↦
      p.tag = .string → q.tag = .string → le p.hash q.hash = true) :
    ∃ b, encode u = .ok b ∧ decode b = decode bytes ∧ (b = bytes ↔
      ZeroFree (texts t.properties) ∧
        (texts t.properties).Pairwise fun x y ↦ le x.1 y.1 = true) := by
  obtain ⟨hread, hs, hlimit⟩ := decode_of_encode h
  obtain ⟨-, hfit, harea, -, rfl⟩ := encode_eq_ok_iff.mp h
  obtain ⟨hencode, hdecode⟩ := encode_of_alike hv hs halike
  rw [if_pos hlimit] at hencode
  have hufit := fits_of_alike halike hs.fits
  have huarea := (length_stringArea_of_alike halike).trans_le hlimit
  have hdata : SameData t.properties u.properties := by
    refine (sameData_kept hfit hs).trans fun tag hash ↦ ?_
    exact (sameData_of_alike halike tag hash).symm
  have huzero := zeroFree_of_alike halike (zeroFree_of_stored hs.stored_eq)
  refine ⟨packed u.properties, hencode, ?_, ?_⟩
  · rw [hdecode hlimit, hread, inBlocks_eq_mergeSort fun p hp ↦ (hs.fits p hp).1,
      List.mergeSort_of_pairwise (pairwise_kept t.properties)]
  · rw [eq_comm, packed_eq_iff hfit hufit harea huarea hdata]
    exact texts_eq_iff hle htied hdata hfit hufit huzero (pairwise_texts hufit hsort)

theorem encode_treeOf_kept {t : Tree} {bytes : List UInt8} (h : encode t = .ok bytes) :
    ∃ b, encode (treeOf (kept t.properties)) = .ok b ∧ decode b = decode bytes ∧ (b = bytes ↔
      ZeroFree (texts t.properties) ∧ (texts t.properties).Pairwise fun x y ↦ x.1 ≤ y.1) := by
  have hprops := properties_treeOf (kept t.properties)
  have hagain := encode_again hash_preorder tied_hash h (u := treeOf (kept t.properties)) rfl
    (fun _ ↦ by rw [hprops]) (by
      rw [hprops]
      exact (pairwise_kept t.properties).imp fun hle hp hq ↦
        decide_eq_true (hash_le_of_byBlock hle (hp.trans hq.symm)))
  simpa only [decide_eq_true_eq] using hagain

theorem encode_organize_kept {t : Tree} {bytes : List UInt8} (h : encode t = .ok bytes)
    (d : Dictionary) :
    ∃ b, encode ((treeOf (kept t.properties)).organize d) = .ok b ∧ decode b = decode bytes ∧
      (b = bytes ↔ ZeroFree (texts t.properties) ∧
        (texts t.properties).Pairwise fun x y ↦ d.hashOrder x.1 y.1 = true) := by
  have hprops := properties_treeOf (kept t.properties)
  refine encode_again d.hashOrder_preorder d.tied_hashOrder h rfl (fun hash ↦ ?_) ?_
  · rw [alike_organize _ d rfl hash, hprops]
  · refine pairwise_organize rfl ?_ d
    rw [hprops]
    exact pairwise_kept t.properties

/-- What was read is written again, as it is or sorted into sections, and read as the same data. The
bytes are the same just when no text has a zero character and the texts came by ascending hash, or
in the order of the dictionary's sections and then by hash. -/
theorem encode_again_eq_iff (t : Tree) (bytes : List UInt8) (h : encode t = .ok bytes)
    (d : Dictionary) : ∃ r b b', decode bytes = .ok r ∧
      encode r = .ok b ∧ decode b = .ok r ∧ (b = bytes ↔ ZeroFree (texts t.properties) ∧
        (texts t.properties).Pairwise fun x y ↦ x.1 ≤ y.1) ∧
      encode (r.organize d) = .ok b' ∧ decode b' = .ok r ∧
        (b' = bytes ↔ ZeroFree (texts t.properties) ∧
          (texts t.properties).Pairwise fun x y ↦ d.hashOrder x.1 y.1 = true) := by
  have hread := (decode_of_encode h).1
  obtain ⟨b, hb, hbread, hbiff⟩ := encode_treeOf_kept h
  obtain ⟨b', hb', hbread', hbiff'⟩ := encode_organize_kept h d
  exact ⟨_, b, b', hread, hb, hbread.trans hread, hbiff, hb', hbread'.trans hread, hbiff'⟩

def textTree (x y : UInt32 × String) : Tree :=
  ⟨2, [⟨0, "A", [⟨x.1, none, .string x.2, .string⟩, ⟨y.1, none, .string y.2, .string⟩]⟩]⟩

theorem encode_textTree {x y : UInt32 × String} (entries : List Entry) (area : List UInt8)
    (hblocks : typeBlocks (placed 0 (textTree x y).properties) = [(.string, entries)])
    (harea : stringArea (textTree x y).properties = area) (hl : area.length ≤ limit) :
    encode (textTree x y) =
      .ok (header area.length 4096 ++ blockSpelling .string entries ++ area) := by
  have hflags : flags [(.string, entries)] = 4096 := rfl
  refine encode_eq_ok_iff.mpr ⟨rfl, ?_, harea ▸ hl, fun tag ↦ ?_, ?_⟩
  · simp [textTree, Tree.properties, Fits, Tag.accepts]
  · exact (List.length_filter_le _ _).trans (show 2 ≤ 65535 by decide)
  · rw [packed, hblocks, hflags, harea, List.flatMap_singleton]

def orderedBytes : List UInt8 :=
  [2, 4, 0, 0, 16, 2, 0, 1, 0, 0, 0, 2, 0, 0, 0, 0, 0, 2, 0, 97, 0, 98, 0]

def swappedBytes : List UInt8 :=
  [2, 4, 0, 0, 16, 2, 0, 1, 0, 0, 0, 2, 0, 0, 0, 2, 0, 0, 0, 98, 0, 97, 0]

theorem encode_ordered : encode (textTree (1, "a") (2, "b")) = .ok orderedBytes :=
  encode_textTree [⟨⟨1, none, .string "a", .string⟩, 0⟩, ⟨⟨2, none, .string "b", .string⟩, 2⟩]
    [97, 0, 98, 0] (by cbv) (by cbv) (by decide)

theorem encode_swapped : encode (textTree (2, "b") (1, "a")) = .ok swappedBytes :=
  encode_textTree [⟨⟨1, none, .string "a", .string⟩, 2⟩, ⟨⟨2, none, .string "b", .string⟩, 0⟩]
    [98, 0, 97, 0] (by cbv) (by cbv) (by decide)

theorem orderedBytes_again : ∃ r, decode orderedBytes = .ok r ∧ encode r = .ok orderedBytes ∧
    encode (r.organize {}) = .ok orderedBytes := by
  obtain ⟨r, b, b', hr, hb, -, hiff, hb', -, hiff'⟩ :=
    encode_again_eq_iff (textTree (1, "a") (2, "b")) orderedBytes encode_ordered {}
  have htexts : texts (textTree (1, "a") (2, "b")).properties = [(1, "a"), (2, "b")] := rfl
  have hfree : ZeroFree [((1 : UInt32), "a"), (2, "b")] := by simp [ZeroFree]
  have hname : (({} : Dictionary).place 1).1 = (({} : Dictionary).place 2).1 := rfl
  rw [htexts] at hiff hiff'
  have hplain : b = orderedBytes := hiff.mpr ⟨hfree, by simp⟩
  have hsections : b' = orderedBytes := by
    refine hiff'.mpr ⟨hfree, List.pairwise_pair.mpr ?_⟩
    exact Dictionary.hashOrder_of_name (by decide) hname
  exact ⟨r, hr, hplain ▸ hb, hsections ▸ hb'⟩

theorem swappedBytes_change : encode (textTree (2, "b") (1, "a")) = .ok swappedBytes ∧
    ¬ ∃ r, decode swappedBytes = .ok r ∧ encode r = .ok swappedBytes := by
  refine ⟨encode_swapped, ?_⟩
  rintro ⟨r, hr, hencode⟩
  have hread := (decode_of_encode encode_swapped).1
  obtain ⟨b, hb, -, hiff⟩ := encode_treeOf_kept encode_swapped
  rw [hr, Except.ok.injEq] at hread
  rw [← hread, hencode, Except.ok.injEq] at hb
  have hsorted := (hiff.mp hb.symm).2
  have htexts : texts (textTree (2, "b") (1, "a")).properties = [(2, "b"), (1, "a")] := rfl
  rw [htexts, List.pairwise_pair] at hsorted
  exact absurd hsorted (by decide)

end Inibin

end PropertyFile
