import Mathlib.Data.List.Nodup
import PropertyFile.Proofs.StableSort
import PropertyFile.Tree.Vocabulary

namespace PropertyFile

variable {sections others : List Section}

def contents (sections : List Section) (name : String) : List Property :=
  (sections.filter (·.name = name)).flatMap Section.properties

def Distinct (sections : List Section) : Prop := (sections.map Section.name).Nodup

theorem contents_cons (s : Section) (sections : List Section) (name : String) :
    contents (s :: sections) name =
      (if s.name = name then s.properties else []) ++ contents sections name := by
  by_cases h : s.name = name
  · rw [contents, List.filter_cons_of_pos (by simpa using h), List.flatMap_cons, if_pos h]
    rfl
  · rw [contents, List.filter_cons_of_neg (by simpa using h), if_neg h]
    rfl

theorem contents_append (sections others : List Section) (name : String) :
    contents (sections ++ others) name = contents sections name ++ contents others name := by
  simp only [contents, List.filter_append, List.flatMap_append]

theorem contents_singleton (s : Section) (name : String) :
    contents [s] name = if s.name = name then s.properties else [] := by
  rw [contents_cons, show contents [] name = [] from rfl, List.append_nil]

theorem mem_contents {p : Property} {name : String} :
    p ∈ contents sections name ↔ ∃ s ∈ sections, s.name = name ∧ p ∈ s.properties := by
  simp only [contents, List.mem_flatMap, List.mem_filter, decide_eq_true_eq, and_assoc]

theorem filter_name_of_notMem {name : String} (h : name ∉ sections.map Section.name) :
    sections.filter (·.name = name) = [] := by
  rw [List.filter_eq_nil_iff]
  intro s hs hname
  exact h (of_decide_eq_true hname ▸ List.mem_map_of_mem hs)

theorem contents_of_notMem {name : String} (h : name ∉ sections.map Section.name) :
    contents sections name = [] := by
  rw [contents, filter_name_of_notMem h, List.flatMap_nil]

theorem Distinct.filter_name (h : Distinct sections) {s : Section} (hs : s ∈ sections) :
    sections.filter (·.name = s.name) = [s] := by
  induction sections with
  | nil => cases hs
  | cons t sections ih =>
    obtain ⟨hnot, htail⟩ := List.nodup_cons.mp h
    rcases List.mem_cons.mp hs with rfl | hs
    · rw [List.filter_cons_of_pos (by simp only [decide_true]), filter_name_of_notMem hnot]
    · have hne : t.name ≠ s.name := fun heq ↦ hnot (heq ▸ List.mem_map_of_mem hs)
      rw [List.filter_cons_of_neg (by simpa using hne), ih htail hs]

theorem Distinct.contents_eq (h : Distinct sections) {s : Section} (hs : s ∈ sections) :
    contents sections s.name = s.properties := by
  rw [contents, h.filter_name hs, List.flatMap_singleton]

theorem Distinct.perm (h : Distinct sections) (hp : others.Perm sections) : Distinct others :=
  (hp.map Section.name).nodup_iff.mpr h

theorem Distinct.concat (h : Distinct sections) {s : Section}
    (hs : s.name ∉ sections.map Section.name) : Distinct (sections ++ [s]) := by
  rw [Distinct, List.map_append, List.map_singleton, ← List.concat_eq_append]
  exact List.Nodup.concat hs h

theorem Distinct.contents_perm (h : Distinct sections) (hp : others.Perm sections)
    (name : String) : contents others name = contents sections name := by
  by_cases hname : name ∈ sections.map Section.name
  · obtain ⟨s, hs, rfl⟩ := List.mem_map.mp hname
    rw [h.contents_eq hs, (h.perm hp).contents_eq (hp.mem_iff.mpr hs)]
  · have hother : name ∉ others.map Section.name := fun hmem ↦
      hname ((hp.map Section.name).mem_iff.mp hmem)
    rw [contents_of_notMem hname, contents_of_notMem hother]

theorem contents_filter_nonempty (sections : List Section) (name : String) :
    contents (sections.filter (!·.properties.isEmpty)) name = contents sections name := by
  induction sections with
  | nil => rfl
  | cons s sections ih =>
    rw [contents_cons, ← ih]
    cases hp : s.properties with
    | nil =>
      rw [List.filter_cons_of_neg (by simp only [hp, List.isEmpty_nil, Bool.not_true,
        Bool.false_eq_true, not_false_eq_true]), ite_self, List.nil_append]
    | cons p ps =>
      rw [List.filter_cons_of_pos (by simp only [hp, List.isEmpty_cons, Bool.not_false]),
        contents_cons, hp]

theorem Distinct.filter (h : Distinct sections) (q : Section → Bool) :
    Distinct (sections.filter q) :=
  h.sublist (List.filter_sublist.map Section.name)

theorem Distinct.map_properties (h : Distinct sections) (f : List Property → List Property) :
    Distinct (sections.map fun s ↦ { s with properties := f s.properties }) := by
  rw [Distinct, List.map_map]
  exact h

theorem Distinct.contents_map (h : Distinct sections) {f : List Property → List Property}
    (hnil : f [] = []) (name : String) :
    contents (sections.map fun s ↦ { s with properties := f s.properties }) name =
      f (contents sections name) := by
  have hd := h.map_properties f
  by_cases hname : name ∈ sections.map Section.name
  · obtain ⟨s, hs, rfl⟩ := List.mem_map.mp hname
    rw [h.contents_eq hs]
    exact hd.contents_eq (List.mem_map_of_mem hs)
  · have hother : name ∉ (sections.map fun s ↦ { s with properties := f s.properties }).map
        Section.name := by
      rw [List.map_map]
      exact hname
    rw [contents_of_notMem hname, contents_of_notMem hother, hnil]

/-- If the properties of a hash are all in sections of one name, their order is the one there. -/
theorem run_eq_contents {hash : UInt32} {name : String}
    (h : ∀ s ∈ sections, ∀ p ∈ s.properties, p.hash = hash → s.name = name) :
    (sections.flatMap Section.properties).filter (·.hash = hash) =
      (contents sections name).filter (·.hash = hash) := by
  induction sections with
  | nil => rfl
  | cons s sections ih =>
    rw [List.flatMap_cons, contents_cons, List.filter_append, List.filter_append,
      ih fun t ht ↦ h t (List.mem_cons_of_mem s ht)]
    congr 1
    by_cases hs : s.name = name
    · rw [if_pos hs]
    · rw [if_neg hs, List.filter_nil, List.filter_eq_nil_iff]
      intro p hp hhash
      exact hs (h s List.mem_cons_self p hp (of_decide_eq_true hhash))

theorem modify_findIdx_cons {α : Type} (q : α → Bool) (f : α → α) (a : α) (l : List α) :
    (a :: l).modify ((a :: l).findIdx q) f =
      if q a then f a :: l else a :: l.modify (l.findIdx q) f := by
  rw [List.findIdx_cons]
  cases q a <;> rfl

theorem mem_modify_findIdx {α : Type} {q : α → Bool} {f : α → α} {a : α} {l : List α}
    (h : a ∈ l.modify (l.findIdx q) f) : a ∈ l ∨ ∃ b ∈ l, q b = true ∧ a = f b := by
  induction l with
  | nil => cases h
  | cons b l ih =>
    rw [modify_findIdx_cons] at h
    by_cases hb : q b = true
    · rw [if_pos hb] at h
      rcases List.mem_cons.mp h with rfl | h
      · exact .inr ⟨b, List.mem_cons_self, hb, rfl⟩
      · exact .inl (List.mem_cons_of_mem b h)
    · rw [if_neg hb] at h
      rcases List.mem_cons.mp h with rfl | h
      · exact .inl List.mem_cons_self
      · rcases ih h with h | ⟨c, hc, hq, rfl⟩
        · exact .inl (List.mem_cons_of_mem b h)
        · exact .inr ⟨c, List.mem_cons_of_mem b hc, hq, rfl⟩

theorem map_modify_of_eq {α β : Type} (g : α → β) (f : α → α) (hg : ∀ a, g (f a) = g a)
    (l : List α) (i : Nat) : (l.modify i f).map g = l.map g := by
  induction l generalizing i with
  | nil => rw [List.modify_nil]
  | cons a l ih =>
    cases i with
    | zero => rw [List.modify_zero_cons, List.map_cons, List.map_cons, hg]
    | succ i => rw [List.modify_succ_cons, List.map_cons, List.map_cons, ih]

theorem contents_push (h : Distinct sections) {name : String}
    (hname : name ∈ sections.map Section.name) (p : Property) (other : String) :
    contents (sections.modify (sections.findIdx (·.name = name)) (·.push p)) other =
      contents sections other ++ if name = other then [p] else [] := by
  induction sections with
  | nil => cases hname
  | cons s sections ih =>
    obtain ⟨hnot, htail⟩ := List.nodup_cons.mp h
    rw [modify_findIdx_cons]
    by_cases hs : s.name = name
    · subst hs
      have hpush : (s.push p).name = s.name := rfl
      rw [if_pos (decide_eq_true rfl), contents_cons, contents_cons, hpush]
      by_cases ho : s.name = other
      · subst ho
        rw [if_pos rfl, if_pos rfl, if_pos rfl, contents_of_notMem hnot, List.append_nil,
          List.append_nil]
        rfl
      · rw [if_neg ho, if_neg ho, if_neg ho, List.append_nil]
    · rw [if_neg (by simpa using hs), contents_cons, contents_cons,
        ih htail ((List.mem_cons.mp hname).resolve_left fun heq ↦ hs heq.symm), List.append_assoc]

theorem any_name_iff {name : String} :
    sections.any (·.name = name) = true ↔ name ∈ sections.map Section.name := by
  simp only [List.any_eq_true, decide_eq_true_eq, List.mem_map]

theorem Section.order_eq_compareLex : Section.order = compareLex
    (compareOn fun s ↦ lowerText s.name) (fun a b ↦ compareOn Section.name b a) := rfl

instance : Std.TransCmp Section.order := by
  rw [Section.order_eq_compareLex]
  have hlower : Std.TransCmp (compareOn fun s : Section ↦ lowerText s.name) := inferInstance
  have hname : Std.TransCmp (compareOn Section.name) := inferInstance
  have hswap : Std.TransCmp (fun a b : Section ↦ compareOn Section.name b a) :=
    Std.TransCmp.opposite
  infer_instance

theorem Section.order_eq_iff {a b : Section} : a.order b = .eq ↔ a.name = b.name := by
  rw [Section.order, Ordering.then_eq_eq, Std.compare_eq_iff_eq, Std.compare_eq_iff_eq]
  constructor
  · rintro ⟨-, h⟩
    exact h.symm
  · intro h
    rw [h]
    exact ⟨rfl, rfl⟩

/-- Whether a section may stand before another one. -/
def Section.before (a b : Section) : Bool := (a.order b).isLE

theorem Section.before_preorder : StableSort.TotalPreorder Section.before :=
  .of_cmp Section.order

theorem Section.tied_before (a b : Section) :
    StableSort.tied Section.before a b = decide (b.name = a.name) := by
  rw [Bool.eq_iff_iff, StableSort.tied, Bool.and_eq_true, decide_eq_true_eq]
  constructor
  · rintro ⟨hab, hba⟩
    exact (Section.order_eq_iff.mp (Std.OrientedCmp.isLE_antisymm hab hba)).symm
  · intro h
    rw [Section.before, Section.before, Section.order_eq_iff.mpr h.symm, Section.order_eq_iff.mpr h]
    exact ⟨rfl, rfl⟩

/-- Sections as they are kept: in order, no two of one name, each with the hash of its name. -/
structure Regular (sections : List Section) : Prop where
  distinct : Distinct sections
  hashed : ∀ s ∈ sections, s.hash = nameHash s.name
  sorted : sections.Pairwise fun a b ↦ a.before b = true

theorem sortSections_perm (sections : List Section) : (sortSections sections).Perm sections :=
  List.mergeSort_perm _ _

theorem Regular.sortSections (hd : Distinct sections)
    (hh : ∀ s ∈ sections, s.hash = nameHash s.name) : Regular (sortSections sections) where
  distinct := hd.perm (sortSections_perm sections)
  hashed s hs := hh s ((sortSections_perm sections).mem_iff.mp hs)
  sorted := Section.before_preorder.pairwise_mergeSort sections

theorem Regular.filter (h : Regular sections) (q : Section → Bool) :
    Regular (sections.filter q) where
  distinct := h.distinct.filter q
  hashed s hs := h.hashed s (List.mem_filter.mp hs).1
  sorted := h.sorted.filter q

theorem Regular.congr (h : Regular sections)
    (heq : others.map (fun s ↦ (s.name, s.hash)) = sections.map fun s ↦ (s.name, s.hash)) :
    Regular others := by
  have hnames : others.map Section.name = sections.map Section.name := by
    have hfst := congrArg (List.map Prod.fst) heq
    rw [List.map_map, List.map_map] at hfst
    exact hfst
  refine ⟨?_, fun s hs ↦ ?_, ?_⟩
  · rw [Distinct, hnames]
    exact h.distinct
  · have hmem : (s.name, s.hash) ∈ sections.map fun s ↦ (s.name, s.hash) :=
      heq ▸ List.mem_map_of_mem (f := fun s : Section ↦ (s.name, s.hash)) hs
    obtain ⟨u, hu, hpair⟩ := List.mem_map.mp hmem
    obtain ⟨hname, hhash⟩ := Prod.mk.inj hpair
    rw [← hhash, ← hname]
    exact h.hashed u hu
  · have hs : (sections.map Section.name).Pairwise fun m n ↦
        (Section.named m).before (Section.named n) = true := List.pairwise_map.mpr h.sorted
    rw [← hnames] at hs
    exact List.pairwise_map.mp hs

theorem Regular.modify (h : Regular sections) (i : Nat) {f : Section → Section}
    (hname : ∀ s, (f s).name = s.name) (hhash : ∀ s, (f s).hash = s.hash) :
    Regular (sections.modify i f) :=
  h.congr (map_modify_of_eq (fun s : Section ↦ (s.name, s.hash)) f
    (fun s ↦ by rw [hname, hhash]) sections i)

theorem Regular.filter_name_eq (h : Regular sections)
    (hne : ∀ s ∈ sections, s.properties ≠ []) (name : String) :
    sections.filter (·.name = name) = if contents sections name = [] then []
      else [⟨nameHash name, name, contents sections name⟩] := by
  by_cases hname : name ∈ sections.map Section.name
  · obtain ⟨s, hs, rfl⟩ := List.mem_map.mp hname
    rw [h.distinct.filter_name hs, h.distinct.contents_eq hs, if_neg (hne s hs), ← h.hashed s hs]
  · rw [filter_name_of_notMem hname, contents_of_notMem hname, if_pos rfl]

theorem Tree.eq_of_sections {t u : Tree} (hversion : t.version = u.version)
    (hsections : t.sections = u.sections) : t = u := by
  cases t
  cases u
  congr

/-- Kept sections that all hold something are known by what they hold. -/
theorem Regular.eq_of_contents (h : Regular sections) (h' : Regular others)
    (hne : ∀ s ∈ sections, s.properties ≠ []) (hne' : ∀ s ∈ others, s.properties ≠ [])
    (hc : ∀ name, contents sections name = contents others name) : sections = others := by
  refine StableSort.eq_of_runs Section.before_preorder h.sorted h'.sorted fun a ↦ ?_
  rw [funext (Section.tied_before a), h.filter_name_eq hne, h'.filter_name_eq hne', hc]

end PropertyFile
