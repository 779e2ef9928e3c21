import PropertyFile.Proofs.Dictionary.History
import PropertyFile.Proofs.Tree.Upkeep

namespace PropertyFile

variable {d : Dictionary} {t : Tree}

namespace Dictionary

def Truthful (d : Dictionary) : Prop := ∀ hash n, d.get? hash = some n → nameHash n = hash

theorem truthful_changes (cs : List Change) : (empty.changes cs).Truthful := by
  intro hash n h
  rw [changes_eq_addAll, get?_addAll] at h
  have hname := List.find?_some h
  exact of_decide_eq_true hname

/-- A section and a name together have the hash, or the name alone has it, or there is none. -/
def Accounts (d : Dictionary) (inSection name : String) (hash : UInt32) : Prop :=
  pairHash inSection name = hash ∨
    (inSection = globalsSection ∧ nameHash name = hash) ∨
    (inSection = unknownsSection ∧ name = unknownName hash ∧ d.get? hash = none)

/-- Wherever the separator comes first in a name, the hash is that of its two parts. -/
theorem Truthful.accounts_place (h : d.Truthful) (hash : UInt32) :
    d.Accounts (d.place hash).1 (d.place hash).2 hash := by
  rw [place]
  split
  · next known hknown =>
    split
    · next before after hsplit =>
      obtain ⟨hparts, -⟩ := Text.eq_of_splitOnce hsplit
      have hpair := nameHash_pairName (.ofList before) (.ofList after)
      rw [ofList_pairName hparts, String.ofList_toList, h hash known hknown] at hpair
      exact .inl hpair.symm
    · exact .inr (.inl ⟨rfl, h hash known hknown⟩)
  · next hnone => exact .inr (.inr ⟨rfl, rfl, hnone⟩)

end Dictionary

/-- The sections of a tree that was sorted by a dictionary, and what they hold. -/
structure Tree.SortedBy (d : Dictionary) (t sorted : Tree) : Prop where
  version : sorted.version = t.version
  distinct : (sorted.sections.map Section.name).Nodup
  ascending : sorted.sections.Pairwise fun a b ↦ a.order b = .lt
  hashed : ∀ s ∈ sorted.sections, s.hash = nameHash s.name
  filled : ∀ s ∈ sorted.sections, s.properties ≠ []
  complete : ∀ p ∈ t.properties, ∃ s ∈ sorted.sections, s.name = (d.place p.hash).1
  properties : ∀ s ∈ sorted.sections, s.properties =
    (t.properties.filter fun p ↦ (d.place p.hash).1 = s.name).map fun p ↦
      { p with name := some (d.place p.hash).2 }
  accounted : ∀ s ∈ sorted.sections, ∀ p ∈ s.properties,
    ∃ name, p.name = some name ∧ d.Accounts s.name name p.hash

theorem contents_organize_eq_map (t : Tree) (d : Dictionary) (name : String) :
    contents (t.organize d).sections name =
      (t.properties.filter fun p ↦ (d.place p.hash).1 = name).map fun p ↦
        { p with name := some (d.place p.hash).2 } := by
  rw [contents_organize, List.filter_map, List.map_map]
  rfl

theorem exists_section_of_contents {sections : List Section} {name : String}
    (h : contents sections name ≠ []) : ∃ s ∈ sections, s.name = name := by
  obtain ⟨p, hp⟩ := List.exists_mem_of_ne_nil _ h
  obtain ⟨s, hs, hname, -⟩ := mem_contents.mp hp
  exact ⟨s, hs, hname⟩

theorem Dictionary.Truthful.sortedBy_organize (h : d.Truthful) (t : Tree) :
    Tree.SortedBy d t (t.organize d) := by
  have hregular := regular_organize t d
  refine ⟨rfl, hregular.distinct, hregular.ascending, hregular.hashed,
    fun s hs ↦ organize_nonempty hs, fun p hp ↦ ?_, fun s hs ↦ ?_, fun s hs p hp ↦ ?_⟩
  · refine exists_section_of_contents ?_
    rw [contents_organize_eq_map]
    have hmem : p ∈ t.properties.filter fun q ↦ (d.place q.hash).1 = (d.place p.hash).1 :=
      List.mem_filter.mpr ⟨hp, decide_eq_true rfl⟩
    exact List.ne_nil_of_mem (List.mem_map_of_mem hmem)
  · rw [← contents_organize_eq_map]
    exact (hregular.distinct.contents_eq hs).symm
  · have hroute := route_of_mem_organize hs hp
    have hsection : (d.place p.hash).1 = s.name := congrArg Prod.fst hroute
    have hname : some (d.place p.hash).2 = p.name := congrArg (fun r ↦ r.2.name) hroute
    refine ⟨(d.place p.hash).2, hname.symm, ?_⟩
    rw [← hsection]
    exact h.accounts_place p.hash

theorem organize_eq_self (h : Regular t.sections) (hne : ∀ s ∈ t.sections, s.properties ≠ [])
    (hplaced : ∀ s ∈ t.sections, ∀ p ∈ s.properties, d.route p = (s.name, p)) :
    t.organize d = t := by
  have hsections : (t.organize d).sections = t.sections := by
    refine (regular_organize t d).eq_of_contents h (fun s hs ↦ organize_nonempty hs) hne
      fun name ↦ ?_
    rw [contents_organize_eq_map, contents_eq_filter hplaced]
    refine (List.map_congr_left fun p hp ↦ ?_).trans (List.map_id _)
    obtain ⟨s, hs, hp⟩ := List.mem_flatMap.mp (List.mem_filter.mp hp).1
    exact congrArg Prod.snd (hplaced s hs p hp)
  exact congrArg (Tree.mk t.version) hsections

/-- Sorting by a dictionary, however that came about, regroups the properties, and sorting again
changes nothing. -/
theorem organize_regroups (cs : List Dictionary.Change) (t : Tree) :
    let d := Dictionary.empty.changes cs
    Tree.SortedBy d t (t.organize d) ∧ (t.organize d).organize d = t.organize d := by
  intro d
  exact ⟨(Dictionary.truthful_changes cs).sortedBy_organize t,
    organize_eq_self (regular_organize t d) (fun s hs ↦ organize_nonempty hs)
      fun s hs p hp ↦ route_of_mem_organize hs hp⟩

theorem contents_withSection (h : Distinct t.sections) (name other : String) :
    contents (t.withSection name).sections other = contents t.sections other := by
  rw [Tree.withSection]
  split
  · rfl
  · next hnone =>
    rw [any_name_iff] at hnone
    have hd : Distinct (t.sections ++ [.named name]) := h.concat hnone
    have hempty : (Section.named name).properties = [] := rfl
    rw [hd.contents_perm (sortSections_perm _), contents_append, contents_singleton, hempty,
      ite_self, List.append_nil]

theorem contents_add (h : Regular t.sections) (name : String) (p : Property) (other : String) :
    contents (t.add name p).sections other =
      contents t.sections other ++ if name = other then [p] else [] := by
  have hname := any_name_iff.mp (any_name_withSection t name)
  rw [← contents_withSection h.distinct name other, add_eq_pushInto]
  exact contents_push (h.withSection name).distinct hname p other

theorem add_nonempty (h : Regular t.sections) (hne : ∀ s ∈ t.sections, s.properties ≠ [])
    {name : String} {p : Property} {s : Section} (hs : s ∈ (t.add name p).sections) :
    s.properties ≠ [] := by
  have hcontents := contents_add h name p s.name
  rw [(h.add name p).distinct.contents_eq hs] at hcontents
  rw [hcontents]
  by_cases hname : name = s.name
  · rw [if_pos hname]
    exact List.append_ne_nil_of_right_ne_nil _ (List.cons_ne_nil _ _)
  · rcases mem_add hs with hs | ⟨u, -, hu, rfl⟩
    · rcases mem_withSection hs with hs | rfl
      · rw [h.distinct.contents_eq hs]
        exact List.append_ne_nil_of_left_ne_nil (hne s hs) _
      · exact (hname rfl).elim
    · exact (hname hu.symm).elim

theorem organize_concat {more : Tree} {p : Property}
    (hmore : more.properties = t.properties ++ [p]) (hversion : more.version = t.version) :
    more.organize d = (t.organize d).addRaw d p.hash p.value p.tag := by
  have hregular := regular_organize t d
  have hne : ∀ s ∈ (t.organize d).sections, s.properties ≠ [] := fun s hs ↦ organize_nonempty hs
  have hadded : ((t.organize d).addRaw d p.hash p.value p.tag).version = t.version :=
    withSection_version _ _
  refine Tree.eq_of_sections (hversion.trans hadded.symm) ?_
  refine (regular_organize more d).eq_of_contents (hregular.add _ _)
    (fun s hs ↦ organize_nonempty hs) (fun s hs ↦ add_nonempty hregular hne hs) fun name ↦ ?_
  rw [Tree.addRaw, contents_add hregular, contents_organize_eq_map, contents_organize_eq_map,
    hmore, List.filter_append, List.map_append, List.filter_singleton]
  congr 1
  show _ = if (d.place p.hash).1 = name then _ else _
  by_cases hname : (d.place p.hash).1 = name
  · rw [if_pos hname, decide_eq_true hname]
    rfl
  · rw [if_neg hname, decide_eq_false hname]
    rfl

/-- Properties that are added one by one, whatever names they come with, stand where sorting all of
them at once puts them. -/
theorem foldl_addRaw_eq_organize (d : Dictionary) (hash : UInt32) (name : String)
    (ps : List Property) :
    ps.foldl (fun t p ↦ t.addRaw d p.hash p.value p.tag) .empty =
      Tree.organize ⟨formatVersion, [⟨hash, name, ps⟩]⟩ d := by
  induction ps using List.reverseRecOn with
  | nil =>
    simp only [List.foldl_nil, Tree.organize, Tree.properties, List.flatMap_singleton,
      List.map_nil, List.eraseDups_nil, sortSections, List.mergeSort_nil]
    rfl
  | append_singleton ps p ih =>
    have hmore : Tree.properties ⟨formatVersion, [⟨hash, name, ps ++ [p]⟩]⟩ =
        Tree.properties ⟨formatVersion, [⟨hash, name, ps⟩]⟩ ++ [p] := by
      rw [Tree.properties, Tree.properties, List.flatMap_singleton, List.flatMap_singleton]
    rw [List.foldl_append, ih, List.foldl_cons, List.foldl_nil]
    exact (organize_concat hmore rfl).symm

end PropertyFile
