import PropertyFile.Proofs.Tree.Contents
import PropertyFile.Tree.Routing

namespace PropertyFile

variable {d : Dictionary} {t : Tree}

namespace Dictionary

theorem route_route (d : Dictionary) (p : Property) : d.route (d.route p).2 = d.route p := rfl

theorem route_section (d : Dictionary) (p : Property) : (d.route p).1 = (d.place p.hash).1 := rfl

end Dictionary

/-- A tree in which every property is in the section, and under the name, that the dictionary has
for its hash. -/
structure Placed (d : Dictionary) (t : Tree) : Prop where
  version : t.version = formatVersion
  regular : Regular t.sections
  placed : ∀ s ∈ t.sections, ∀ p ∈ s.properties, d.route p = (s.name, p)

theorem nodup_eraseDups : (names : List String) → names.eraseDups.Nodup
  | [] => List.nodup_nil
  | n :: names => by
    rw [List.eraseDups_cons, List.nodup_cons]
    refine ⟨fun h ↦ ?_, nodup_eraseDups _⟩
    have hm := (List.mem_filter.mp (List.mem_eraseDups.mp h)).2
    simp only [beq_self_eq_true, Bool.not_true, Bool.false_eq_true] at hm
termination_by names => names.length
decreasing_by exact Nat.lt_succ_of_le (List.length_filter_le _ _)

theorem names_gather (names : List String) (routed : List (String × Property)) :
    (names.map fun n ↦ Section.gather n routed).map Section.name = names := by
  rw [List.map_map]
  exact List.map_id names

theorem distinct_gather {names : List String} (h : names.Nodup)
    (routed : List (String × Property)) :
    Distinct (names.map fun n ↦ Section.gather n routed) := by
  rw [Distinct, names_gather]
  exact h

theorem contents_gather (routed : List (String × Property)) (name : String) :
    contents ((routed.map (·.1)).eraseDups.map fun n ↦ Section.gather n routed) name =
      (routed.filter (·.1 = name)).map (·.2) := by
  have hd := distinct_gather (nodup_eraseDups (routed.map (·.1))) routed
  by_cases hname : name ∈ (routed.map (·.1)).eraseDups
  · exact hd.contents_eq (List.mem_map_of_mem (f := fun n ↦ Section.gather n routed) hname)
  · rw [contents_of_notMem (by rwa [names_gather]), eq_comm, List.map_eq_nil_iff,
      List.filter_eq_nil_iff]
    intro r hr h
    rw [List.mem_eraseDups] at hname
    exact hname (of_decide_eq_true h ▸ List.mem_map_of_mem hr)

theorem contents_organize (t : Tree) (d : Dictionary) (name : String) :
    contents (t.organize d).sections name =
      ((t.properties.map d.route).filter (·.1 = name)).map (·.2) := by
  rw [← contents_gather]
  exact (distinct_gather (nodup_eraseDups _) _).contents_perm (sortSections_perm _) name

theorem mem_organize {s : Section} (h : s ∈ (t.organize d).sections) :
    ∃ name ∈ (t.properties.map d.route).map (·.1),
      s = Section.gather name (t.properties.map d.route) := by
  obtain ⟨name, hname, rfl⟩ := List.mem_map.mp ((sortSections_perm _).mem_iff.mp h)
  exact ⟨name, List.mem_eraseDups.mp hname, rfl⟩

theorem mem_gather {name : String} {routed : List (String × Property)} {p : Property} :
    p ∈ (Section.gather name routed).properties ↔ (name, p) ∈ routed := by
  simp only [Section.gather, List.mem_map, List.mem_filter, decide_eq_true_eq]
  constructor
  · rintro ⟨r, ⟨hr, rfl⟩, rfl⟩
    exact hr
  · intro h
    exact ⟨(name, p), ⟨h, rfl⟩, rfl⟩

theorem organize_nonempty {s : Section} (h : s ∈ (t.organize d).sections) : s.properties ≠ [] := by
  obtain ⟨name, hname, rfl⟩ := mem_organize h
  obtain ⟨r, hr, rfl⟩ := List.mem_map.mp hname
  exact List.ne_nil_of_mem (mem_gather.mpr hr)

theorem regular_organize (t : Tree) (d : Dictionary) : Regular (t.organize d).sections := by
  refine Regular.sortSections (distinct_gather (nodup_eraseDups _) _) fun s hs ↦ ?_
  obtain ⟨name, -, rfl⟩ := List.mem_map.mp hs
  rfl

theorem route_of_mem_organize {s : Section} (hs : s ∈ (t.organize d).sections) {p : Property}
    (hp : p ∈ s.properties) : d.route p = (s.name, p) := by
  obtain ⟨name, -, rfl⟩ := mem_organize hs
  obtain ⟨q, -, hq⟩ := List.mem_map.mp (mem_gather.mp hp)
  have hroute := d.route_route q
  rwa [hq] at hroute

theorem placed_organize (t : Tree) (d : Dictionary) (hv : t.version = formatVersion) :
    Placed d (t.organize d) where
  version := hv
  regular := regular_organize t d
  placed _ hs _ hp := route_of_mem_organize hs hp

theorem mem_withSection {s : Section} {name : String} (h : s ∈ (t.withSection name).sections) :
    s ∈ t.sections ∨ s = .named name := by
  rw [Tree.withSection] at h
  split at h
  · exact .inl h
  · rcases List.mem_append.mp ((sortSections_perm _).mem_iff.mp h) with h | h
    · exact .inl h
    · exact .inr (List.mem_singleton.mp h)

theorem Regular.withSection (h : Regular t.sections) (name : String) :
    Regular (t.withSection name).sections := by
  rw [Tree.withSection]
  split
  · exact h
  · next hnone =>
    rw [any_name_iff] at hnone
    refine Regular.sortSections (h.distinct.concat hnone) fun s hs ↦ ?_
    rcases List.mem_append.mp hs with hs | hs
    · exact h.hashed s hs
    · rw [List.mem_singleton.mp hs]
      rfl

theorem any_name_withSection (t : Tree) (name : String) :
    (t.withSection name).sections.any (·.name = name) = true := by
  rw [Tree.withSection]
  split
  · next hany => exact hany
  · refine List.any_eq_true.mpr ⟨.named name, (sortSections_perm _).mem_iff.mpr ?_, ?_⟩
    · exact List.mem_append_right _ (List.mem_singleton_self _)
    · exact decide_eq_true rfl

/-- There is always a section to find, the first one of that name. -/
theorem findOrCreate_eq (t : Tree) (name : String) : t.findOrCreate name =
    (t.withSection name, (t.withSection name).sections.findIdx (·.name = name)) := by
  have hfound : (t.withSection name).sections.findIdx? (·.name = name) =
      some ((t.withSection name).sections.findIdx (·.name = name)) := by
    rw [List.findIdx?_eq_some_iff_findIdx_eq, List.findIdx_lt_length]
    exact ⟨List.any_eq_true.mp (any_name_withSection t name), rfl⟩
  rw [Tree.findOrCreate, hfound, Option.getD_some]

theorem findOrCreate_name (t : Tree) (name : String) :
    ∃ s, (t.findOrCreate name).1.sections[(t.findOrCreate name).2]? = some s ∧ s.name = name := by
  rw [findOrCreate_eq]
  have hlt := List.findIdx_lt_length.mpr (List.any_eq_true.mp (any_name_withSection t name))
  have hname := @List.findIdx_getElem _ (fun s : Section ↦ decide (s.name = name)) _ hlt
  exact ⟨_, List.getElem?_eq_getElem hlt, of_decide_eq_true hname⟩

theorem add_eq_pushInto (t : Tree) (name : String) (p : Property) :
    t.add name p = (t.withSection name).pushInto name p := by
  rw [Tree.add, findOrCreate_eq, Tree.pushInto]

theorem Regular.pushAt (h : Regular t.sections) (i : Nat) (p : Property) :
    Regular (t.pushAt i p).sections :=
  h.modify _ (fun _ ↦ rfl) fun _ ↦ rfl

theorem Regular.add (h : Regular t.sections) (name : String) (p : Property) :
    Regular (t.add name p).sections :=
  (h.withSection name).pushAt _ p

theorem mem_add {s : Section} {name : String} {p : Property}
    (h : s ∈ (t.add name p).sections) : s ∈ (t.withSection name).sections ∨
      ∃ u ∈ (t.withSection name).sections, u.name = name ∧ s = u.push p := by
  rw [add_eq_pushInto] at h
  rcases mem_modify_findIdx h with h | ⟨u, hu, hname, rfl⟩
  · exact .inl h
  · exact .inr ⟨u, hu, of_decide_eq_true hname, rfl⟩

theorem withSection_version (t : Tree) (name : String) :
    (t.withSection name).version = t.version := by
  rw [Tree.withSection]
  split <;> rfl

theorem Placed.withSection (h : Placed d t) (name : String) : Placed d (t.withSection name) where
  version := (withSection_version t name).trans h.version
  regular := h.regular.withSection name
  placed s hs p hp := by
    rcases mem_withSection hs with hs | rfl
    · exact h.placed s hs p hp
    · cases hp

theorem Placed.add (h : Placed d t) {name : String} {p : Property} (hp : d.route p = (name, p)) :
    Placed d (t.add name p) where
  version := (h.withSection name).version
  regular := h.regular.add name p
  placed s hs q hq := by
    rcases mem_add hs with hs | ⟨u, hu, rfl, rfl⟩
    · exact (h.withSection name).placed s hs q hq
    · rcases List.mem_append.mp hq with hq | hq
      · exact (h.withSection u.name).placed u hu q hq
      · rw [List.mem_singleton.mp hq]
        exact hp

theorem Placed.addRaw (h : Placed d t) (hash : UInt32) (value : Value) (tag : Tag) :
    Placed d (t.addRaw d hash value tag) :=
  h.add (d.route_route ⟨hash, none, value, tag⟩)

theorem Placed.erase (h : Placed d t) (hash : UInt32) : Placed d (t.erase hash) where
  version := h.version
  regular := h.regular.modify _ (fun _ ↦ rfl) fun _ ↦ rfl
  placed s hs p hp := by
    rcases mem_modify_findIdx hs with hs | ⟨u, hu, -, rfl⟩
    · exact h.placed s hs p hp
    · exact h.placed u hu p (List.mem_of_mem_eraseP hp)

theorem Placed.name_eq (h : Placed d t) {p : Property} (hp : p ∈ t.properties) :
    p.name = some (d.place p.hash).2 := by
  obtain ⟨s, hs, hp⟩ := List.mem_flatMap.mp hp
  exact (congrArg (fun r ↦ r.2.name) (h.placed s hs p hp)).symm

/-- What the sections of a name hold, if each property is where the dictionary routes it. -/
theorem contents_eq_filter {sections : List Section}
    (hplaced : ∀ s ∈ sections, ∀ p ∈ s.properties, d.route p = (s.name, p)) (name : String) :
    contents sections name = (sections.flatMap Section.properties).filter fun p ↦
      (d.place p.hash).1 = name := by
  induction sections with
  | nil => rfl
  | cons s sections ih =>
    rw [contents_cons, List.flatMap_cons, List.filter_append,
      ← ih fun u hu ↦ hplaced u (List.mem_cons_of_mem s hu)]
    congr 1
    have hall : ∀ p ∈ s.properties, (d.place p.hash).1 = s.name := fun p hp ↦ by
      rw [← d.route_section p, hplaced s List.mem_cons_self p hp]
    by_cases hs : s.name = name
    · rw [if_pos hs, eq_comm, List.filter_eq_self]
      intro p hp
      rw [hall p hp, hs]
      exact decide_eq_true rfl
    · rw [if_neg hs, eq_comm, List.filter_eq_nil_iff]
      intro p hp hname
      exact hs (hall p hp ▸ of_decide_eq_true hname)

theorem Placed.contents_eq (h : Placed d t) (name : String) :
    contents t.sections name = t.properties.filter fun p ↦ (d.place p.hash).1 = name :=
  contents_eq_filter h.placed name

end PropertyFile
