import PropertyFile.Proofs.Tree.Placement

namespace PropertyFile

variable {d : Dictionary} {t : Tree} {sections : List Section}

def Property.unnamed (p : Property) : Property := { p with name := none }

/-- The same properties of each hash, in the same order; names do not count. -/
def Alike (ps qs : List Property) : Prop :=
  ∀ hash, (ps.filter (·.hash = hash)).map Property.unnamed =
    (qs.filter (·.hash = hash)).map Property.unnamed

theorem Alike.trans {ps qs rs : List Property} (h : Alike ps qs) (h' : Alike qs rs) :
    Alike ps rs :=
  fun hash ↦ (h hash).trans (h' hash)

theorem run_of_home (home : UInt32 → String) (ps : List Property) (hash : UInt32) :
    (ps.filter fun p ↦ home p.hash = home hash).filter (·.hash = hash) =
      ps.filter (·.hash = hash) := by
  rw [List.filter_filter]
  refine List.filter_congr fun p _ ↦ ?_
  by_cases hp : p.hash = hash
  · simp only [hp, decide_true, Bool.and_self]
  · simp only [hp, decide_false, Bool.false_and]

theorem alike_organize (t : Tree) (d : Dictionary) (hv : t.version = formatVersion) :
    Alike (t.organize d).properties t.properties := by
  intro hash
  have hrun : (t.organize d).properties.filter (·.hash = hash) =
      ((t.properties.filter fun p ↦ (d.place p.hash).1 = (d.place hash).1).filter
        (·.hash = hash)).map fun p ↦ (d.route p).2 := by
    rw [← run_of_home (fun h ↦ (d.place h).1), ← (placed_organize t d hv).contents_eq,
      contents_organize]
    simp only [List.filter_map, List.map_map]
    rfl
  rw [hrun, run_of_home (fun h ↦ (d.place h).1), List.map_map]
  rfl

namespace Vocabulary

theorem names_settle (sections : List Section) (moved : String × Property) :
    (settle sections moved).map Section.name = if moved.1 ∈ sections.map Section.name
      then sections.map Section.name else sections.map Section.name ++ [moved.1] := by
  rw [settle]
  by_cases h : moved.1 ∈ sections.map Section.name
  · rw [if_pos (any_name_iff.mpr h), if_pos h]
    exact map_modify_of_eq Section.name (fun s ↦ s.push moved.2) (fun _ ↦ rfl) _ _
  · rw [if_neg (fun ha ↦ h (any_name_iff.mp ha)), if_neg h, List.map_append]
    rfl

theorem distinct_settle (h : Distinct sections) (moved : String × Property) :
    Distinct (settle sections moved) := by
  rw [Distinct, names_settle]
  split
  · exact h
  · next hnone =>
    rw [← List.concat_eq_append]
    exact List.Nodup.concat hnone h

theorem contents_settle (h : Distinct sections) (moved : String × Property) (name : String) :
    contents (settle sections moved) name =
      contents sections name ++ if moved.1 = name then [moved.2] else [] := by
  rw [settle]
  by_cases hm : moved.1 ∈ sections.map Section.name
  · rw [if_pos (any_name_iff.mpr hm)]
    exact contents_push h hm moved.2 name
  · rw [if_neg (fun ha ↦ hm (any_name_iff.mp ha)), contents_append, contents_singleton]
    rfl

/-- Settling appends to each section what was moved there, in the order of the moves. -/
theorem settle_all (h : Distinct sections) (moved : List (String × Property)) :
    Distinct (moved.foldl settle sections) ∧ ∀ name, contents (moved.foldl settle sections) name =
      contents sections name ++ (moved.filter (·.1 = name)).map (·.2) := by
  induction moved generalizing sections with
  | nil => exact ⟨h, fun name ↦ (List.append_nil _).symm⟩
  | cons m moved ih =>
    obtain ⟨hd, hc⟩ := ih (distinct_settle h m)
    refine ⟨hd, fun name ↦ ?_⟩
    rw [List.foldl_cons, hc, contents_settle h]
    by_cases hm : m.1 = name
    · rw [if_pos hm, List.filter_cons_of_pos (by simpa using hm), List.append_assoc]
      rfl
    · rw [if_neg hm, List.filter_cons_of_neg (by simpa using hm), List.append_nil]

section

variable (named : Std.ExtTreeMap UInt32 (String × String))

theorem move?_eq_some_iff {p q : Property} {group : String} :
    move? named p = some (group, q) ↔ p.isUnresolved = true ∧
      ∃ word, named[p.hash]? = some (group, word) ∧ q = { p with name := some word } := by
  rw [move?]
  split
  · next h =>
    rw [Option.map_eq_some_iff]
    constructor
    · rintro ⟨⟨g, w⟩, hget, heq⟩
      obtain ⟨rfl, rfl⟩ := Prod.mk.inj heq
      exact ⟨h, w, hget, rfl⟩
    · rintro ⟨-, w, hget, rfl⟩
      exact ⟨(group, w), hget, rfl⟩
  · next h =>
    constructor
    · intro hnone
      cases hnone
    · rintro ⟨h', -⟩
      exact absurd h' h

theorem hash_of_move? {p q : Property} {group : String} (h : move? named p = some (group, q)) :
    q.hash = p.hash := by
  obtain ⟨-, -, -, rfl⟩ := (move?_eq_some_iff named).mp h
  rfl

theorem move?_congr {p q : Property} {group word : String} (hh : q.hash = p.hash)
    (hn : q.name = p.name) (h : move? named p = some (group, { p with name := some word })) :
    move? named q = some (group, { q with name := some word }) := by
  obtain ⟨hu, w, hget, heq⟩ := (move?_eq_some_iff named).mp h
  obtain rfl : word = w := Option.some.inj (congrArg Property.name heq)
  refine (move?_eq_some_iff named).mpr ⟨?_, word, hh ▸ hget, rfl⟩
  rwa [Property.isUnresolved, hn]

def resolved (t : Tree) : List Section :=
  sortSections (((t.properties.filterMap (move? named)).foldl settle (t.sections.map fun s ↦
    { s with properties := s.properties.filter fun p ↦ (move? named p).isNone })).filter
      (!·.properties.isEmpty))

theorem contents_resolved (h : Distinct t.sections) (name : String) :
    contents (resolved named t) name =
      (contents t.sections name).filter (fun p ↦ (move? named p).isNone) ++
        ((t.properties.filterMap (move? named)).filter (·.1 = name)).map (·.2) := by
  obtain ⟨hd, hc⟩ := settle_all (h.map_properties (List.filter fun p ↦ (move? named p).isNone))
    (t.properties.filterMap (move? named))
  rw [resolved, (hd.filter _).contents_perm (sortSections_perm _), contents_filter_nonempty, hc,
    h.contents_map List.filter_nil]

theorem mem_moved {p : Property} {name : String}
    (h : p ∈ ((t.properties.filterMap (move? named)).filter (·.1 = name)).map (·.2)) :
    ∃ q ∈ t.properties, move? named q = some (name, p) := by
  obtain ⟨⟨n, p⟩, hr, rfl⟩ := List.mem_map.mp h
  obtain ⟨hr, hn⟩ := List.mem_filter.mp hr
  obtain ⟨q, hq, hmove⟩ := List.mem_filterMap.mp hr
  obtain rfl : n = name := of_decide_eq_true hn
  exact ⟨q, hq, hmove⟩

theorem mem_resolved (h : Distinct t.sections) {s : Section} (hs : s ∈ resolved named t)
    {p : Property} (hp : p ∈ s.properties) :
    (p ∈ contents t.sections s.name ∧ move? named p = none) ∨
      ∃ q ∈ t.properties, move? named q = some (s.name, p) := by
  have hmem := mem_contents.mpr ⟨s, hs, rfl, hp⟩
  rw [contents_resolved named h] at hmem
  rcases List.mem_append.mp hmem with hmem | hmem
  · obtain ⟨hmem, hnone⟩ := List.mem_filter.mp hmem
    exact .inl ⟨hmem, Option.isNone_iff_eq_none.mp hnone⟩
  · exact .inr (mem_moved named hmem)

theorem mem_of_mem_contents {p : Property} {name : String} (h : p ∈ contents t.sections name) :
    p ∈ t.properties := by
  obtain ⟨s, hs, -, hp⟩ := mem_contents.mp h
  exact List.mem_flatMap.mpr ⟨s, hs, hp⟩

theorem run_of_kept (h : Placed d t) {hash : UInt32}
    (hkept : ∀ p ∈ t.properties, p.hash = hash → move? named p = none) :
    ((resolved named t).flatMap Section.properties).filter (·.hash = hash) =
      t.properties.filter (·.hash = hash) := by
  have hd := h.regular.distinct
  have hhome : ∀ s ∈ resolved named t, ∀ p ∈ s.properties, p.hash = hash →
      s.name = (d.place hash).1 := by
    intro s hs p hp hhash
    rcases mem_resolved named hd hs hp with ⟨hmem, -⟩ | ⟨q, hq, hmove⟩
    · rw [h.contents_eq] at hmem
      rw [← of_decide_eq_true (List.mem_filter.mp hmem).2, hhash]
    · rw [hkept q hq ((hash_of_move? named hmove).symm.trans hhash)] at hmove
      cases hmove
  have hmoved : (((t.properties.filterMap (move? named)).filter
      (·.1 = (d.place hash).1)).map (·.2)).filter (·.hash = hash) = [] := by
    rw [List.filter_eq_nil_iff]
    intro p hp hhash
    obtain ⟨q, hq, hmove⟩ := mem_moved named hp
    rw [hkept q hq ((hash_of_move? named hmove).symm.trans (of_decide_eq_true hhash))] at hmove
    cases hmove
  have hstay : ((contents t.sections (d.place hash).1).filter
      fun p ↦ (move? named p).isNone).filter (·.hash = hash) =
        (contents t.sections (d.place hash).1).filter (·.hash = hash) := by
    rw [List.filter_filter]
    refine List.filter_congr fun p hp ↦ ?_
    by_cases hhash : p.hash = hash
    · rw [hkept p (mem_of_mem_contents hp) hhash, Option.isNone_none, Bool.and_true]
    · rw [decide_eq_false hhash, Bool.false_and]
  rw [run_eq_contents hhome, contents_resolved named hd, List.filter_append, hmoved,
    List.append_nil, hstay, h.contents_eq, run_of_home fun h ↦ (d.place h).1]

theorem run_moved {ps : List Property} {hash : UInt32} {group word : String}
    (hm : ∀ p ∈ ps, p.hash = hash → move? named p = some (group, { p with name := some word })) :
    (((ps.filterMap (move? named)).filter (·.1 = group)).map (·.2)).filter (·.hash = hash) =
      (ps.filter (·.hash = hash)).map fun p ↦ { p with name := some word } := by
  induction ps with
  | nil => rfl
  | cons p ps ih =>
    have htail := ih fun q hq ↦ hm q (List.mem_cons_of_mem p hq)
    by_cases hp : p.hash = hash
    · rw [List.filterMap_cons_some (hm p List.mem_cons_self hp),
        List.filter_cons_of_pos (by simp only [decide_true]), List.map_cons,
        List.filter_cons_of_pos (by simpa using hp), htail,
        List.filter_cons_of_pos (by simpa using hp), List.map_cons]
    · rw [List.filter_cons_of_neg (by simpa using hp), ← htail]
      cases hmove : move? named p with
      | none => rw [List.filterMap_cons_none hmove]
      | some r =>
        have hr : r.2.hash ≠ hash := (hash_of_move? named hmove).symm ▸ hp
        rw [List.filterMap_cons_some hmove]
        by_cases hgroup : r.1 = group
        · rw [List.filter_cons_of_pos (by simpa using hgroup), List.map_cons,
            List.filter_cons_of_neg (by simpa using hr)]
        · rw [List.filter_cons_of_neg (by simpa using hgroup)]

/-- A hash of which one property moves has its run in the group that it moves to. -/
theorem run_of_moved (h : Placed d t) {hash : UInt32} {group word : String}
    (hmoves : ∀ p ∈ t.properties, p.hash = hash →
      move? named p = some (group, { p with name := some word })) :
    ((resolved named t).flatMap Section.properties).filter (·.hash = hash) =
      (t.properties.filter (·.hash = hash)).map fun p ↦ { p with name := some word } := by
  have hd := h.regular.distinct
  have hhome : ∀ s ∈ resolved named t, ∀ p ∈ s.properties, p.hash = hash → s.name = group := by
    intro s hs p hp hhash
    rcases mem_resolved named hd hs hp with ⟨hmem, hnone⟩ | ⟨q, hq, hmove⟩
    · rw [hmoves p (mem_of_mem_contents hmem) hhash] at hnone
      cases hnone
    · rw [hmoves q hq ((hash_of_move? named hmove).symm.trans hhash)] at hmove
      exact (Prod.mk.inj (Option.some.inj hmove)).1.symm
  have hstay : ((contents t.sections group).filter
      fun p ↦ (move? named p).isNone).filter (·.hash = hash) = [] := by
    rw [List.filter_eq_nil_iff]
    intro p hp hhash
    obtain ⟨hp, hnone⟩ := List.mem_filter.mp hp
    rw [hmoves p (mem_of_mem_contents hp) (of_decide_eq_true hhash)] at hnone
    cases hnone
  rw [run_eq_contents hhome, contents_resolved named hd, List.filter_append, hstay,
    List.nil_append, run_moved named hmoves]

theorem alike_resolved (h : Placed d t) :
    Alike ((resolved named t).flatMap Section.properties) t.properties := by
  intro hash
  by_cases hkept : ∀ p ∈ t.properties, p.hash = hash → move? named p = none
  · rw [run_of_kept named h hkept]
  · push Not at hkept
    obtain ⟨p, hp, hhash, hmove⟩ := hkept
    obtain ⟨⟨group, q⟩, hmove⟩ := Option.ne_none_iff_exists'.mp hmove
    obtain ⟨-, word, -, rfl⟩ := (move?_eq_some_iff named).mp hmove
    have hmoves : ∀ r ∈ t.properties, r.hash = hash →
        move? named r = some (group, { r with name := some word }) := by
      intro r hr hrhash
      refine move?_congr named (hrhash.trans hhash.symm) ?_ hmove
      rw [h.name_eq hr, h.name_eq hp, hrhash, hhash]
    rw [run_of_moved named h hmoves, List.map_map]
    rfl

end

theorem version_resolve (v : Vocabulary) (t : Tree) : (v.resolve t).1.version = t.version := by
  rw [resolve]
  split <;> rfl

theorem alike_resolve (v : Vocabulary) (h : Placed d t) :
    Alike (v.resolve t).1.properties t.properties := by
  rw [resolve]
  split
  · exact fun _ ↦ rfl
  · exact alike_resolved _ h

end Vocabulary

end PropertyFile
