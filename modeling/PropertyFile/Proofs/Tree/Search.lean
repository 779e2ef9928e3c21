import PropertyFile.Proofs.Tree.Runs

namespace PropertyFile

variable {groups words : List String}

def Property.hit? (groups words : List String) (p : Property) : Option (String × String) :=
  if p.isUnresolved then Dictionary.findPair? p.hash groups words else none

def Property.renamed (groups words : List String) (p : Property) : Property :=
  match p.hit? groups words with
  | some (_, word) => { p with name := some word }
  | none => p

/-- A section without the properties for which a pair was found. -/
def Section.rest (groups words : List String) (s : Section) : Section :=
  { s with properties := s.properties.filter fun p ↦ (p.hit? groups words).isNone }

def arrivals (groups words : List String) (group : String) (ps : List Property) : List Property :=
  (ps.filter fun p ↦ (p.hit? groups words).map Prod.fst = some group).map
    (Property.renamed groups words)

/-- Properties at the end of the first of the sections of a name, or in a new section. -/
def receive (name : String) (ps : List Property) : List Section → List Section
  | [] => [⟨nameHash name, name, ps⟩]
  | s :: sections => { s with properties := s.properties ++ ps } :: sections

/-- What a tree becomes by a plain search. The sections of each name are given, in their order;
with the order of the names that is all of them. -/
structure Regrouped (words : List String) (t : Tree) (r : Tree × Resolution) : Prop where
  version : r.1.version = t.version
  groups : r.2.groups = t.groups
  resolved : r.2.resolved = t.properties.countP fun p ↦ (p.hit? t.groups words).isSome
  sections : ∀ name, r.1.sections.filter (·.name = name) =
    (receive name (arrivals t.groups words name t.properties)
      ((t.sections.filter (·.name = name)).map (Section.rest t.groups words))).filter
        (!·.properties.isEmpty)
  properties : r.1.properties.Perm (t.properties.map (Property.renamed t.groups words))
  nonempty : ∀ s ∈ r.1.sections, s.properties ≠ []
  sorted : r.1.sections.Pairwise fun a b ↦ a.before b = true

theorem find?_eraseDups (q : String → Bool) : (words : List String) →
    words.eraseDups.find? q = words.find? q
  | [] => rfl
  | w :: words => by
    rw [List.eraseDups_cons]
    cases hw : q w with
    | true => rw [List.find?_cons_of_pos hw, List.find?_cons_of_pos hw]
    | false =>
      rw [List.find?_cons_of_neg (by rw [hw]; decide), List.find?_cons_of_neg (by rw [hw]; decide),
        find?_eraseDups q (words.filter fun b ↦ !b == w), List.find?_filter]
      -- What the first word leaves out is a word that does not pass either.
      congr 1
      funext b
      by_cases hb : b = w
      · subst hb
        simp [hw]
      · simp [hb]
termination_by words => words.length
decreasing_by
  exact Nat.lt_succ_of_le (List.length_filter_le _ _)

namespace Dictionary

theorem findPair?_eraseDups (target : UInt32) (groups words : List String) :
    findPair? target groups words.eraseDups = findPair? target groups words := by
  simp only [findPair?, find?_eraseDups]

theorem findPair?_eq_find? (target : UInt32) (groups words : List String) :
    findPair? target groups words =
      (groups.flatMap fun g ↦ words.map fun w ↦ (g, w)).find?
        fun gw ↦ pairHash gw.1 gw.2 = target := by
  rw [List.find?_flatMap, findPair?]
  congr 1
  funext g
  rw [List.find?_map]
  rfl

theorem guess_eq_findPair? (d : Dictionary) (target : UInt32) (groups words : List String) :
    (d.guess target groups words).2 =
      (findPair? target groups words).map fun gw ↦ pairName gw.1 gw.2 := by
  rw [guess]
  cases findPair? target groups words <;> rfl

end Dictionary

namespace Vocabulary

theorem getElem?_foldl_insertIfNew (pairs : List (String × String))
    (m : Std.ExtTreeMap UInt32 (String × String)) (hash : UInt32) :
    (pairs.foldl (fun m gw ↦ m.insertIfNew (pairHash gw.1 gw.2) gw) m)[hash]? =
      m[hash]?.or (pairs.find? fun gw ↦ pairHash gw.1 gw.2 = hash) := by
  induction pairs generalizing m with
  | nil => rw [List.foldl_nil, List.find?_nil, Option.or_none]
  | cons gw pairs ih =>
    rw [List.foldl_cons, ih, Std.ExtTreeMap.getElem?_insertIfNew]
    simp only [Std.compare_eq_iff_eq]
    by_cases hgw : pairHash gw.1 gw.2 = hash
    · subst hgw
      rw [List.find?_cons_of_pos (by simp only [decide_true])]
      by_cases hm : pairHash gw.1 gw.2 ∈ m
      · rw [if_neg fun h ↦ h.2 hm, Std.ExtTreeMap.getElem?_eq_some_getElem hm, Option.some_or,
          Option.some_or]
      · rw [if_pos ⟨rfl, hm⟩, Std.ExtTreeMap.getElem?_eq_none hm, Option.some_or, Option.none_or]
    · rw [List.find?_cons_of_neg (by simpa using hgw), if_neg fun h ↦ hgw h.1]

theorem getElem?_candidates (v : Vocabulary) (groups : List String) (hash : UInt32) :
    (v.candidates groups)[hash]? = Dictionary.findPair? hash groups v.words := by
  rw [candidates, getElem?_foldl_insertIfNew, Dictionary.findPair?_eq_find?]
  rfl

/-- The table finds the pair that the plain search finds. -/
theorem move?_candidates (words groups : List String) (p : Property) :
    move? ((ofWords words).candidates groups) p =
      (p.hit? groups words).map fun gw ↦ (gw.1, p.renamed groups words) := by
  rw [move?, Property.renamed, Property.hit?, getElem?_candidates, ofWords,
    Dictionary.findPair?_eraseDups]
  split
  · cases Dictionary.findPair? p.hash groups words <;> rfl
  · rfl

theorem settle_nil (moved : String × Property) :
    settle [] moved = [(Section.named moved.1).push moved.2] := rfl

theorem settle_cons (s : Section) (sections : List Section) (moved : String × Property) :
    settle (s :: sections) moved =
      if s.name = moved.1 then s.push moved.2 :: sections else s :: settle sections moved := by
  rw [settle, settle, List.any_cons, modify_findIdx_cons]
  by_cases hs : s.name = moved.1
  · rw [decide_eq_true hs, Bool.true_or, if_pos rfl, if_pos rfl, if_pos hs]
  · rw [decide_eq_false hs, Bool.false_or, if_neg hs, if_neg Bool.false_ne_true]
    split <;> rfl

theorem filter_name_cons (s : Section) (sections : List Section) (name : String) :
    (s :: sections).filter (·.name = name) =
      if s.name = name then s :: sections.filter (·.name = name)
      else sections.filter (·.name = name) := by
  rw [List.filter_cons]
  simp only [decide_eq_true_eq]

theorem filter_settle (sections : List Section) (moved : String × Property) (name : String) :
    (settle sections moved).filter (·.name = name) =
      if moved.1 = name then receive name [moved.2] (sections.filter (·.name = name))
      else sections.filter (·.name = name) := by
  obtain ⟨group, p⟩ := moved
  have hpush : ∀ s : Section, (s.push p).name = s.name := fun _ ↦ rfl
  induction sections with
  | nil =>
    rw [settle_nil, filter_name_cons, hpush, Section.named]
    by_cases hg : group = name
    · subst hg
      rw [if_pos rfl, if_pos rfl]
      rfl
    · rw [if_neg hg, if_neg hg]
  | cons s sections ih =>
    rw [settle_cons, filter_name_cons]
    by_cases hs : s.name = group
    · rw [if_pos hs, filter_name_cons, hpush, hs]
      by_cases hg : group = name
      · rw [if_pos hg, if_pos hg, if_pos hg]
        rfl
      · rw [if_neg hg, if_neg hg, if_neg hg]
    · rw [if_neg hs, filter_name_cons, ih]
      by_cases hname : s.name = name
      · -- The section before the one that receives is of another name.
        have hg : ¬(group, p).1 = name := fun hg ↦ hs (hname.trans hg.symm)
        rw [if_neg hg, if_neg hg]
      · rw [if_neg hname, if_neg hname]

theorem perm_settle (sections : List Section) (moved : String × Property) :
    ((settle sections moved).flatMap Section.properties).Perm
      (sections.flatMap Section.properties ++ [moved.2]) := by
  induction sections with
  | nil => exact .refl _
  | cons s sections ih =>
    rw [settle_cons]
    split
    · rw [List.flatMap_cons, List.flatMap_cons, Section.push, List.append_assoc, List.append_assoc]
      exact .append_left _ List.perm_append_comm
    · rw [List.flatMap_cons, List.flatMap_cons, List.append_assoc]
      exact ih.append_left _

theorem receive_receive (name : String) (ps qs : List Property) (sections : List Section) :
    receive name qs (receive name ps sections) = receive name (ps ++ qs) sections := by
  cases sections with
  | nil => rfl
  | cons s sections => rw [receive, receive, receive, List.append_assoc]

theorem filter_receive_nil (name : String) (sections : List Section) :
    (receive name [] sections).filter (!·.properties.isEmpty) =
      sections.filter (!·.properties.isEmpty) := by
  cases sections with
  | nil => rfl
  | cons s sections => rw [receive, List.append_nil]

theorem filter_foldl_settle (sections : List Section) (moved : List (String × Property))
    (name : String) : ((moved.foldl settle sections).filter (·.name = name)).filter
        (!·.properties.isEmpty) =
      (receive name ((moved.filter (·.1 = name)).map (·.2))
        (sections.filter (·.name = name))).filter (!·.properties.isEmpty) := by
  induction moved generalizing sections with
  | nil => rw [List.foldl_nil, List.filter_nil, List.map_nil, filter_receive_nil]
  | cons m moved ih =>
    rw [List.foldl_cons, ih, filter_settle]
    by_cases hm : m.1 = name
    · rw [if_pos hm, receive_receive, List.filter_cons_of_pos (by simpa using hm), List.map_cons]
      rfl
    · rw [if_neg hm, List.filter_cons_of_neg (by simpa using hm)]

theorem perm_foldl_settle (sections : List Section) (moved : List (String × Property)) :
    ((moved.foldl settle sections).flatMap Section.properties).Perm
      (sections.flatMap Section.properties ++ moved.map (·.2)) := by
  induction moved generalizing sections with
  | nil => rw [List.map_nil, List.append_nil, List.foldl_nil]
  | cons m moved ih =>
    refine (ih (settle sections m)).trans ?_
    rw [List.map_cons, List.append_cons]
    exact (perm_settle sections m).append_right _

variable (groups words)

theorem arrivals_eq (name : String) (ps : List Property) :
    ((ps.filterMap (move? ((ofWords words).candidates groups))).filter (·.1 = name)).map (·.2) =
      arrivals groups words name ps := by
  induction ps with
  | nil => rfl
  | cons p ps ih =>
    have hmove := move?_candidates words groups p
    rw [arrivals] at ih ⊢
    cases hhit : p.hit? groups words with
    | none =>
      rw [hhit] at hmove
      rw [List.filterMap_cons_none hmove, ih, List.filter_cons_of_neg (by simp [hhit])]
    | some gw =>
      rw [hhit] at hmove
      rw [List.filterMap_cons_some hmove]
      by_cases hg : gw.1 = name
      · rw [List.filter_cons_of_pos (by simpa using hg), List.map_cons, ih,
          List.filter_cons_of_pos (by simpa [hhit] using hg), List.map_cons]
      · rw [List.filter_cons_of_neg (by simpa using hg), ih,
          List.filter_cons_of_neg (by simpa [hhit] using hg)]

theorem perm_kept_moved (ps : List Property) :
    (ps.filter (fun p ↦ (p.hit? groups words).isNone) ++
      (ps.filterMap (move? ((ofWords words).candidates groups))).map (·.2)).Perm
        (ps.map (Property.renamed groups words)) := by
  induction ps with
  | nil => exact .refl _
  | cons p ps ih =>
    have hmove := move?_candidates words groups p
    cases hhit : p.hit? groups words with
    | none =>
      have hsame : p.renamed groups words = p := by rw [Property.renamed, hhit]
      rw [hhit] at hmove
      rw [List.filterMap_cons_none hmove, List.filter_cons_of_pos (by rw [hhit]; rfl),
        List.map_cons, hsame]
      exact ih.cons p
    | some gw =>
      rw [hhit] at hmove
      rw [List.filterMap_cons_some hmove, List.filter_cons_of_neg (by simp [hhit]), List.map_cons,
        List.map_cons]
      exact List.perm_middle.trans (ih.cons _)

theorem filter_sortSections (sections : List Section) (name : String) :
    (sortSections sections).filter (·.name = name) = sections.filter (·.name = name) := by
  refine StableSort.filter_mergeSort Section.before_preorder _ (fun a b ha hb ↦ ?_) sections
  have hname : a.name = b.name := (of_decide_eq_true ha).trans (of_decide_eq_true hb).symm
  rw [Section.before, Section.order_eq_iff.mpr hname]
  rfl

def movedSections (t : Tree) : List Section :=
  (t.properties.filterMap (move? ((ofWords words).candidates t.groups))).foldl settle
    (t.sections.map (Section.rest t.groups words))

theorem resolve_of_groups {t : Tree} (h : t.groups ≠ []) :
    (ofWords words).resolve t =
      ({ t with sections := sortSections ((movedSections words t).filter (!·.properties.isEmpty)) },
        ⟨t.groups, t.properties.countP fun p ↦ (p.hit? t.groups words).isSome⟩) := by
  have hcount : (t.properties.filterMap (move? ((ofWords words).candidates t.groups))).length =
      t.properties.countP fun p ↦ (p.hit? t.groups words).isSome := by
    rw [List.length_filterMap_eq_countP]
    simp only [move?_candidates, Option.isSome_map]
  have hrest : (fun s : Section ↦ { s with properties := s.properties.filter fun p ↦
      (move? ((ofWords words).candidates t.groups) p).isNone }) =
        Section.rest t.groups words := by
    funext s
    simp only [move?_candidates, Option.isNone_map, Section.rest]
  rw [resolve]
  split
  · next hnil => exact absurd hnil h
  · rw [← hcount, movedSections, ← hrest]

theorem perm_movedSections (t : Tree) : ((movedSections words t).flatMap Section.properties).Perm
    (t.properties.map (Property.renamed t.groups words)) := by
  refine (perm_foldl_settle _ _).trans ?_
  rw [List.flatMap_map]
  have hrest : t.sections.flatMap (fun s ↦ (s.rest t.groups words).properties) =
      t.properties.filter fun p ↦ (p.hit? t.groups words).isNone := by
    rw [Tree.properties, List.filter_flatMap]
    rfl
  rw [hrest]
  exact perm_kept_moved t.groups words t.properties

theorem flatMap_filter_nonempty (sections : List Section) :
    (sections.filter (!·.properties.isEmpty)).flatMap Section.properties =
      sections.flatMap Section.properties := by
  induction sections with
  | nil => rfl
  | cons s sections ih =>
    rw [List.flatMap_cons, ← ih]
    cases hp : s.properties with
    | nil => rw [List.filter_cons_of_neg (by simp [hp]), List.nil_append]
    | cons p ps => rw [List.filter_cons_of_pos (by simp [hp]), List.flatMap_cons, hp]

theorem regrouped_resolve (words : List String) {t : Tree} (h : t.groups ≠ []) :
    Regrouped words t ((ofWords words).resolve t) := by
  rw [resolve_of_groups words h]
  refine ⟨rfl, rfl, rfl, fun name ↦ ?_, ?_, fun s hs ↦ ?_,
    Section.before_preorder.pairwise_mergeSort _⟩
  · show (sortSections _).filter _ = _
    rw [filter_sortSections, List.filter_comm, movedSections, filter_foldl_settle, arrivals_eq,
      List.filter_map]
    rfl
  · refine ((sortSections_perm _).flatMap_right _).trans ?_
    rw [flatMap_filter_nonempty]
    exact perm_movedSections words t
  · have hmem := (List.mem_filter.mp ((sortSections_perm _).mem_iff.mp hs)).2
    simpa using hmem

end Vocabulary

/-- The plain search settles everything about the result. -/
theorem Regrouped.unique {t : Tree} {r r' : Tree × Resolution} (h : Regrouped words t r)
    (h' : Regrouped words t r') : r = r' := by
  obtain ⟨⟨version, sections⟩, ⟨groups, resolved⟩⟩ := r
  obtain ⟨⟨version', sections'⟩, ⟨groups', resolved'⟩⟩ := r'
  obtain rfl : version = version' := h.version.trans h'.version.symm
  obtain rfl : groups = groups' := h.groups.trans h'.groups.symm
  obtain rfl : resolved = resolved' := h.resolved.trans h'.resolved.symm
  obtain rfl : sections = sections' := by
    refine StableSort.eq_of_runs Section.before_preorder h.sorted h'.sorted fun a ↦ ?_
    rw [funext (Section.tied_before a)]
    exact (h.sections a.name).trans (h'.sections a.name).symm
  rfl

namespace Vocabulary

/-- Naming sections at run time gives what the plain search gives, and nothing else. -/
theorem resolve_eq_iff_regrouped (words : List String) (t : Tree) :
    (∀ d target, (Dictionary.guess d target t.groups words).2 =
      (Dictionary.findPair? target t.groups words).map fun gw ↦ Dictionary.pairName gw.1 gw.2) ∧
      (t.groups = [] → (ofWords words).resolve t = (t, ⟨[], 0⟩)) ∧
        (t.groups ≠ [] → ∀ r, (ofWords words).resolve t = r ↔ Regrouped words t r) := by
  refine ⟨fun d target ↦ Dictionary.guess_eq_findPair? d target t.groups words, fun h ↦ ?_,
    fun h r ↦ ⟨?_, fun hr ↦ (regrouped_resolve words h).unique hr⟩⟩
  · rw [resolve, h]
  · rintro rfl
    exact regrouped_resolve words h

def beamTree : Tree :=
  ⟨formatVersion, [{ Section.named systemSection with properties :=
    [⟨pairHash systemSection "GroupPart1", some "GroupPart1", .string "Beam", .string⟩,
      ⟨pairHash "Beam" "p-life", none, .bool true, .bool⟩] }]⟩

theorem beamTree_regrouped : beamTree.groups = ["Beam"] ∧
    ((ofWords ["p-life"]).resolve beamTree).2.resolved = 1 ∧
      Regrouped ["p-life"] beamTree ((ofWords ["p-life"]).resolve beamTree) := by
  have hgroups : beamTree.groups = ["Beam"] := by decide
  have hne : beamTree.groups ≠ [] := by
    rw [hgroups]
    exact List.cons_ne_nil _ _
  exact ⟨hgroups, by decide,
    ((resolve_eq_iff_regrouped ["p-life"] beamTree).2.2 hne _).mp rfl⟩

end Vocabulary

end PropertyFile
