import Mathlib.Data.List.Induction
import PropertyFile.Proofs.Tree.Search

namespace PropertyFile

variable {sections : List Section} {t : Tree}

def Property.datum (p : Property) : UInt32 × Tag × Value := (p.hash, p.tag, p.value)

namespace Tree

inductive Change where
  | addNamed (inSection name : String) (value : Value) (tag : Tag)
  | addRaw (d : Dictionary) (hash : UInt32) (value : Value) (tag : Tag)
  | withSection (name : String)
  | push (name : String) (p : Property)
  | erase (hash : UInt32)
  | organize (d : Dictionary)
  | resolve (words : List String)

def change (t : Tree) : Change → Tree
  | .addNamed inSection name value tag => t.addNamed inSection name value tag
  | .addRaw d hash value tag => t.addRaw d hash value tag
  | .withSection name => t.withSection name
  | .push name p => t.pushInto name p
  | .erase hash => t.erase hash
  | .organize d => t.organize d
  | .resolve words => ((Vocabulary.ofWords words).resolve t).1

def changes (t : Tree) (cs : List Change) : Tree := cs.foldl change t

def data (t : Tree) : List (UInt32 × Tag × Value) := t.properties.map Property.datum

/-- The property that a call adds; nothing is pushed into a section that is not there. -/
def added (t : Tree) : Change → List (UInt32 × Tag × Value)
  | .addNamed inSection name value tag => [(pairHash inSection name, tag, value)]
  | .addRaw _ hash value tag => [(hash, tag, value)]
  | .push name p => if (t.section? name).isSome then [p.datum] else []
  | _ => []

def removed (t : Tree) : Change → List (UInt32 × Tag × Value)
  | .erase hash => ((t.find? hash).map fun r ↦ r.2.datum).toList
  | _ => []

/-- What holds of a tree at all times, and of the next call. -/
structure Upheld (t : Tree) : Prop where
  distinct : (t.sections.map Section.name).Nodup
  ascending : t.sections.Pairwise fun a b ↦ a.order b = .lt
  hashed : ∀ s ∈ t.sections, s.hash = nameHash s.name
  accounted : ∀ c, ((t.change c).data ++ t.removed c).Perm (t.data ++ t.added c)
  found : ∀ name, ∃ s, (t.withSection name).section? name = some s ∧ s.name = name ∧
    s = (t.section? name).getD (.named name)

end Tree

theorem Regular.ascending (h : Regular sections) :
    sections.Pairwise fun a b ↦ a.order b = .lt := by
  have hne : sections.Pairwise fun a b ↦ a.name ≠ b.name := List.pairwise_map.mp h.distinct
  refine (h.sorted.and hne).imp fun {a b} ⟨hle, hname⟩ ↦ ?_
  cases horder : a.order b with
  | lt => rfl
  | eq => exact absurd (Section.order_eq_iff.mp horder) hname
  | gt =>
    rw [Section.before, horder] at hle
    cases hle

namespace Vocabulary

theorem hashed_settle (h : ∀ s ∈ sections, s.hash = nameHash s.name)
    (moved : String × Property) : ∀ s ∈ settle sections moved, s.hash = nameHash s.name := by
  intro s hs
  rw [settle] at hs
  split at hs
  · rcases mem_modify_findIdx hs with hs | ⟨u, hu, -, rfl⟩
    · exact h s hs
    · exact h u hu
  · rcases List.mem_append.mp hs with hs | hs
    · exact h s hs
    · rw [List.mem_singleton.mp hs]
      rfl

theorem hashed_foldl_settle (h : ∀ s ∈ sections, s.hash = nameHash s.name)
    (moved : List (String × Property)) :
    ∀ s ∈ moved.foldl settle sections, s.hash = nameHash s.name := by
  induction moved generalizing sections with
  | nil => exact h
  | cons m moved ih => exact ih (hashed_settle h m)

theorem regular_resolve (h : Regular t.sections) (words : List String) :
    Regular ((ofWords words).resolve t).1.sections := by
  by_cases hgroups : t.groups = []
  · rw [resolve, hgroups]
    exact h
  · rw [resolve_of_groups words hgroups]
    have hd := h.distinct.map_properties
      (List.filter fun p ↦ (p.hit? t.groups words).isNone)
    refine Regular.sortSections ((settle_all hd _).1.filter _) fun s hs ↦ ?_
    refine hashed_foldl_settle (fun u hu ↦ ?_) _ s (List.mem_filter.mp hs).1
    obtain ⟨v, hv, rfl⟩ := List.mem_map.mp hu
    exact h.hashed v hv

end Vocabulary

theorem Regular.change (h : Regular t.sections) (c : Tree.Change) :
    Regular (t.change c).sections := by
  cases c with
  | addNamed inSection name value tag => exact h.add inSection _
  | addRaw d hash value tag => exact h.add _ _
  | withSection name => exact h.withSection name
  | push name p => exact h.pushAt _ p
  | erase hash => exact h.modify _ (fun _ ↦ rfl) fun _ ↦ rfl
  | organize d => exact regular_organize t d
  | resolve words => exact Vocabulary.regular_resolve h words

theorem regular_changes (cs : List Tree.Change) : Regular (Tree.empty.changes cs).sections := by
  induction cs using List.reverseRecOn with
  | nil => exact ⟨List.nodup_nil, fun _ hs ↦ (List.not_mem_nil hs).elim, List.Pairwise.nil⟩
  | append_singleton cs c ih =>
    rw [Tree.changes, List.foldl_append]
    exact ih.change c

theorem section?_sortSections (sections : List Section) (name : String) :
    (sortSections sections).find? (·.name = name) = sections.find? (·.name = name) := by
  rw [← List.head?_filter, Vocabulary.filter_sortSections, List.head?_filter]

theorem section?_withSection (t : Tree) (name : String) :
    (t.withSection name).section? name = some ((t.section? name).getD (.named name)) := by
  rw [Tree.withSection]
  split
  · next hany =>
    rw [← List.isSome_find?, ← Tree.section?] at hany
    obtain ⟨s, hs⟩ := Option.isSome_iff_exists.mp hany
    rw [hs, Option.getD_some]
  · next hany =>
    rw [← List.isSome_find?, ← Tree.section?, Option.not_isSome_iff_eq_none] at hany
    have hnamed : [Section.named name].find? (·.name = name) = some (.named name) :=
      List.find?_cons_of_pos (decide_eq_true rfl)
    rw [hany, Tree.section?, section?_sortSections, List.find?_append, ← Tree.section?, hany,
      hnamed]
    rfl

theorem section?_name {name : String} {s : Section} (h : t.section? name = some s) :
    s.name = name := by
  have hname := List.find?_some h
  exact of_decide_eq_true hname

theorem isSome_section?_iff {name : String} :
    (t.section? name).isSome = true ↔ name ∈ t.sections.map Section.name := by
  rw [Tree.section?, List.isSome_find?, any_name_iff]

theorem perm_modify_findIdx {q : Section → Bool} {f : Section → Section} {p : Property}
    (hf : ∀ s, q s = true → (f s).properties.Perm (p :: s.properties))
    (h : sections.any q = true) :
    ((sections.modify (sections.findIdx q) f).flatMap Section.properties).Perm
      (p :: sections.flatMap Section.properties) := by
  induction sections with
  | nil => cases h
  | cons s sections ih =>
    rw [modify_findIdx_cons]
    by_cases hs : q s = true
    · rw [if_pos hs, List.flatMap_cons, List.flatMap_cons]
      exact (hf s hs).append_right _
    · rw [if_neg hs, List.flatMap_cons, List.flatMap_cons]
      rw [List.any_cons, eq_false_of_ne_true hs, Bool.false_or] at h
      exact ((ih h).append_left _).trans List.perm_middle

theorem properties_pushInto {name : String} (h : name ∈ t.sections.map Section.name)
    (p : Property) : (t.pushInto name p).properties.Perm (p :: t.properties) :=
  perm_modify_findIdx (fun _ _ ↦ List.perm_append_singleton p _) (any_name_iff.mpr h)

theorem pushInto_of_notMem {name : String} (h : name ∉ t.sections.map Section.name)
    (p : Property) : t.pushInto name p = t := by
  have hlength : t.sections.findIdx (·.name = name) = t.sections.length := by
    rw [List.findIdx_eq_length]
    exact fun s hs ↦ decide_eq_false fun hname ↦ h (hname ▸ List.mem_map_of_mem hs)
  rw [Tree.pushInto, hlength, Tree.pushAt, List.modify_eq_self (Nat.le_refl _)]

theorem properties_withSection (t : Tree) (name : String) :
    (t.withSection name).properties.Perm t.properties := by
  rw [Tree.withSection]
  split
  · exact .refl _
  · refine ((sortSections_perm _).flatMap_right _).trans ?_
    rw [List.flatMap_append, List.flatMap_singleton]
    exact .of_eq (List.append_nil _)

theorem properties_add (t : Tree) (name : String) (p : Property) :
    (t.add name p).properties.Perm (p :: t.properties) := by
  have hname := any_name_iff.mp (any_name_withSection t name)
  rw [add_eq_pushInto]
  exact (properties_pushInto hname p).trans ((properties_withSection t name).cons p)

theorem perm_eraseP {hash : UInt32} {p : Property} {ps : List Property}
    (h : ps.find? (·.hash = hash) = some p) :
    (p :: ps.eraseP (·.hash = hash)).Perm ps := by
  induction ps with
  | nil => cases h
  | cons q ps ih =>
    by_cases hq : q.hash = hash
    · rw [List.find?_cons_of_pos (by simpa using hq)] at h
      obtain rfl := Option.some.inj h
      rw [List.eraseP_cons_of_pos (by simpa using hq)]
    · rw [List.find?_cons_of_neg (by simpa using hq)] at h
      rw [List.eraseP_cons_of_neg (by simpa using hq)]
      exact (List.Perm.swap q p _).trans ((ih h).cons q)

theorem properties_erase (t : Tree) (hash : UInt32) :
    ((t.erase hash).properties ++ ((t.find? hash).map (·.2)).toList).Perm t.properties := by
  rw [Tree.erase, Tree.find?, Tree.properties, Tree.properties]
  induction t.sections with
  | nil => exact .refl _
  | cons s sections ih =>
    rw [modify_findIdx_cons, List.findSome?_cons, List.flatMap_cons]
    cases hfind : s.properties.find? (·.hash = hash) with
    | none =>
      have hnot : (s.properties.any (·.hash = hash)) = false := by
        rw [← List.isSome_find?, hfind]
        rfl
      rw [hnot, if_neg Bool.false_ne_true, List.flatMap_cons, List.append_assoc]
      exact ih.append_left _
    | some p =>
      have hany : (s.properties.any (·.hash = hash)) = true := by
        rw [← List.isSome_find?, hfind]
        rfl
      rw [hany, if_pos rfl, List.flatMap_cons]
      exact (List.perm_append_singleton p _).trans ((perm_eraseP hfind).append_right _)

theorem properties_organize (t : Tree) (d : Dictionary) :
    (t.organize d).properties.Perm (t.properties.map fun p ↦ (d.route p).2) := by
  let routed := t.properties.map d.route
  let names := (routed.map (·.1)).eraseDups
  have hall : routed.filter (·.1 ∉ names) = [] := by
    rw [List.filter_eq_nil_iff]
    intro r hr hnot
    exact of_decide_eq_true hnot (List.mem_eraseDups.mpr (List.mem_map_of_mem hr))
  have hruns := StableSort.perm_flatMap_filter (·.1) routed names (nodup_eraseDups _)
  rw [hall, List.append_nil] at hruns
  have hgather : (names.map fun n ↦ Section.gather n routed).flatMap Section.properties =
      (names.flatMap fun n ↦ routed.filter (·.1 = n)).map (·.2) := by
    rw [List.flatMap_map, List.map_flatMap]
    rfl
  refine ((sortSections_perm _).flatMap_right _).trans ?_
  rw [hgather]
  refine (hruns.map _).trans ?_
  rw [List.map_map]
  rfl

theorem datum_renamed (groups words : List String) (p : Property) :
    (p.renamed groups words).datum = p.datum := by
  rw [Property.renamed]
  split <;> rfl

theorem data_resolve (words : List String) (t : Tree) :
    (((Vocabulary.ofWords words).resolve t).1.data).Perm t.data := by
  by_cases hgroups : t.groups = []
  · rw [Vocabulary.resolve, hgroups]
  · refine ((Vocabulary.regrouped_resolve words hgroups).properties.map _).trans ?_
    rw [List.map_map]
    exact .of_eq (List.map_congr_left fun p _ ↦ datum_renamed _ _ p)

theorem data_change (t : Tree) (c : Tree.Change) :
    ((t.change c).data ++ t.removed c).Perm (t.data ++ t.added c) := by
  have hadd : ∀ name p, ((t.add name p).data ++ []).Perm (t.data ++ [p.datum]) := by
    intro name p
    rw [List.append_nil]
    exact ((properties_add t name p).map _).trans (List.perm_append_singleton _ _).symm
  cases c with
  | addNamed inSection name value tag => exact hadd _ _
  | addRaw d hash value tag => exact hadd _ _
  | withSection name => exact ((properties_withSection t name).map _).append_right []
  | push name p =>
    show ((t.pushInto name p).data ++ []).Perm
      (t.data ++ if (t.section? name).isSome then [p.datum] else [])
    rw [List.append_nil]
    split
    · next hsome =>
      exact ((properties_pushInto (isSome_section?_iff.mp hsome) p).map _).trans
        (List.perm_append_singleton _ _).symm
    · next hnone =>
      rw [pushInto_of_notMem (fun h ↦ hnone (isSome_section?_iff.mpr h)), List.append_nil]
  | erase hash =>
    have herase := (properties_erase t hash).map Property.datum
    rw [List.map_append, ← Option.toList_map, Option.map_map] at herase
    exact herase.trans (.of_eq (List.append_nil _).symm)
  | organize d =>
    have horganize := (properties_organize t d).map Property.datum
    rw [List.map_map] at horganize
    exact horganize.append_right []
  | resolve words => exact (data_resolve words t).append_right []

end PropertyFile
