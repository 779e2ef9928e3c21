import Std.Data.ExtTreeMap
import PropertyFile.Text.Blank
import PropertyFile.Tree.Basic

namespace PropertyFile

/-- The words that properties of such sections are called by. -/
structure Vocabulary where
  words : List String

namespace Vocabulary

def ofWords (words : List String) : Vocabulary := ⟨words.eraseDups⟩

end Vocabulary

def wordsOfText (text : String) : List String := (Text.trimmedLines text.toList).map .ofList

def systemSection : String := "System"

/-- What the names of properties that list a group start with. -/
def groupMark : String := "GroupPart"

def Property.group? (p : Property) : Option String :=
  match p.name, p.value with
  | some n, .string g =>
    if groupMark.toList.isPrefixOf n.toList && !(Text.trim g.toList).isEmpty then some g else none
  | _, _ => none

theorem Property.group?_eq_some_iff {p : Property} {g : String} : p.group? = some g ↔
    p.value = .string g ∧ (∃ rest, p.name = some (groupMark ++ rest)) ∧
      ∃ c ∈ g.toList, Text.isBlank c = false := by
  have htrim : ∀ s : String, (!(Text.trim s.toList).isEmpty) = true ↔
      ∃ c ∈ s.toList, Text.isBlank c = false := by
    intro s
    rw [Bool.not_eq_true', List.isEmpty_eq_false_iff, ne_eq, Text.trim_eq_nil_iff]
    simp
  obtain ⟨hash, name, value, tag⟩ := p
  cases name with
  | none => simp [group?]
  | some n =>
    cases value with
    | string s =>
      simp only [group?, Option.ite_none_right_eq_some, Bool.and_eq_true, htrim,
        Text.isPrefixOf_toList_iff, Option.some.injEq, Value.string.injEq]
      constructor
      · rintro ⟨⟨hmark, hs⟩, rfl⟩
        exact ⟨rfl, hmark, hs⟩
      · rintro ⟨rfl, hmark, hs⟩
        exact ⟨⟨hmark, hs⟩, rfl⟩
    | _ => simp [group?]

/-- The groups listed by the first section called `System`, by name or by hash. -/
def Tree.groups (t : Tree) : List String :=
  match t.sections.find? fun s ↦ s.hash = nameHash systemSection || s.name = systemSection with
  | some s => (s.properties.filterMap Property.group?).eraseDups
  | none => []

theorem Tree.mem_groups_iff {t : Tree} {g : String} : g ∈ t.groups ↔
    ∃ before s after, t.sections = before ++ s :: after ∧
      (s.hash = nameHash systemSection ∨ s.name = systemSection) ∧
      (∀ u ∈ before, u.hash ≠ nameHash systemSection ∧ u.name ≠ systemSection) ∧
      ∃ p ∈ s.properties, p.group? = some g := by
  have hfirst : ∀ s, t.sections.find? (fun s ↦ s.hash = nameHash systemSection ||
      s.name = systemSection) = some s ↔ ∃ before after, t.sections = before ++ s :: after ∧
        (s.hash = nameHash systemSection ∨ s.name = systemSection) ∧
        ∀ u ∈ before, u.hash ≠ nameHash systemSection ∧ u.name ≠ systemSection := by
    intro s
    simp only [List.find?_eq_some_iff_append, Bool.or_eq_true, decide_eq_true_eq, Bool.not_eq_true',
      Bool.or_eq_false_iff, decide_eq_false_iff_not]
    constructor
    · rintro ⟨hs, before, after, heq, hbefore⟩
      exact ⟨before, after, heq, hs, hbefore⟩
    · rintro ⟨before, after, heq, hs, hbefore⟩
      exact ⟨hs, before, after, heq, hbefore⟩
  constructor
  · intro hg
    rw [groups] at hg
    split at hg
    · next s hs =>
      obtain ⟨before, after, heq, hsystem, hbefore⟩ := (hfirst s).mp hs
      exact ⟨before, s, after, heq, hsystem, hbefore,
        List.mem_filterMap.mp (List.mem_eraseDups.mp hg)⟩
    · exact (List.not_mem_nil hg).elim
  · rintro ⟨before, s, after, heq, hsystem, hbefore, hp⟩
    rw [groups, (hfirst s).mpr ⟨before, after, heq, hsystem, hbefore⟩]
    exact List.mem_eraseDups.mpr (List.mem_filterMap.mpr hp)

structure Resolution where
  groups : List String
  resolved : Nat
deriving DecidableEq, Repr

namespace Vocabulary

/-- For each hash the first pair, groups outermost, that has it. -/
def candidates (v : Vocabulary) (groups : List String) :
    Std.ExtTreeMap UInt32 (String × String) :=
  (groups.flatMap fun g ↦ v.words.map fun w ↦ (g, w)).foldl
    (fun m gw ↦ m.insertIfNew (pairHash gw.1 gw.2) gw) ∅

def move? (named : Std.ExtTreeMap UInt32 (String × String)) (p : Property) :
    Option (String × Property) :=
  if p.isUnresolved then named[p.hash]?.map fun gw ↦ (gw.1, { p with name := some gw.2 }) else none

/-- Appends a property to the first section of that name, or to a new last section. -/
def settle (sections : List Section) (moved : String × Property) : List Section :=
  if sections.any (·.name = moved.1) then
    sections.modify (sections.findIdx (·.name = moved.1)) (·.push moved.2)
  else sections ++ [(Section.named moved.1).push moved.2]

/-- Names and moves every unresolved property that a group and a word explain. Without groups
nothing changes, not even empty sections. -/
def resolve (v : Vocabulary) (t : Tree) : Tree × Resolution :=
  match t.groups with
  | [] => (t, ⟨[], 0⟩)
  | groups =>
    let named := v.candidates groups
    let moved := t.properties.filterMap (move? named)
    let kept := t.sections.map fun s ↦
      { s with properties := s.properties.filter fun p ↦ (move? named p).isNone }
    let settled := moved.foldl settle kept
    let sections := sortSections (settled.filter (!·.properties.isEmpty))
    ({ t with sections }, ⟨groups, moved.length⟩)

end Vocabulary

end PropertyFile
