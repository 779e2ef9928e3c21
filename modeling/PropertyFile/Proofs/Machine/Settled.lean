import PropertyFile.Proofs.Machine.Produced

namespace PropertyFile

open Number Machine Bytecode

/-- A section whose properties are in the order of their keys, each named as its key reads. -/
structure Section.Settled (s : Section) : Prop where
  ordered : s.properties.Pairwise fun p q ↦ CellKey.order p.cell q.cell = .lt
  named : ∀ p ∈ s.properties, p.name = some p.cell.name
  plain : ∀ p ∈ s.properties, p.value.Plain

/-- The parts of a settled tree: globals, if there are any, and sections that are tables of their
own. -/
structure Tree.SettledAs (t : Tree) (globals : List Property) (own : List Section) : Prop where
  sections_eq : t.sections = globalSections globals ++ own
  scalars : ∀ p ∈ globals, p.value.isScalar = true
  apart : ∀ p ∈ globals, ∀ s ∈ own, p.cell ≠ .string s.name
  unmarked : ∀ s ∈ own, isRootSection s.name = false
  ordered : own.Pairwise fun a b ↦ compare a.name b.name = .lt
  settled : ∀ s ∈ t.sections, s.Settled

def Tree.Settled (t : Tree) : Prop := ∃ globals own, t.SettledAs globals own

namespace Section

variable {s : Section}

theorem Settled.inOrder (h : s.Settled) : InOrder CellKey.order s.entries :=
  List.pairwise_map.mpr h.ordered

theorem Settled.map_entries (hread : s.Read) (h : s.Settled) :
    s.entries.map (fun e ↦ keyedProperty s.name (e.1, e.2.echo)) = s.properties := by
  rw [Section.entries, List.map_map]
  refine (List.map_congr_left fun p hp ↦ ?_).trans (List.map_id _)
  obtain ⟨n, hn⟩ := hread.properties p hp
  have hecho := (hread.values p hp).echo_eq_iff.mpr (h.plain p hp)
  have hname := h.named p hp
  show keyedProperty s.name (p.cell, p.value.echo) = p
  rw [hecho, keyedProperty]
  generalize p.cell = k at hname
  rw [hn] at hname ⊢
  obtain rfl := Option.some.inj hname
  rfl

def ownEntry (s : Section) : CellKey × Value :=
  (.string s.name, .table (Compiler.propertyFields s.properties))

theorem parts_ownEntry (s : Section) : s.ownEntry.2.parts? = some s.entries := by
  rw [ownEntry, Value.parts?, Compiler.propertyFields, List.map_map]
  rfl

theorem entrySection_ownEntry (s : Section) :
    entrySection? s.ownEntry = some (sectionFrom s.name s.entries) := by
  rw [entrySection?, parts_ownEntry]
  rfl

theorem Settled.sectionFrom_eq (hread : s.Read) (h : s.Settled) :
    sectionFrom s.name s.entries = s := by
  rw [sectionFrom, h.inOrder.gather, h.map_entries hread]
  obtain ⟨hash, name, properties⟩ := s
  obtain rfl : hash = nameHash name := hread.hash_eq
  rfl

end Section

theorem isRootSection_globals : isRootSection Machine.globalsSection = true := by decide

theorem filterMap_entrySection (entries : List (CellKey × Value)) :
    entries.filterMap entrySection? =
      (entries.filter (!·.2.isScalar)).filterMap entrySection? := by
  rw [List.filterMap_filter]
  refine List.filterMap_congr fun e _ ↦ ?_
  rw [Value.isScalar, entrySection?]
  cases e.2.parts? <;> rfl

theorem Section.rootEntries_of_own {s : Section} (h : isRootSection s.name = false) :
    s.rootEntries = [s.ownEntry] := by
  rw [rootEntries, h]
  rfl

theorem flatMap_rootEntries {own : List Section}
    (h : ∀ s ∈ own, isRootSection s.name = false) :
    own.flatMap Section.rootEntries = own.map Section.ownEntry := by
  induction own with
  | nil => rfl
  | cons s own ih =>
    obtain ⟨hs, hown⟩ := List.forall_mem_cons.mp h
    rw [List.flatMap_cons, Section.rootEntries_of_own hs, ih hown]
    rfl

theorem filterMap_ownEntry {own : List Section} (hread : ∀ s ∈ own, s.Read)
    (h : ∀ s ∈ own, s.Settled) : (own.map Section.ownEntry).filterMap entrySection? = own := by
  rw [List.filterMap_map]
  refine (List.filterMap_congr fun s hs ↦ ?_).trans List.filterMap_some
  rw [Function.comp_apply, Section.entrySection_ownEntry, (h s hs).sectionFrom_eq (hread s hs)]

theorem isScalar_ownEntry (s : Section) : s.ownEntry.2.isScalar = false :=
  Value.isScalar_of_parts s.parts_ownEntry

def globalEntries (globals : List Property) : List (CellKey × Value) :=
  globals.map fun p ↦ (p.cell, p.value)

theorem mem_globalSections {globals : List Property} (h : globals ≠ []) :
    { Section.named Machine.globalsSection with properties := globals } ∈
      globalSections globals := by
  rw [globalSections, if_neg (by rwa [List.isEmpty_iff])]
  exact List.mem_cons_self

theorem flatMap_globalSections (globals : List Property) :
    (globalSections globals).flatMap Section.rootEntries = globalEntries globals := by
  cases globals with
  | nil => rfl
  | cons p globals =>
    rw [globalSections, List.isEmpty_cons, if_neg Bool.false_ne_true, List.flatMap_singleton,
      Section.rootEntries]
    exact if_pos isRootSection_globals

theorem filter_isScalar (l l' : List (CellKey × Value)) (h : ∀ e ∈ l, e.2.isScalar = true)
    (h' : ∀ e ∈ l', e.2.isScalar = false) : (l ++ l').filter (·.2.isScalar) = l ∧
      (l ++ l').filter (!·.2.isScalar) = l' := by
  constructor
  · rw [List.filter_append, List.filter_eq_self.mpr h, List.filter_eq_nil_iff.mpr fun e he ↦
      Bool.not_eq_true _ ▸ h' e he, List.append_nil]
  · rw [List.filter_append, List.filter_eq_nil_iff.mpr fun e he ↦ by rw [h e he]; decide,
      List.filter_eq_self.mpr fun e he ↦ by rw [h' e he]; rfl, List.nil_append]

theorem Tree.rootEntries_eq {t : Tree} {globals : List Property} {own : List Section}
    (h : t.sections = globalSections globals ++ own)
    (hown : ∀ s ∈ own, isRootSection s.name = false) :
    t.rootEntries = globalEntries globals ++ own.map Section.ownEntry := by
  rw [rootEntries, h, List.flatMap_append, flatMap_globalSections, flatMap_rootEntries hown]

namespace Tree.SettledAs

variable {t : Tree} {globals : List Property} {own : List Section}

theorem mem_globals (h : t.SettledAs globals own) (hne : globals ≠ []) :
    { Section.named Machine.globalsSection with properties := globals } ∈ t.sections := by
  rw [h.sections_eq]
  exact List.mem_append_left _ (mem_globalSections hne)

theorem inOrder_globals (h : t.SettledAs globals own) :
    InOrder CellKey.order (globalEntries globals) := by
  by_cases hne : globals = []
  · rw [hne]
    exact List.Pairwise.nil
  · exact (h.settled _ (h.mem_globals hne)).inOrder

theorem inOrder_own (h : t.SettledAs globals own) :
    InOrder CellKey.order (own.map Section.ownEntry) :=
  List.pairwise_map.mpr h.ordered

theorem distinct (h : t.SettledAs globals own) :
    t.rootEntries.Pairwise fun a b ↦ a.1 ≠ b.1 := by
  rw [rootEntries_eq h.sections_eq h.unmarked]
  refine List.pairwise_append.mpr ⟨h.inOrder_globals.distinct, h.inOrder_own.distinct, ?_⟩
  intro e he e' he'
  obtain ⟨p, hp, rfl⟩ := List.mem_map.mp he
  obtain ⟨s, hs, rfl⟩ := List.mem_map.mp he'
  exact h.apart p hp s hs

/-- The root keeps what the globals and the own sections assign apart. -/
theorem filter_root (h : t.SettledAs globals own) :
    (gather t.rootEntries).toList.filter (·.2.isScalar) = globalEntries globals ∧
      (gather t.rootEntries).toList.filter (!·.2.isScalar) = own.map Section.ownEntry := by
  have hin := inOrder_gather t.rootEntries
  have hperm := perm_gather h.distinct
  generalize (gather t.rootEntries).toList = root at hin hperm
  have hparts := filter_isScalar (globalEntries globals) (own.map Section.ownEntry)
    (fun e he ↦ by
      obtain ⟨p, hp, rfl⟩ := List.mem_map.mp he
      exact h.scalars p hp)
    (fun e he ↦ by
      obtain ⟨s, -, rfl⟩ := List.mem_map.mp he
      exact isScalar_ownEntry s)
  rw [rootEntries_eq h.sections_eq h.unmarked] at hperm
  have hscalars := hperm.filter (·.2.isScalar)
  have htables := hperm.filter (!·.2.isScalar)
  rw [hparts.1] at hscalars
  rw [hparts.2] at htables
  exact ⟨(hin.filter _).eq_of_perm h.inOrder_globals hscalars,
    (hin.filter _).eq_of_perm h.inOrder_own htables⟩

theorem echo_eq (hread : t.Read) (h : t.SettledAs globals own) : t.echo = t := by
  obtain ⟨hglobals, hown⟩ := h.filter_root
  have hmem : ∀ s ∈ own, s ∈ t.sections := fun s hs ↦ by
    rw [h.sections_eq]
    exact List.mem_append_right _ hs
  have hsections : t.echoSections = own := by
    rw [echoSections, filterMap_entrySection, hown]
    exact filterMap_ownEntry (fun s hs ↦ hread.sections s (hmem s hs))
      fun s hs ↦ h.settled s (hmem s hs)
  have hproperties : t.echoGlobals = globals := by
    rw [echoGlobals, hglobals]
    by_cases hne : globals = []
    · rw [hne]
      rfl
    · have hg := h.mem_globals hne
      have hmap := (h.settled _ hg).map_entries (hread.sections _ hg)
      exact hmap
  rw [echo, hproperties, hsections, ← h.sections_eq, empty, ← hread.version_eq]

end Tree.SettledAs

end PropertyFile
