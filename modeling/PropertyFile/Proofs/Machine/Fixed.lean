import Mathlib.Data.List.Nodup
import PropertyFile.Proofs.Machine.Settled
import PropertyFile.Proofs.Number.Shortest

namespace PropertyFile

open Number Machine Bytecode

namespace Key

theorem ofText_eq_name {text s : String} (h : ofText text = name s) : s = text := by
  rw [ofText] at h
  split at h
  · split at h
    · split at h
      · cases h
      · exact (Key.name.inj h).symm
    · exact (Key.name.inj h).symm
  · exact (Key.name.inj h).symm

theorem ofText_brackets (s : String) : ofText ("[" ++ s ++ "]") =
    (readWithin? Int64.minValue.toInt Int64.maxValue.toInt s.toList).elim (name ("[" ++ s ++ "]"))
      fun n ↦ index (.ofInt n) := by
  have htext : ("[" ++ s ++ "]").toList = '[' :: (s.toList ++ [']']) := by
    simp only [String.toList_append]
    rfl
  simp only [ofText, htext, List.getLast?_concat, List.dropLast_concat, if_true]
  cases readWithin? Int64.minValue.toInt Int64.maxValue.toInt s.toList <;> rfl

theorem toInt_ofInt_of_range {n : Int} (hlow : Int64.minValue.toInt ≤ n)
    (hhigh : n ≤ Int64.maxValue.toInt) : (Int64.ofInt n).toInt = n := by
  have hmin : Int64.minValue.toInt = -9223372036854775808 := rfl
  have hmax : Int64.maxValue.toInt = 9223372036854775807 := rfl
  exact Int64.toInt_ofInt_of_le (by omega) (by omega)

theorem cell_ofText_index (i : Int64) : (ofText (index i).cell.name).cell = (index i).cell ∨
    (ofText (index i).cell.name).cell = .string (index i).cell.name := by
  have hlow := i.le_toInt
  have hhigh := i.toInt_lt
  obtain ⟨n, hn, hsame⟩ := Double.readInt?_text i.toInt (by omega)
  have hname : (index i).cell.name = "[" ++ (Double.ofInt i.toInt).text ++ "]" := rfl
  rw [hname, ofText_brackets, readWithin?, hn, Option.bind_some]
  split
  · next hrange =>
    left
    rw [Option.elim_some, cell, toInt_ofInt_of_range hrange.1 hrange.2, hsame]
    rfl
  · exact .inr rfl

end Key

def Machine.CellKey.respelled (k : CellKey) : CellKey := (Key.ofText k.name).cell

theorem Key.cell_injective_string {k : Key} {s : String} (h : k.cell = .string s) :
    k = .name s := by
  cases k with
  | index i => cases h
  | name t => exact congrArg Key.name (CellKey.string.inj h)

/-- Keys that are those which their names spell, in some order, are spelled each by its own name. -/
theorem respelled_eq_self {keys : List CellKey} (hnodup : keys.Nodup)
    (hperm : (keys.map CellKey.respelled).Perm keys) : ∀ k ∈ keys, k.respelled = k := by
  have hstring : ∀ s, .string s ∈ keys → CellKey.respelled (.string s) = .string s := by
    intro s hs
    obtain ⟨k, -, hk⟩ := List.mem_map.mp (hperm.mem_iff.mpr hs)
    have hname := Key.cell_injective_string hk
    have htext := Key.ofText_eq_name hname
    show (Key.ofText s).cell = _
    rw [htext, hname, htext]
    rfl
  intro k hk
  obtain ⟨k', -, hk'⟩ := List.mem_map.mp (hperm.mem_iff.mpr hk)
  rw [CellKey.respelled] at hk'
  cases hkey : Key.ofText k'.name with
  | name s =>
    rw [hkey] at hk'
    subst hk'
    exact hstring s hk
  | index i =>
    rw [hkey] at hk'
    subst hk'
    refine (Key.cell_ofText_index i).resolve_right fun hother ↦ ?_
    -- The name would spell a string, which would be spelled by two keys.
    have hmem : .string (Key.index i).cell.name ∈ keys :=
      hperm.mem_iff.mp (hother ▸ List.mem_map_of_mem hk)
    have hinj := List.inj_on_of_nodup_map (hperm.nodup_iff.mpr hnodup) hk hmem
      (hother.trans (hstring _ hmem).symm)
    cases hinj

theorem properties_of_entries {name : String} {ps : List Property} {l : List (CellKey × Value)}
    (hin : InOrder CellKey.order l) (hsub : ∀ e ∈ l, e ∈ ps.map fun p ↦ (p.cell, p.value))
    (hps : l.map (fun e ↦ keyedProperty name (e.1, e.2.echo)) = ps) :
    l = ps.map (fun p ↦ (p.cell, p.value)) ∧
      ∀ p ∈ ps, p.name = some p.cell.name ∧ p.value.echo = p.value := by
  have hperm : l.Perm (ps.map fun p ↦ (p.cell, p.value)) := by
    refine hin.perm_of_subset hsub ?_
    rw [List.length_map, ← hps, List.length_map]
  have hkeys : (ps.map fun p ↦ (p.cell, p.value)).map Prod.fst =
      (l.map Prod.fst).map CellKey.respelled := by
    rw [← hps, List.map_map, List.map_map, List.map_map]
    rfl
  have hrespelled : ∀ k ∈ l.map Prod.fst, k.respelled = k := by
    refine respelled_eq_self (List.pairwise_map.mpr hin.distinct) ?_
    rw [← hkeys]
    exact (hperm.map Prod.fst).symm
  have hsame : l = ps.map fun p ↦ (p.cell, p.value) := by
    have hin' : InOrder CellKey.order (ps.map fun p ↦ (p.cell, p.value)) := by
      have h : ((l.map Prod.fst).map CellKey.respelled).Pairwise fun a b ↦
          CellKey.order a b = .lt := by
        rw [(List.map_congr_left hrespelled).trans (List.map_id' _)]
        exact List.pairwise_map.mpr hin
      rw [← hkeys] at h
      exact List.pairwise_map.mp h
    exact hin.eq_of_perm hin' hperm
  rw [hsame, List.map_map] at hps
  have hfixed := List.map_inj_left.mp (hps.trans (List.map_id ps).symm)
  exact ⟨hsame, fun p hp ↦ ⟨congrArg Property.name (hfixed p hp).symm,
    congrArg Property.value (hfixed p hp)⟩⟩

mutual

def Value.depth : Value → Nat
  | .table entries => entryDepth entries + 1
  | _ => 0

def entryDepth : List (Key × Value) → Nat
  | [] => 0
  | (_, v) :: rest => max v.depth (entryDepth rest)

end

theorem entryDepth_le_iff {entries : List (Key × Value)} {n : Nat} :
    entryDepth entries ≤ n ↔ ∀ e ∈ entries, e.2.depth ≤ n := by
  induction entries with
  | nil => simp only [entryDepth, Nat.zero_le, List.not_mem_nil, false_implies, implies_true]
  | cons e entries ih => rw [entryDepth, Nat.max_le, ih, List.forall_mem_cons]

theorem depth_numberValue (x : Double) : (numberValue x).depth = 0 := by
  rcases numberValue_cases x with ⟨n, h⟩ | ⟨y, h⟩ <;> rw [h] <;> rfl

theorem isScalar_numberValue (x : Double) : (numberValue x).isScalar = true := by
  rcases numberValue_cases x with ⟨n, h⟩ | ⟨y, h⟩ <;> rw [h] <;> rfl

theorem echo_numberValue (x : Double) : ∃ y, (numberValue x).echo = numberValue y := by
  rcases numberValue_cases x with ⟨n, h⟩ | ⟨y, h⟩ <;> rw [h] <;> exact ⟨_, rfl⟩

theorem Value.Read.depth_echo_le {v : Value} (h : v.Read) : v.echo.depth ≤ v.depth := by
  induction h with
  | number x =>
    obtain ⟨y, hy⟩ := echo_numberValue x
    rw [hy, depth_numberValue]
    exact Nat.zero_le _
  | bool b => exact Nat.le_refl _
  | string s => exact Nat.le_refl _
  | @table entries inOrder exact values ih =>
    rw [echo_table inOrder exact, depth, depth]
    refine Nat.succ_le_succ (entryDepth_le_iff.mpr fun e he ↦ ?_)
    obtain ⟨e', he', rfl⟩ := List.mem_map.mp he
    exact Nat.le_trans (ih e' he') (entryDepth_le_iff.mp (Nat.le_refl _) e' he')

theorem Value.Read.parts_eq_some {v : Value} (h : v.Read) {parts : List (CellKey × Value)}
    (hv : v.parts? = some parts) : ∃ entries, v = .table entries ∧
      parts = (entries.map fun e ↦ (e.1.cell, e.2)) ∧ ∀ e ∈ entries, e.2.Read := by
  cases h with
  | number x =>
    have hscalar := isScalar_numberValue x
    rw [isScalar_of_parts hv] at hscalar
    cases hscalar
  | bool | string => cases hv
  | @table entries inOrder exact values => exact ⟨entries, rfl, (Option.some.inj hv).symm, values⟩

theorem isScalar_echo {v : Value} (h : v.isScalar = true) : v.echo.isScalar = true := by
  rcases Value.scalar_cases (Option.isNone_iff_eq_none.mp h) with ⟨x, -, hecho⟩ | ⟨b, -, hecho⟩ |
    ⟨s, -, hecho⟩
  · rw [hecho, isScalar_numberValue]
  · rw [hecho]
    rfl
  · rw [hecho]
    rfl

/-- A quantity that could always grow within a list is not there. -/
theorem not_of_ascent {α : Type} {l : List α} {P : α → Prop} (f : α → Nat)
    (h : ∀ a ∈ l, P a → ∃ b ∈ l, P b ∧ f a < f b) : ∀ a ∈ l, ¬P a := by
  obtain ⟨bound, hbound⟩ : ∃ n, ∀ a ∈ l, f a ≤ n := by
    clear h
    induction l with
    | nil => exact ⟨0, fun a ha ↦ (List.not_mem_nil ha).elim⟩
    | cons a l ih =>
      obtain ⟨n, hn⟩ := ih
      refine ⟨max (f a) n, List.forall_mem_cons.mpr ⟨Nat.le_max_left _ _, fun b hb ↦ ?_⟩⟩
      exact Nat.le_trans (hn b hb) (Nat.le_max_right _ _)
  have hsteps : ∀ n, ∀ a ∈ l, P a → bound < f a + n → False := by
    intro n
    induction n with
    | zero =>
      intro a ha _ hlt
      exact Nat.not_le.mpr hlt (hbound a ha)
    | succ n ih =>
      intro a ha hP hlt
      obtain ⟨b, hb, hPb, hgrow⟩ := h a ha hP
      exact ih b hb hPb (by omega)
  exact fun a ha hP ↦ hsteps (bound + 1) a ha hP (by omega)

def Section.depth (s : Section) : Nat := entryDepth (Compiler.propertyFields s.properties)

theorem Section.depth_le_iff {s : Section} {n : Nat} :
    s.depth ≤ n ↔ ∀ p ∈ s.properties, p.value.depth ≤ n := by
  rw [depth, entryDepth_le_iff, Compiler.propertyFields, List.forall_mem_map]

theorem depth_sectionFrom_lt {v : Value} (h : v.Read) {parts : List (CellKey × Value)}
    (hv : v.parts? = some parts) (name : String) : (sectionFrom name parts).depth < v.depth := by
  obtain ⟨entries, rfl, rfl, hread⟩ := h.parts_eq_some hv
  refine Nat.lt_succ_of_le (Section.depth_le_iff.mpr fun p hp ↦ ?_)
  obtain ⟨e, he, rfl⟩ := List.mem_map.mp hp
  obtain ⟨e', he', rfl⟩ := List.mem_map.mp (mem_of_mem_gather he)
  exact Nat.le_trans (hread e' he').depth_echo_le (entryDepth_le_iff.mp (Nat.le_refl _) e' he')

namespace Tree

variable {t : Tree}

theorem sections_of_fixed (h : t.echo = t) :
    t.sections = globalSections t.echoGlobals ++ t.echoSections :=
  (congrArg Tree.sections h).symm

theorem mem_echoSections {s : Section} (h : s ∈ t.echoSections) : ∃ e parts,
    e ∈ (gather t.rootEntries).toList ∧ e.2.parts? = some parts ∧
      s = sectionFrom e.1.name parts := by
  obtain ⟨e, he, hs⟩ := List.mem_filterMap.mp h
  obtain ⟨parts, hparts, rfl⟩ := Option.map_eq_some_iff.mp hs
  exact ⟨e, parts, he, hparts, rfl⟩

theorem isScalar_echoGlobals {p : Property} (h : p ∈ t.echoGlobals) :
    p.value.isScalar = true := by
  obtain ⟨e, he, rfl⟩ := List.mem_map.mp h
  exact isScalar_echo (List.mem_filter.mp he).2

theorem of_mem_globalSections {s : Section} {globals : List Property}
    (h : s ∈ globalSections globals) :
    s.name = Machine.globalsSection ∧ s.properties = globals := by
  rw [globalSections] at h
  split at h
  · cases h
  · rw [List.mem_singleton.mp h]
    exact ⟨rfl, rfl⟩

/-- A section of the root that has a table of its own cannot be one that goes into the root. -/
theorem unmarked_of_fixed (hread : t.Read) (h : t.echo = t) :
    ∀ s ∈ t.echoSections, isRootSection s.name = false := by
  have hascent : ∀ s ∈ t.echoSections, isRootSection s.name = true →
      ∃ s' ∈ t.echoSections, isRootSection s'.name = true ∧ s.depth < s'.depth := by
    intro s hs hmarked
    obtain ⟨e, parts, he, hparts, rfl⟩ := mem_echoSections hs
    obtain ⟨s', hs', he'⟩ := List.mem_flatMap.mp (mem_of_mem_gather he)
    cases hmarked' : isRootSection s'.name with
    | false =>
      rw [Section.rootEntries_of_own hmarked', List.mem_singleton] at he'
      subst he'
      exact (Bool.false_ne_true (hmarked'.symm.trans hmarked)).elim
    | true =>
      rw [Section.rootEntries, if_pos hmarked'] at he'
      obtain ⟨p, hp, rfl⟩ := List.mem_map.mp he'
      have hvalue := (hread.sections s' hs').values p hp
      rw [sections_of_fixed h] at hs'
      rcases List.mem_append.mp hs' with hglobals | hown
      · rw [(of_mem_globalSections hglobals).2] at hp
        have hscalar := isScalar_echoGlobals hp
        rw [Value.isScalar_of_parts hparts] at hscalar
        cases hscalar
      · exact ⟨s', hown, hmarked', Nat.lt_of_lt_of_le (depth_sectionFrom_lt hvalue hparts _)
          (Section.depth_le_iff.mp (Nat.le_refl _) p hp)⟩
  exact fun s hs ↦ Bool.eq_false_iff.mpr (not_of_ascent Section.depth hascent s hs)

end Tree

theorem settled_of_entries {s : Section} (hread : s.Read) {l : List (CellKey × Value)}
    (hin : InOrder CellKey.order l) (hsub : ∀ e ∈ l, e ∈ s.entries)
    (hs : l.map (fun e ↦ keyedProperty s.name (e.1, e.2.echo)) = s.properties) :
    l = s.entries ∧ s.Settled := by
  obtain ⟨hl, hproperties⟩ := properties_of_entries hin hsub hs
  refine ⟨hl, ?_, fun p hp ↦ (hproperties p hp).1, fun p hp ↦ ?_⟩
  · rw [hl] at hin
    exact List.pairwise_map.mp hin
  · exact (hread.values p hp).echo_eq_iff.mp (hproperties p hp).2

namespace Tree

variable {t : Tree}

section Fixed

variable (hread : t.Read) (h : t.echo = t)
include hread h

theorem rootEntries_of_fixed :
    t.rootEntries = globalEntries t.echoGlobals ++ t.echoSections.map Section.ownEntry :=
  rootEntries_eq (sections_of_fixed h) (unmarked_of_fixed hread h)

theorem mem_globalEntries_of_fixed {e : CellKey × Value} (he : e ∈ t.rootEntries)
    (hscalar : e.2.isScalar = true) : e ∈ globalEntries t.echoGlobals := by
  rw [rootEntries_of_fixed hread h] at he
  refine (List.mem_append.mp he).resolve_right fun hown ↦ ?_
  obtain ⟨s, -, rfl⟩ := List.mem_map.mp hown
  rw [isScalar_ownEntry] at hscalar
  cases hscalar

theorem ownEntry_of_fixed {e : CellKey × Value} (he : e ∈ t.rootEntries)
    (htable : e.2.isScalar = false) : ∃ s ∈ t.echoSections, s.ownEntry = e := by
  rw [rootEntries_of_fixed hread h] at he
  rcases List.mem_append.mp he with hglobal | hown
  · obtain ⟨p, hp, rfl⟩ := List.mem_map.mp hglobal
    rw [isScalar_echoGlobals hp] at htable
    cases htable
  · exact List.mem_map.mp hown

theorem ordered_of_fixed : t.echoSections.Pairwise fun a b ↦ compare a.name b.name = .lt := by
  rw [echoSections, List.pairwise_filterMap]
  refine (inOrder_gather t.rootEntries).imp_of_mem fun {e e'} he he' hlt s hs s' hs' ↦ ?_
  obtain ⟨parts, hparts, rfl⟩ := Option.map_eq_some_iff.mp hs
  obtain ⟨parts', hparts', rfl⟩ := Option.map_eq_some_iff.mp hs'
  obtain ⟨own, -, rfl⟩ :=
    ownEntry_of_fixed hread h (mem_of_mem_gather he) (Value.isScalar_of_parts hparts)
  obtain ⟨own', -, rfl⟩ :=
    ownEntry_of_fixed hread h (mem_of_mem_gather he') (Value.isScalar_of_parts hparts')
  exact hlt

theorem section_of_fixed {s : Section} (hs : s ∈ t.echoSections) :
    s.ownEntry ∈ (gather t.rootEntries).toList ∧ s = sectionFrom s.name s.entries := by
  obtain ⟨e, parts, he, hparts, hfrom⟩ := mem_echoSections hs
  obtain ⟨s', hs', rfl⟩ :=
    ownEntry_of_fixed hread h (mem_of_mem_gather he) (Value.isScalar_of_parts hparts)
  obtain rfl := Option.some.inj ((Section.parts_ownEntry s').symm.trans hparts)
  have hnames : (t.echoSections.map Section.name).Nodup :=
    List.pairwise_map.mpr ((ordered_of_fixed hread h).imp ne_of_cmp_lt)
  have hname : s.name = s'.name := by
    rw [hfrom]
    rfl
  obtain rfl := List.inj_on_of_nodup_map hnames hs hs' hname
  exact ⟨he, hfrom⟩

theorem globals_of_fixed {s : Section} (hs : s ∈ globalSections t.echoGlobals) :
    (gather t.rootEntries).toList.filter (·.2.isScalar) = s.entries ∧ s.Settled := by
  obtain ⟨hname, hproperties⟩ := of_mem_globalSections hs
  have hmem : s ∈ t.sections := by
    rw [sections_of_fixed h]
    exact List.mem_append_left _ hs
  refine settled_of_entries (hread.sections s hmem) ((inOrder_gather t.rootEntries).filter _)
    (fun e he ↦ ?_) ?_
  · obtain ⟨he, hscalar⟩ := List.mem_filter.mp he
    rw [Section.entries, hproperties]
    exact mem_globalEntries_of_fixed hread h (mem_of_mem_gather he) hscalar
  · rw [hname, hproperties]
    rfl

theorem settled_own_of_fixed {s : Section} (hs : s ∈ t.echoSections) : s.Settled := by
  have hmem : s ∈ t.sections := by
    rw [sections_of_fixed h]
    exact List.mem_append_right _ hs
  exact (settled_of_entries (hread.sections s hmem) (inOrder_gather s.entries)
    (fun e he ↦ mem_of_mem_gather he)
    (congrArg Section.properties (section_of_fixed hread h hs).2).symm).2

theorem apart_of_fixed {p : Property} (hp : p ∈ t.echoGlobals) {s : Section}
    (hs : s ∈ t.echoSections) : p.cell ≠ .string s.name := by
  intro hkey
  have hentries := (globals_of_fixed hread h (mem_globalSections (List.ne_nil_of_mem hp))).1
  have hmem : (p.cell, p.value) ∈ (gather t.rootEntries).toList.filter (·.2.isScalar) := by
    rw [hentries]
    exact List.mem_map_of_mem hp
  replace hmem := (List.mem_filter.mp hmem).1
  have hown := (section_of_fixed hread h hs).1
  rw [hkey, Std.ExtTreeMap.mem_toList_iff_getElem?_eq_some] at hmem
  rw [Section.ownEntry, Std.ExtTreeMap.mem_toList_iff_getElem?_eq_some] at hown
  have hvalue := Option.some.inj (hmem.symm.trans hown)
  have hscalar := isScalar_echoGlobals hp
  rw [hvalue] at hscalar
  cases hscalar

theorem settledAs_of_fixed : t.SettledAs t.echoGlobals t.echoSections where
  sections_eq := sections_of_fixed h
  scalars _ hp := isScalar_echoGlobals hp
  apart _ hp _ hs := apart_of_fixed hread h hp hs
  unmarked := unmarked_of_fixed hread h
  ordered := ordered_of_fixed hread h
  settled s hs := by
    rw [sections_of_fixed h] at hs
    rcases List.mem_append.mp hs with hs | hs
    · exact (globals_of_fixed hread h hs).2
    · exact settled_own_of_fixed hread h hs

end Fixed

theorem Read.echo_eq_iff (hread : t.Read) : t.echo = t ↔ t.Settled :=
  ⟨fun h ↦ ⟨_, _, settledAs_of_fixed hread h⟩, fun ⟨_, _, h⟩ ↦ h.echo_eq hread⟩

end Tree

end PropertyFile
