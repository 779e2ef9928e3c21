import PropertyFile.Proofs.Tree.Regrouping

namespace PropertyFile

variable {d : Dictionary} {t : Tree} {p : Property} {name : String}

namespace Dictionary

variable {hash : UInt32}

def knows (d : Dictionary) (hash : UInt32) : Bool := (d.get? hash).isSome

theorem get?_changes (d : Dictionary) (cs : List Change) (hash : UInt32) :
    (d.changes cs).get? hash =
      (d.get? hash).or ((d.history cs).find? fun n ↦ nameHash n = hash) := by
  rw [changes_eq_addAll, get?_addAll]

theorem place_congr {d' : Dictionary} (h : d'.get? hash = d.get? hash) :
    d'.place hash = d.place hash := by
  rw [place, place, h]

/-- A hash that is known has its place for good. -/
theorem place_changes (h : d.knows hash = true) (cs : List Change) :
    (d.changes cs).place hash = d.place hash := by
  obtain ⟨n, hn⟩ := Option.isSome_iff_exists.mp h
  refine place_congr ?_
  rw [get?_changes, hn, Option.some_or]

theorem place_of_unknown (h : d.knows hash = false) :
    d.place hash = (unknownsSection, unknownName hash) := by
  rw [knows, Option.isSome_eq_false_iff, Option.isNone_iff_eq_none] at h
  rw [place, h]

theorem knows_of_place_changes {cs : List Change}
    (h : (d.changes cs).place hash ≠ d.place hash) :
    d.knows hash = false ∧ (d.changes cs).knows hash = true := by
  have hbefore : d.knows hash = false := by
    rw [← Bool.not_eq_true]
    exact fun hknown ↦ h (place_changes hknown cs)
  refine ⟨hbefore, ?_⟩
  rw [← Bool.not_eq_false]
  intro hafter
  exact h ((place_of_unknown hafter).trans (place_of_unknown hbefore).symm)

def named (d : Dictionary) (p : Property) : Property :=
  { p with name := some (d.place p.hash).2 }

end Dictionary

theorem mem_contents_organize :
    p ∈ contents (t.organize d).sections name ↔
      ∃ q ∈ t.properties, (d.place q.hash).1 = name ∧ d.named q = p := by
  rw [contents_organize_eq_map]
  simp only [List.mem_map, List.mem_filter, decide_eq_true_eq, and_assoc, Dictionary.named]

/-- The properties of a section whose hashes are known, be it to another dictionary. -/
theorem filter_contents_organize (known : UInt32 → Bool) (t : Tree) (d : Dictionary)
    (name : String) : (contents (t.organize d).sections name).filter (fun p ↦ known p.hash) =
      ((t.properties.filter fun p ↦ known p.hash).filter fun p ↦
        (d.place p.hash).1 = name).map d.named := by
  rw [contents_organize_eq_map, List.filter_map, List.filter_filter, List.filter_filter]
  refine congrArg (List.map _) (List.filter_congr fun p _ ↦ ?_)
  exact Bool.and_comm _ _

/-- Two dictionaries that agree on what is known put it in the same sections. -/
theorem filter_contents_congr {known : UInt32 → Bool} {d' : Dictionary}
    (h : ∀ hash, known hash = true → d'.place hash = d.place hash) (t : Tree) (name : String) :
    (contents (t.organize d').sections name).filter (fun p ↦ known p.hash) =
      (contents (t.organize d).sections name).filter fun p ↦ known p.hash := by
  have hplace : ∀ p ∈ t.properties.filter (fun p ↦ known p.hash),
      d'.place p.hash = d.place p.hash := fun p hp ↦ h p.hash (List.mem_filter.mp hp).2
  rw [filter_contents_organize, filter_contents_organize]
  refine (congrArg (List.map d'.named) (List.filter_congr fun p hp ↦ ?_)).trans
    (List.map_congr_left fun p hp ↦ ?_)
  · rw [hplace p hp]
  · rw [Dictionary.named, Dictionary.named, hplace p (List.mem_filter.mp hp).1]

theorem place_ne_of_notMem {d' : Dictionary} {q : Property} (hq : q ∈ t.properties)
    (h : d.named q ∉ contents (t.organize d').sections (d.place q.hash).1) :
    d'.place q.hash ≠ d.place q.hash := by
  intro hplace
  refine h (mem_contents_organize.mpr ⟨q, hq, congrArg Prod.fst hplace, ?_⟩)
  rw [Dictionary.named, Dictionary.named, hplace]

/-- Whatever calls a dictionary goes through, each section keeps, in their order and under their
names, the properties whose hashes were known. A property that leaves a section, or comes into one,
has become known and was among the unknown ones before. -/
theorem learning_keeps_known (d : Dictionary) (cs : List Dictionary.Change) (t : Tree) :
    (∀ name, (contents (t.organize (d.changes cs)).sections name).filter (fun p ↦ d.knows p.hash) =
      (contents (t.organize d).sections name).filter fun p ↦ d.knows p.hash) ∧
    (∀ name, ∀ p ∈ contents (t.organize d).sections name,
      p ∉ contents (t.organize (d.changes cs)).sections name →
        d.knows p.hash = false ∧ (d.changes cs).knows p.hash = true ∧
          name = unknownsSection ∧ p.name = some (unknownName p.hash)) ∧
    ∀ name, ∀ p ∈ contents (t.organize (d.changes cs)).sections name,
      p ∉ contents (t.organize d).sections name →
        d.knows p.hash = false ∧ (d.changes cs).knows p.hash = true ∧
          { p with name := some (unknownName p.hash) } ∈
            contents (t.organize d).sections unknownsSection := by
  refine ⟨filter_contents_congr (fun hash h ↦ Dictionary.place_changes h cs) t,
    fun name p hp hnot ↦ ?_, fun name p hp hnot ↦ ?_⟩
  · obtain ⟨q, hq, rfl, rfl⟩ := mem_contents_organize.mp hp
    obtain ⟨hbefore, hafter⟩ := Dictionary.knows_of_place_changes (place_ne_of_notMem hq hnot)
    have hplace := Dictionary.place_of_unknown hbefore
    refine ⟨hbefore, hafter, congrArg Prod.fst hplace, ?_⟩
    rw [Dictionary.named, hplace]
  · obtain ⟨q, hq, rfl, rfl⟩ := mem_contents_organize.mp hp
    obtain ⟨hbefore, hafter⟩ := Dictionary.knows_of_place_changes (place_ne_of_notMem hq hnot).symm
    have hplace := Dictionary.place_of_unknown hbefore
    refine ⟨hbefore, hafter, mem_contents_organize.mpr ⟨q, hq, congrArg Prod.fst hplace, ?_⟩⟩
    rw [Dictionary.named, hplace]
    rfl

def halfKnown : Tree :=
  ⟨2, [⟨0, "Raw", [⟨pairHash "Data" "HP", none, .byte 1, .byte⟩,
    ⟨pairHash "Data" "MP", none, .byte 2, .byte⟩]⟩]⟩

theorem halfKnown_learned :
    let d := Dictionary.ofRules "Data*HP"
    let more := d.changes [.add "Data*MP"]
    let hash := pairHash "Data" "MP"
    let p : Property := ⟨hash, some (unknownName hash), .byte 2, .byte⟩
    p ∈ contents (halfKnown.organize d).sections "Unknowns" ∧
      p ∉ contents (halfKnown.organize more).sections "Unknowns" ∧
      d.knows hash = false ∧ more.knows hash = true ∧
      (contents (halfKnown.organize more).sections "Data").filter (fun p ↦ d.knows p.hash) =
        (contents (halfKnown.organize d).sections "Data").filter fun p ↦ d.knows p.hash := by
  intro d more hash p
  have hunknown : d.place hash = ("Unknowns", unknownName hash) := by decide
  have hlearned : more.place hash = ("Data", "MP") := by decide
  have hp : p ∈ contents (halfKnown.organize d).sections "Unknowns" := by
    refine mem_contents_organize.mpr ⟨⟨hash, none, .byte 2, .byte⟩, ?_, ?_, ?_⟩
    · exact List.mem_cons_of_mem _ List.mem_cons_self
    · rw [hunknown]
    · rw [Dictionary.named, hunknown]
  have hnot : p ∉ contents (halfKnown.organize more).sections "Unknowns" := by
    intro hmem
    obtain ⟨q, -, hsection, hname⟩ := mem_contents_organize.mp hmem
    have hhash : q.hash = hash := congrArg Property.hash hname
    rw [hhash, hlearned] at hsection
    exact absurd hsection (by decide)
  obtain ⟨hsame, hleft, -⟩ := learning_keeps_known d [.add "Data*MP"] halfKnown
  obtain ⟨hbefore, hafter, -, -⟩ := hleft "Unknowns" p hp hnot
  exact ⟨hp, hnot, hbefore, hafter, hsame "Data"⟩

end PropertyFile
