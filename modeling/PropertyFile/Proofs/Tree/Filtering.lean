import PropertyFile.Proofs.Number.Shortest
import PropertyFile.Proofs.Text.Fields
import PropertyFile.Proofs.Text.Lower
import PropertyFile.Tree.Listing

namespace PropertyFile

open Number Text

/-- Whether the name, the value as shown or the hash in decimal contains the query as written. -/
def Property.Contains (query : String) (p : Property) : Prop :=
  (∃ n ∈ p.name, query.toList <:+: n.toList) ∨ query.toList <:+: p.value.text.toList ∨
    query.toList <:+: (toString p.hash.toNat).toList

/-- What is kept of a section holds what contains the query: all of it if the name does, and else at
least the properties that do, where they stood. -/
structure Section.KeepsMatches (query : String) (s : Section) (kept : Option Section) : Prop where
  whole : query.toList <:+: s.name.toList → kept = some s
  properties : (∃ p ∈ s.properties, p.Contains query) → ∃ keep : Property → Bool,
    kept = some { s with properties := s.properties.filter keep } ∧
      ∀ p ∈ s.properties, p.Contains query → keep p = true

def Tree.KeepsMatches (query : String) (t : Tree) : Prop := ∃ kept : Section → Option Section,
  (t.filter query).sections = t.sections.filterMap kept ∧
    ∀ s ∈ t.sections, s.KeepsMatches query (kept s)

theorem lowerAt_of_isDigit {c : Char} (h : isDigit c = true) (before after : List Char) :
    lowerAt before c after = [c] := by
  have hsigma : c ≠ capitalSigma := by
    rintro rfl
    exact absurd h (by decide)
  have hdotted : c ≠ dottedCapitalI := by
    rintro rfl
    exact absurd h (by decide)
  have hlower : lowerChar c = c := by
    have hbounds := toNat_of_isDigit h
    have hupper : ¬(65 ≤ c.toNat ∧ c.toNat ≤ 90) := by omega
    rw [lowerChar, if_pos (by omega)]
    exact dif_neg hupper
  rw [lowerAt, if_neg hsigma, if_neg hdotted, hlower]

theorem lowerIn_of_isDigit {ds : List Char} (h : ∀ c ∈ ds, isDigit c = true)
    (before after : List Char) : lowerIn before after ds = ds := by
  induction ds generalizing before with
  | nil => rfl
  | cons c ds ih =>
    rw [List.forall_mem_cons] at h
    rw [lowerIn, lowerAt_of_isDigit h.1, ih h.2, List.singleton_append]

theorem lower_toString (n : Nat) : lower (toString n).toList = (toString n).toList := by
  have htext : (toString n).toList = digitChars n := Nat.toList_repr
  rw [htext, lower_eq, lowerIn_of_isDigit fun c hc ↦ isDigit_of_mem_digitChars hc]

theorem sigmasDecided_of_blank {s : List Char} (h : trim (lower s) = []) : SigmasDecided s := by
  rintro u v rfl
  have hblank := trim_eq_nil_iff.mp h
  rw [lower_eq, lowerIn_append, lowerIn, lowerAt_capitalSigma] at hblank
  split at hblank
  · exact absurd (hblank '\u03c2' (by simp)) (by decide)
  · exact absurd (hblank '\u03c3' (by simp)) (by decide)

section

variable {query : String} (h : SigmasDecided query.toList)

include h

theorem mentions_of_part {text : String} (ht : query.toList <:+: text.toList) :
    mentions (lower query.toList) text = true := by
  rw [mentions, occursIn_iff]
  exact h.lower_occurs ht

theorem Property.mentions_of_contains {p : Property} (hp : p.Contains query) :
    p.mentions (lower query.toList) = true := by
  rw [Property.mentions, Bool.or_eq_true, Bool.or_eq_true, Option.any_eq_true]
  rcases hp with ⟨n, hn, hin⟩ | hin | hin
  · exact .inl (.inl ⟨n, hn, mentions_of_part h hin⟩)
  · exact .inl (.inr (mentions_of_part h hin))
  · rw [occursIn_iff, ← lower_toString]
    exact .inr (h.lower_occurs hin)

theorem Section.keepsMatches_filter? (s : Section) :
    s.KeepsMatches query (s.filter? (lower query.toList)) := by
  rw [Section.filter?]
  by_cases hname : PropertyFile.mentions (lower query.toList) s.name = true
  · rw [if_pos hname]
    refine ⟨fun _ ↦ rfl, fun _ ↦ ⟨fun _ ↦ true, ?_, fun _ _ _ ↦ rfl⟩⟩
    rw [List.filter_true]
  · rw [if_neg hname]
    refine ⟨fun hin ↦ (hname (mentions_of_part h hin)).elim, ?_⟩
    rintro ⟨p, hmem, hp⟩
    have hkept : p ∈ s.properties.filter (·.mentions (lower query.toList)) :=
      List.mem_filter.mpr ⟨hmem, Property.mentions_of_contains h hp⟩
    refine ⟨_, if_neg ?_, fun _ _ ↦ Property.mentions_of_contains h⟩
    rw [List.isEmpty_iff]
    exact List.ne_nil_of_mem hkept

theorem Tree.keepsMatches_of_sigmasDecided (t : Tree) : t.KeepsMatches query := by
  rw [KeepsMatches, Tree.filter]
  by_cases hblank : (trim (lower query.toList)).isEmpty = true
  · simp only [if_pos hblank]
    refine ⟨some, (List.filterMap_some).symm, fun s _ ↦ ⟨fun _ ↦ rfl, fun _ ↦ ?_⟩⟩
    exact ⟨fun _ ↦ true, by rw [List.filter_true], fun _ _ _ ↦ rfl⟩
  · simp only [if_neg hblank]
    exact ⟨_, rfl, fun s _ ↦ s.keepsMatches_filter? h⟩

end

theorem mentions_of_filter?_empty {query : List Char} {s : Section} (hempty : s.properties = [])
    (h : s.filter? query ≠ none) : mentions query s.name = true := by
  by_contra hname
  rw [Section.filter?, if_neg hname, hempty] at h
  exact h rfl

/-- A search keeps what contains the query, in every tree, if and only if the query decides its
sigmas. -/
theorem Tree.keepsMatches_iff (query : String) :
    (∀ t : Tree, t.KeepsMatches query) ↔ SigmasDecided query.toList := by
  refine ⟨fun h ↦ ?_, fun h t ↦ t.keepsMatches_of_sigmasDecided h⟩
  by_cases hblank : trim (lower query.toList) = []
  · exact sigmasDecided_of_blank hblank
  refine sigmasDecided_iff.mpr fun text hin ↦ ?_
  -- The text as the name of an empty section, which stays for nothing else.
  let s : Section := ⟨0, .ofList text, []⟩
  obtain ⟨kept, hsections, hkeeps⟩ := h ⟨formatVersion, [s]⟩
  have hwhole : kept s = some s :=
    (hkeeps s List.mem_cons_self).whole (by rwa [String.toList_ofList])
  have hstays : s.filter? (lower query.toList) ≠ none := by
    intro hnone
    rw [Tree.filter, List.filterMap_cons_some hwhole] at hsections
    simp only [List.isEmpty_iff, if_neg hblank, List.filterMap_cons_none hnone,
      List.filterMap_nil, List.nil_eq, reduceCtorEq] at hsections
  have hname := mentions_of_filter?_empty rfl hstays
  rwa [mentions, occursIn_iff, String.toList_ofList] at hname

def sigmaTree : Tree :=
  ⟨formatVersion, [⟨1, "\u0391\u03a3", [⟨2, some "k", .bool true, .bool⟩]⟩]⟩

/-- A search for a capital sigma drops a section with that letter in its name. -/
theorem sigmaTree_loses : (∃ c ∈ "\u03a3".toList, isBlank c = false) ∧
    ¬sigmaTree.KeepsMatches "\u03a3" := by
  refine ⟨⟨'\u03a3', by decide, by decide⟩, ?_⟩
  rintro ⟨kept, hsections, hkeeps⟩
  have hnone : (sigmaTree.filter "\u03a3").sections.isEmpty = true := by decide +kernel
  have hwhole : kept sigmaTree.sections[0] = some sigmaTree.sections[0] :=
    (hkeeps sigmaTree.sections[0] List.mem_cons_self).whole (by decide)
  have hall : sigmaTree.sections.filterMap kept = sigmaTree.sections :=
    List.filterMap_cons_some hwhole
  rw [hsections, hall] at hnone
  exact absurd hnone (by decide)

end PropertyFile
