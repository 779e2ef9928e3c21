import Mathlib.Data.Finset.Card
import Mathlib.Data.Finset.Dedup
import PropertyFile.Dictionary

namespace PropertyFile

namespace NameHash

theorem extend_append (hash : UInt32) (s t : String) :
    extend hash (s ++ t) = extend (extend hash s) t := by
  rw [extend, String.toList_append, List.foldl_append]
  rfl

end NameHash

namespace Text

variable {sep : Char} {s before after : List Char}

theorem splitOnce_cons (sep a : Char) (s : List Char) :
    splitOnce sep (a :: s) =
      if a = sep then some ([], s) else (splitOnce sep s).map fun p ↦ (a :: p.1, p.2) := by
  by_cases ha : a = sep
  · simp only [splitOnce, ha, List.dropWhile_cons, List.takeWhile_cons, ne_eq, not_true_eq_false,
      decide_false, Bool.false_eq_true, if_false, if_true]
  · simp only [splitOnce, ha, List.dropWhile_cons, List.takeWhile_cons, ne_eq, not_false_eq_true,
      decide_true, if_true, if_false]
    cases s.dropWhile (· ≠ sep) <;> rfl

theorem notMem_of_splitOnce (h : splitOnce sep s = none) : sep ∉ s := by
  induction s with
  | nil => exact List.not_mem_nil
  | cons a s ih =>
    rw [splitOnce_cons] at h
    split at h
    · cases h
    · next ha =>
      intro hmem
      rcases List.mem_cons.mp hmem with rfl | hmem
      · exact ha rfl
      · exact ih (Option.map_eq_none_iff.mp h) hmem

theorem eq_of_splitOnce (h : splitOnce sep s = some (before, after)) :
    s = before ++ sep :: after ∧ sep ∉ before := by
  induction s generalizing before with
  | nil => cases h
  | cons a s ih =>
    rw [splitOnce_cons] at h
    split at h
    · next ha =>
      subst ha
      obtain ⟨rfl, rfl⟩ := Prod.mk.inj (Option.some.inj h)
      exact ⟨rfl, List.not_mem_nil⟩
    · next ha =>
      obtain ⟨⟨before', after'⟩, hsplit, heq⟩ := Option.map_eq_some_iff.mp h
      obtain ⟨rfl, rfl⟩ := Prod.mk.inj heq
      obtain ⟨rfl, hnot⟩ := ih hsplit
      exact ⟨rfl, fun hmem ↦ (List.mem_cons.mp hmem).elim (fun heq ↦ ha heq.symm) hnot⟩

end Text

namespace Dictionary

open NameHash

theorem nameHash_pairName (inSection name : String) :
    nameHash (pairName inSection name) = pairHash inSection name := by
  rw [pairName, nameHash, extend_append, extend_append]
  rfl

theorem addPair_eq_add (d : Dictionary) (inSection name : String) :
    d.addPair inSection name = d.add (pairName inSection name) := by
  rw [add, addPair, nameHash_pairName]

def Rule.spelling : Rule → String
  | name n => n
  | pair s n => pairName s n

theorem addRule_eq_add (d : Dictionary) (r : Rule) : d.addRule r = d.add r.spelling := by
  cases r with
  | name n => rfl
  | pair s n => exact d.addPair_eq_add s n

/-- Whether a line is a rule, if it is trimmed and not blank: it is no comment, and the separator is
in it at most once. -/
def isRule (line : List Char) : Bool :=
  !(['#'].isPrefixOf line) && !(['/', '/'].isPrefixOf line) && line.count separator ≤ 1

def ruleLines (text : String) : List String :=
  ((Text.trimmedLines text.toList).filter isRule).map .ofList

theorem ofList_pairName {line before after : List Char}
    (h : line = before ++ separator :: after) :
    pairName (.ofList before) (.ofList after) = .ofList line := by
  have hsep : separator.toString.toList = [separator] := by decide
  rw [← String.toList_inj, pairName, h]
  simp only [String.toList_append, String.toList_ofList, hsep, List.append_assoc,
    List.singleton_append]

theorem spelling_ofLine? {line : List Char} (h : line ≠ []) :
    (Rule.ofLine? line).map Rule.spelling = if isRule line then some (.ofList line) else none := by
  have hne : line.isEmpty = false := by
    rw [← Bool.not_eq_true, List.isEmpty_iff]
    exact h
  rw [Rule.ofLine?, isRule, hne, Bool.false_or]
  by_cases hcomment : (['#'].isPrefixOf line || ['/', '/'].isPrefixOf line) = true
  · rw [if_pos hcomment, ← Bool.not_or, hcomment]
    rfl
  · rw [if_neg hcomment, ← Bool.not_or, Bool.eq_false_of_not_eq_true hcomment, Bool.not_false,
      Bool.true_and]
    cases hsplit : Text.splitOnce separator line with
    | none =>
      have hcount := List.count_eq_zero.mpr (Text.notMem_of_splitOnce hsplit)
      rw [if_pos (decide_eq_true (by omega))]
      rfl
    | some p =>
      obtain ⟨before, after⟩ := p
      obtain ⟨hline, hnot⟩ := Text.eq_of_splitOnce hsplit
      have hcount : line.count separator = after.count separator + 1 := by
        rw [hline, List.count_append, List.count_eq_zero.mpr hnot, List.count_cons_self,
          Nat.zero_add]
      by_cases hafter : separator ∈ after
      · have hpos := List.count_pos_iff.mpr hafter
        rw [if_neg (by simpa using (by omega : ¬line.count separator ≤ 1))]
        simp only [hafter, if_true, Option.map_none]
      · have hzero := List.count_eq_zero.mpr hafter
        rw [if_pos (decide_eq_true (by omega))]
        simp only [hafter, if_false, Option.map_some, Rule.spelling, ofList_pairName hline]

theorem spelling_rules (text : String) : (rules text).map Rule.spelling = ruleLines text := by
  have hne : ∀ line ∈ Text.trimmedLines text.toList, line ≠ [] := fun line hline ↦
    of_decide_eq_true (List.mem_filter.mp hline).2
  rw [rules, ruleLines]
  generalize Text.trimmedLines text.toList = lines at hne
  induction lines with
  | nil => rfl
  | cons line lines ih =>
    obtain ⟨hline, hlines⟩ := List.forall_mem_cons.mp hne
    have hspelling := spelling_ofLine? hline
    split at hspelling
    · next hrule =>
      obtain ⟨r, hr, hname⟩ := Option.map_eq_some_iff.mp hspelling
      rw [List.filterMap_cons_some hr, List.map_cons, ih hlines, hname,
        List.filter_cons_of_pos hrule, List.map_cons]
    · next hrule =>
      rw [List.filterMap_cons_none (Option.map_eq_none_iff.mp hspelling), ih hlines,
        List.filter_cons_of_neg hrule]

theorem addRules_eq_addAll (d : Dictionary) (text : String) :
    d.addRules text = (ruleLines text).foldl add d := by
  rw [addRules, ← spelling_rules, List.foldl_map]
  congr 1
  funext d r
  exact d.addRule_eq_add r

inductive Change where
  | add (name : String)
  | addPair (inSection name : String)
  | addRules (text : String)
  | guess (target : UInt32) (sections names : List String)

def change (d : Dictionary) : Change → Dictionary
  | .add name => d.add name
  | .addPair inSection name => d.addPair inSection name
  | .addRules text => d.addRules text
  | .guess target sections names => (d.guess target sections names).1

/-- The names that a call contributes, in order; a guess contributes what it answers. -/
def contributed (d : Dictionary) : Change → List String
  | .add name => [name]
  | .addPair inSection name => [pairName inSection name]
  | .addRules text => ruleLines text
  | .guess target sections names => (d.guess target sections names).2.toList

def changes (d : Dictionary) (cs : List Change) : Dictionary := cs.foldl change d

def history (d : Dictionary) : List Change → List String
  | [] => []
  | c :: cs => d.contributed c ++ (d.change c).history cs

theorem change_eq_addAll (d : Dictionary) (c : Change) :
    d.change c = (d.contributed c).foldl add d := by
  cases c with
  | add name => rfl
  | addPair inSection name => exact d.addPair_eq_add inSection name
  | addRules text => exact d.addRules_eq_addAll text
  | guess target sections names =>
    rw [change, contributed, guess]
    cases findPair? target sections names with
    | none => rfl
    | some p => exact d.addPair_eq_add p.1 p.2

theorem changes_eq_addAll (d : Dictionary) (cs : List Change) :
    d.changes cs = (d.history cs).foldl add d := by
  induction cs generalizing d with
  | nil => rfl
  | cons c cs ih =>
    rw [history, List.foldl_append, ← change_eq_addAll]
    exact ih (d.change c)

theorem get?_add (d : Dictionary) (name : String) (hash : UInt32) :
    (d.add name).get? hash =
      (d.get? hash).or (if nameHash name = hash then some name else none) := by
  rw [add, get?, get?, Std.ExtTreeMap.getElem?_insertIfNew]
  simp only [Std.compare_eq_iff_eq]
  by_cases hname : nameHash name = hash
  · subst hname
    rw [if_pos rfl]
    by_cases hmem : nameHash name ∈ d.names
    · rw [if_neg fun h ↦ h.2 hmem, Std.ExtTreeMap.getElem?_eq_some_getElem hmem, Option.some_or]
    · rw [if_pos ⟨rfl, hmem⟩, Std.ExtTreeMap.getElem?_eq_none hmem, Option.none_or]
  · rw [if_neg fun h ↦ hname h.1, if_neg hname, Option.or_none]

theorem get?_addAll (d : Dictionary) (names : List String) (hash : UInt32) :
    (names.foldl add d).get? hash =
      (d.get? hash).or (names.find? fun n ↦ nameHash n = hash) := by
  induction names generalizing d with
  | nil => rw [List.foldl_nil, List.find?_nil, Option.or_none]
  | cons name names ih =>
    rw [List.foldl_cons, ih, get?_add, Option.or_assoc]
    congr 1
    by_cases hname : nameHash name = hash
    · rw [if_pos hname, List.find?_cons_of_pos (by simpa using hname), Option.some_or]
    · rw [if_neg hname, List.find?_cons_of_neg (by simpa using hname), Option.none_or]

theorem mem_addAll {names : List String} {hash : UInt32} :
    hash ∈ (names.foldl add empty).names ↔ hash ∈ (names.map nameHash).toFinset := by
  rw [Std.ExtTreeMap.mem_iff_isSome_getElem?, ← get?, get?_addAll]
  simp [empty, get?]

theorem size_addAll (names : List String) :
    (names.foldl add empty).size = (names.map nameHash).toFinset.card := by
  induction names using List.reverseRecOn with
  | nil => rfl
  | append_singleton names name ih =>
    have hinsert : ((names ++ [name]).map nameHash).toFinset =
        insert (nameHash name) (names.map nameHash).toFinset := by
      ext hash
      simp
    rw [List.foldl_append, List.foldl_cons, List.foldl_nil, add, size,
      Std.ExtTreeMap.size_insertIfNew, hinsert]
    simp only [mem_addAll]
    split
    · next hmem =>
      rw [Finset.insert_eq_of_mem hmem]
      exact ih
    · next hmem =>
      rw [Finset.card_insert_of_notMem hmem]
      exact congrArg (· + 1) ih

/-- The first name registered for a hash stays, and it has that hash; there is one entry for each
hash in the history. -/
theorem first_registered_wins (cs : List Change) :
    (∀ hash, (empty.changes cs).get? hash =
      (empty.history cs).find? fun n ↦ nameHash n = hash) ∧
    (∀ hash n, (empty.changes cs).get? hash = some n → nameHash n = hash) ∧
    (∀ later hash n, (empty.changes cs).get? hash = some n →
      (empty.changes (cs ++ later)).get? hash = some n) ∧
    (empty.changes cs).size = ((empty.history cs).map nameHash).toFinset.card := by
  have hget : ∀ hash, (empty.changes cs).get? hash =
      (empty.history cs).find? fun n ↦ nameHash n = hash := fun hash ↦ by
    rw [changes_eq_addAll, get?_addAll]
    rfl
  refine ⟨hget, fun hash n h ↦ ?_, fun later hash n h ↦ ?_, ?_⟩
  · rw [hget] at h
    have hname := List.find?_some h
    exact of_decide_eq_true hname
  · rw [changes, List.foldl_append]
    show ((empty.changes cs).changes later).get? hash = some n
    rw [changes_eq_addAll, get?_addAll, h, Option.some_or]
  · rw [changes_eq_addAll, size_addAll]

def twoCalls : List Change := [.addRules "// units\nData*HP\n", .add "data*hp"]

theorem twoCalls_keep_first :
    (empty.changes twoCalls).get? (pairHash "Data" "HP") = some "Data*HP" ∧
      nameHash "Data*HP" = pairHash "Data" "HP" ∧
      (empty.changes (twoCalls ++ [.guess (pairHash "Data" "HP") ["DATA"] ["MP", "hp"]])).get?
        (pairHash "Data" "HP") = some "Data*HP" := by
  have hget : (empty.changes twoCalls).get? (pairHash "Data" "HP") = some "Data*HP" := by
    decide
  obtain ⟨-, htrue, hstays, -⟩ := first_registered_wins twoCalls
  exact ⟨hget, htrue _ _ hget, hstays _ _ _ hget⟩

end Dictionary

end PropertyFile
