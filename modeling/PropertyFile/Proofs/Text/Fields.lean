import Mathlib.Data.List.TakeWhile
import PropertyFile.Text.Blank

namespace PropertyFile.Text

variable {isSep : Char → Bool} {sep : Char} {w s : List Char}

theorem pieces_cons (isSep : Char → Bool) (c : Char) (s : List Char) :
    pieces isSep (c :: s) = if isSep c then [] :: pieces isSep s
      else match pieces isSep s with
        | [] => [[c]]
        | piece :: rest => (c :: piece) :: rest :=
  rfl

theorem pieces_of_none (h : ∀ c ∈ w, isSep c = false) : pieces isSep w = [w] := by
  induction w with
  | nil => rfl
  | cons c w ih =>
    rw [List.forall_mem_cons] at h
    rw [pieces_cons, if_neg (Bool.eq_false_iff.mp h.1), ih h.2]

theorem pieces_append_sep (h : ∀ c ∈ w, isSep c = false) (hsep : isSep sep = true)
    (s : List Char) : pieces isSep (w ++ sep :: s) = w :: pieces isSep s := by
  induction w with
  | nil => rw [List.nil_append, pieces_cons, if_pos hsep]
  | cons c w ih =>
    rw [List.forall_mem_cons] at h
    rw [List.cons_append, pieces_cons, if_neg (Bool.eq_false_iff.mp h.1), ih h.2]

theorem fields_intercalate {ws : List (List Char)} (hsep : isSep sep = true)
    (h : ∀ w ∈ ws, w ≠ [] ∧ ∀ c ∈ w, isSep c = false) :
    fields isSep ([sep].intercalate ws) = ws := by
  induction ws with
  | nil => rfl
  | cons w ws ih =>
    rw [List.forall_mem_cons] at h
    obtain ⟨⟨hne, hw⟩, hws⟩ := h
    have hkeep : ∀ rest : List (List Char),
        (w :: rest).filter (· ≠ []) = w :: rest.filter (· ≠ []) := fun rest ↦
      List.filter_cons_of_pos (decide_eq_true hne)
    cases ws with
    | nil => rw [List.intercalate_singleton, fields, pieces_of_none hw, hkeep, List.filter_nil]
    | cons w' ws =>
      rw [List.intercalate_cons_cons, List.append_assoc, List.singleton_append, fields,
        pieces_append_sep hw hsep, hkeep]
      exact congrArg _ (ih hws)

theorem dropWhile_isBlank (h : ∀ c ∈ s.head?, isBlank c = false) :
    s.dropWhile isBlank = s := by
  cases s with
  | nil => rfl
  | cons c s => exact List.dropWhile_cons_of_neg (Bool.eq_false_iff.mp (h c rfl))

theorem trim_eq_self (hhead : ∀ c ∈ s.head?, isBlank c = false)
    (hlast : ∀ c ∈ s.getLast?, isBlank c = false) : trim s = s := by
  rw [trim, dropWhile_isBlank hhead, dropWhile_isBlank (by rwa [List.head?_reverse]),
    List.reverse_reverse]

theorem trim_word (h : ∀ c ∈ w, isBlank c = false) : trim w = w :=
  trim_eq_self (fun c hc ↦ h c (List.mem_of_mem_head? hc))
    fun c hc ↦ h c (List.mem_of_getLast? hc)

/-- Joined words are a word at each end, with something between. -/
theorem intercalate_cons (sep : Char) (w : List Char) (ws : List (List Char)) :
    ∃ rest, [sep].intercalate (w :: ws) = w ++ rest := by
  cases ws with
  | nil => exact ⟨[], by rw [List.intercalate_singleton, List.append_nil]⟩
  | cons w' ws => exact ⟨_, by rw [List.intercalate_cons_cons, List.append_assoc]⟩

theorem getLast?_intercalate {ws : List (List Char)} (h : ∀ w ∈ ws, w ≠ []) :
    ∀ c ∈ ([sep].intercalate ws).getLast?, ∃ w ∈ ws, c ∈ w := by
  induction ws with
  | nil => exact fun c hc ↦ (Option.not_mem_none c hc).elim
  | cons w ws ih =>
    rw [List.forall_mem_cons] at h
    cases ws with
    | nil =>
      rw [List.intercalate_singleton]
      exact fun c hc ↦ ⟨w, List.mem_cons_self, List.mem_of_getLast? hc⟩
    | cons w' ws =>
      obtain ⟨rest, hrest⟩ := intercalate_cons sep w' ws
      have hne : [sep].intercalate (w' :: ws) ≠ [] := by
        rw [hrest]
        exact List.append_ne_nil_of_left_ne_nil (h.2 w' List.mem_cons_self) rest
      rw [List.intercalate_cons_cons, List.getLast?_append, List.getLast?_eq_some_getLast hne,
        Option.some_or, ← List.getLast?_eq_some_getLast hne]
      intro c hc
      obtain ⟨w₀, hw₀, hmem⟩ := ih h.2 c hc
      exact ⟨w₀, List.mem_cons_of_mem w hw₀, hmem⟩

theorem trim_intercalate {ws : List (List Char)}
    (h : ∀ w ∈ ws, w ≠ [] ∧ ∀ c ∈ w, isBlank c = false) :
    trim ([sep].intercalate ws) = [sep].intercalate ws := by
  refine trim_eq_self (fun c hc ↦ ?_) fun c hc ↦ ?_
  · cases ws with
    | nil => exact (Option.not_mem_none c hc).elim
    | cons w ws =>
      obtain ⟨hne, hw⟩ := h w List.mem_cons_self
      obtain ⟨rest, hrest⟩ := intercalate_cons sep w ws
      rw [hrest, List.head?_append, List.head?_eq_some_head hne, Option.some_or,
        ← List.head?_eq_some_head hne] at hc
      exact hw c (List.mem_of_mem_head? hc)
  · obtain ⟨w, hw, hmem⟩ := getLast?_intercalate (fun w hw ↦ (h w hw).1) c hc
    exact (h w hw).2 c hmem

end PropertyFile.Text
