import Mathlib.Data.List.Perm.Basic

namespace PropertyFile.StableSort

variable {α : Type} {le : α → α → Bool}

structure TotalPreorder (le : α → α → Bool) : Prop where
  trans : ∀ a b c, le a b → le b c → le a c
  total : ∀ a b, le a b || le b a

def tied (le : α → α → Bool) (a b : α) : Bool := le a b && le b a

theorem TotalPreorder.refl (h : TotalPreorder le) (a : α) : le a a = true := by
  simpa only [Bool.or_self] using h.total a a

theorem TotalPreorder.tied_self (h : TotalPreorder le) (a : α) : tied le a a = true := by
  simp only [tied, h.refl, Bool.and_self]

theorem TotalPreorder.comap {β : Type} (h : TotalPreorder le) (f : β → α) :
    TotalPreorder fun a b ↦ le (f a) (f b) where
  trans a b c := h.trans (f a) (f b) (f c)
  total a b := h.total (f a) (f b)

theorem TotalPreorder.of_cmp (cmp : α → α → Ordering) [Std.TransCmp cmp] :
    TotalPreorder fun a b ↦ (cmp a b).isLE where
  trans _ _ _ hab hbc := Std.TransCmp.isLE_trans hab hbc
  total a b := by
    rw [Bool.or_eq_true]
    cases h : cmp a b with
    | lt => exact .inl rfl
    | eq => exact .inl rfl
    | gt =>
      right
      rw [Std.OrientedCmp.lt_of_gt h]
      rfl

/-- An order first, and a second one among what the first one ties. -/
def lex (le le' : α → α → Bool) (a b : α) : Bool := le a b && (!le b a || le' a b)

theorem TotalPreorder.lex {le' : α → α → Bool} (h : TotalPreorder le) (h' : TotalPreorder le') :
    TotalPreorder (lex le le') where
  trans a b c hab hbc := by
    simp only [StableSort.lex, Bool.and_eq_true, Bool.or_eq_true, Bool.not_eq_true',
      ← Bool.not_eq_true, ← imp_iff_not_or] at hab hbc ⊢
    refine ⟨h.trans a b c hab.1 hbc.1, fun hca ↦ ?_⟩
    have hba := h.trans b c a hbc.1 hca
    have hcb := h.trans c a b hca hab.1
    exact h'.trans a b c (hab.2 hba) (hbc.2 hcb)
  total a b := by
    have h₁ := h.total a b
    have h₂ := h'.total a b
    simp only [StableSort.lex]
    cases hab : le a b <;> cases hba : le b a <;> simp_all

theorem tied_lex (le le' : α → α → Bool) (a b : α) :
    tied (lex le le') a b = (tied le a b && tied le' a b) := by
  simp only [tied, lex]
  cases le a b <;> cases le b a <;> simp

theorem TotalPreorder.pairwise_mergeSort (h : TotalPreorder le) (l : List α) :
    (l.mergeSort le).Pairwise fun a b ↦ le a b = true :=
  List.pairwise_mergeSort h.trans h.total l

/-- Sorting keeps the order of elements that are tied with each other. -/
theorem filter_mergeSort (h : TotalPreorder le) (p : α → Bool)
    (hp : ∀ a b, p a = true → p b = true → le a b = true) (l : List α) :
    (l.mergeSort le).filter p = l.filter p := by
  have hs : (l.filter p).Pairwise fun a b ↦ le a b = true :=
    List.pairwise_of_forall_mem_list fun a ha b hb ↦
      hp a b (List.mem_filter.mp ha).2 (List.mem_filter.mp hb).2
  have hsub := (List.sublist_mergeSort h.trans h.total hs List.filter_sublist).filter p
  rw [List.filter_filter] at hsub
  simp only [Bool.and_self] at hsub
  exact (hsub.eq_of_length ((List.mergeSort_perm l le).filter p).length_eq.symm).symm

theorem tied_run (h : TotalPreorder le) (a b c : α) (hb : tied le a b = true)
    (hc : tied le a c = true) : le b c = true := by
  simp only [tied, Bool.and_eq_true] at hb hc
  exact h.trans b a c hb.2 hc.1

theorem filter_tied_mergeSort (h : TotalPreorder le) (a : α) (l : List α) :
    (l.mergeSort le).filter (tied le a) = l.filter (tied le a) :=
  filter_mergeSort h _ (tied_run h a) l

theorem mem_of_runs (h : TotalPreorder le) {l m : List α}
    (hr : ∀ a, l.filter (tied le a) = m.filter (tied le a)) {a : α} (ha : a ∈ l) : a ∈ m := by
  have hrun : a ∈ l.filter (tied le a) := List.mem_filter.mpr ⟨ha, h.tied_self a⟩
  rw [hr a] at hrun
  exact (List.mem_filter.mp hrun).1

theorem runs_of_cons {a : α} {l m : List α}
    (hr : ∀ c, (a :: l).filter (tied le c) = (a :: m).filter (tied le c)) (c : α) :
    l.filter (tied le c) = m.filter (tied le c) := by
  have hc := hr c
  by_cases hca : tied le c a = true
  · rw [List.filter_cons_of_pos hca, List.filter_cons_of_pos hca] at hc
    exact (List.cons.inj hc).2
  · rwa [List.filter_cons_of_neg hca, List.filter_cons_of_neg hca] at hc

theorem le_of_mem_sorted (h : TotalPreorder le) {a b : α} {l : List α}
    (hl : (a :: l).Pairwise fun a b ↦ le a b = true) (hb : b ∈ a :: l) : le a b = true := by
  rcases List.mem_cons.mp hb with rfl | hmem
  · exact h.refl b
  · exact List.rel_of_pairwise_cons hl hmem

/-- A sorted list is known by its runs. -/
theorem eq_of_runs (h : TotalPreorder le) {l m : List α} (hl : l.Pairwise fun a b ↦ le a b = true)
    (hm : m.Pairwise fun a b ↦ le a b = true)
    (hr : ∀ a, l.filter (tied le a) = m.filter (tied le a)) : l = m := by
  induction l generalizing m with
  | nil =>
    cases m with
    | nil => rfl
    | cons b m => cases mem_of_runs h (fun a ↦ (hr a).symm) List.mem_cons_self
  | cons a l ih =>
    cases m with
    | nil => cases mem_of_runs h hr List.mem_cons_self
    | cons b m =>
      -- Each head is below every member of its own list, and so of the other one.
      have hba : le b a = true := le_of_mem_sorted h hm (mem_of_runs h hr List.mem_cons_self)
      have hab : le a b = true :=
        le_of_mem_sorted h hl (mem_of_runs h (fun c ↦ (hr c).symm) List.mem_cons_self)
      have htie : tied le a b = true := by simp only [tied, hab, hba, Bool.and_self]
      have hhead := hr a
      rw [List.filter_cons_of_pos (h.tied_self a), List.filter_cons_of_pos htie] at hhead
      obtain rfl : a = b := (List.cons.inj hhead).1
      rw [ih hl.of_cons hm.of_cons (runs_of_cons hr)]

theorem mergeSort_congr (h : TotalPreorder le) {l m : List α}
    (hr : ∀ a, l.filter (tied le a) = m.filter (tied le a)) : l.mergeSort le = m.mergeSort le :=
  eq_of_runs h (h.pairwise_mergeSort l) (h.pairwise_mergeSort m) fun a ↦ by
    rw [filter_tied_mergeSort h, filter_tied_mergeSort h, hr a]

theorem filter_mergeSort_comm (h : TotalPreorder le) (p : α → Bool) (l : List α) :
    (l.mergeSort le).filter p = (l.filter p).mergeSort le := by
  refine eq_of_runs h ((h.pairwise_mergeSort l).filter p) (h.pairwise_mergeSort _) fun a ↦ ?_
  rw [filter_tied_mergeSort h, List.filter_comm, filter_tied_mergeSort h, List.filter_comm]

/-- The runs of distinct keys, and what has none of these keys, make up the list. -/
theorem perm_flatMap_filter {β : Type} [DecidableEq β] (key : α → β) (l : List α) (ks : List β)
    (hk : ks.Nodup) :
    (ks.flatMap (fun k ↦ l.filter (key · = k)) ++ l.filter (key · ∉ ks)).Perm l := by
  induction ks with
  | nil => simp only [List.flatMap_nil, List.nil_append, List.not_mem_nil, not_false_eq_true,
      decide_true, List.filter_true, List.Perm.refl]
  | cons k ks ih =>
    obtain ⟨hnot, hks⟩ := List.nodup_cons.mp hk
    have hsplit := List.filter_append_perm (key · = k) (l.filter (key · ∉ ks))
    have hin : (l.filter (key · ∉ ks)).filter (key · = k) = l.filter (key · = k) := by
      rw [List.filter_filter]
      refine List.filter_congr fun a _ ↦ ?_
      by_cases ha : key a = k
      · simp only [ha, decide_true, hnot, not_false_eq_true, Bool.and_self]
      · simp only [ha, decide_false, Bool.false_and]
    have hout : (l.filter (key · ∉ ks)).filter (fun a ↦ !decide (key a = k)) =
        l.filter (key · ∉ k :: ks) := by
      rw [List.filter_filter]
      refine List.filter_congr fun a _ ↦ ?_
      simp only [List.mem_cons, not_or, Bool.decide_and, decide_not]
    rw [hin, hout] at hsplit
    refine List.Perm.trans ?_ (ih hks)
    rw [List.flatMap_cons, List.append_assoc]
    refine (List.perm_append_comm_assoc _ _ _).trans ?_
    exact List.Perm.append_left _ hsplit

section Keys

variable {κ : Type} (cmp : κ → κ → Ordering) (key : α → κ)

def sortBy (l : List α) : List α := l.mergeSort fun a b ↦ (cmp (key a) (key b)).isLE

theorem sortBy_perm (l : List α) : (sortBy cmp key l).Perm l := List.mergeSort_perm _ _

variable {cmp key} [Std.TransCmp cmp] [Std.LawfulEqCmp cmp]

theorem pairwise_sortBy {l : List α} (h : (l.map key).Nodup) :
    (sortBy cmp key l).Pairwise fun a b ↦ cmp (key a) (key b) = .lt := by
  have hle := ((TotalPreorder.of_cmp cmp).comap key).pairwise_mergeSort l
  have hne : (sortBy cmp key l).Pairwise fun a b ↦ key a ≠ key b :=
    List.pairwise_map.mp (((sortBy_perm cmp key l).map key).nodup_iff.mpr h)
  refine (hle.and hne).imp fun {a b} ⟨hab, hkeys⟩ ↦ ?_
  cases hcmp : cmp (key a) (key b) with
  | lt => rfl
  | eq => exact (hkeys (Std.LawfulEqCmp.eq_of_compare hcmp)).elim
  | gt =>
    rw [hcmp] at hab
    cases hab

end Keys

end PropertyFile.StableSort
