import Mathlib.Data.List.Infix
import Mathlib.Data.List.TakeWhile
import PropertyFile.Text.Lower

namespace PropertyFile.Text

variable {s t u v before after before' after' : List Char} {c : Char}

def lowerIn (before after : List Char) : List Char → List Char
  | [] => []
  | c :: s => lowerAt before c (s ++ after) ++ lowerIn (c :: before) after s

theorem lowerRest_eq (before done s : List Char) :
    lowerRest before done s = done.reverse ++ lowerIn before [] s := by
  induction s generalizing before done with
  | nil => rw [lowerRest, lowerIn, List.append_nil]
  | cons c s ih =>
    rw [lowerRest, ih, lowerIn, List.reverse_append, List.reverse_reverse, List.append_assoc,
      List.append_nil]

theorem lower_eq (s : List Char) : lower s = lowerIn [] [] s := lowerRest_eq [] [] s

theorem lowerIn_append (before after s t : List Char) : lowerIn before after (s ++ t) =
    lowerIn before (t ++ after) s ++ lowerIn (s.reverse ++ before) after t := by
  induction s generalizing before with
  | nil => rfl
  | cons c s ih =>
    rw [List.cons_append, lowerIn, lowerIn, ih, List.reverse_cons, List.append_assoc,
      List.append_assoc, List.append_assoc, List.singleton_append]

theorem occursIn_iff (s t : List Char) : occursIn s t = true ↔ s <:+: t := by
  induction t with
  | nil => rw [occursIn, List.isEmpty_iff, List.infix_nil]
  | cons c t ih =>
    rw [occursIn, Bool.or_eq_true, List.isPrefixOf_iff_prefix, ih, List.infix_cons_iff]

/-- Whether a capital sigma there ends a word. -/
def isFinal (before after : List Char) : Bool := meetsCased before && !meetsCased after

theorem lowerAt_capitalSigma (before after : List Char) : lowerAt before capitalSigma after =
    if isFinal before after then ['\u03c2'] else ['\u03c3'] :=
  if_pos rfl

theorem lowerAt_of_ne (h : c ≠ capitalSigma) (before after before' after' : List Char) :
    lowerAt before c after = lowerAt before' c after' := by
  rw [lowerAt, lowerAt, if_neg h, if_neg h]

/-- All that a part takes from its surroundings is what becomes of its sigmas. -/
theorem lowerIn_congr (h : ∀ u v, s = u ++ capitalSigma :: v →
      isFinal (u.reverse ++ before) (v ++ after) = isFinal (u.reverse ++ before') (v ++ after')) :
    lowerIn before after s = lowerIn before' after' s := by
  induction s generalizing before before' with
  | nil => rfl
  | cons c s ih =>
    have hhead : lowerAt before c (s ++ after) = lowerAt before' c (s ++ after') := by
      by_cases hc : c = capitalSigma
      · subst hc
        have hsame : isFinal before (s ++ after) = isFinal before' (s ++ after') := h [] s rfl
        rw [lowerAt_capitalSigma, lowerAt_capitalSigma, hsame]
      · exact lowerAt_of_ne hc _ _ _ _
    have htail : lowerIn (c :: before) after s = lowerIn (c :: before') after' s := by
      refine ih fun u v heq ↦ ?_
      have hsame := h (c :: u) v (congrArg (c :: ·) heq)
      simpa only [List.reverse_cons, List.append_assoc, List.singleton_append] using hsame
    rw [lowerIn, lowerIn, hhead, htail]

theorem length_lowerIn (before after before' after' s : List Char) :
    (lowerIn before after s).length = (lowerIn before' after' s).length := by
  induction s generalizing before before' with
  | nil => rfl
  | cons c s ih =>
    have hhead :
        (lowerAt before c (s ++ after)).length = (lowerAt before' c (s ++ after')).length := by
      by_cases hc : c = capitalSigma
      · subst hc
        rw [lowerAt_capitalSigma, lowerAt_capitalSigma]
        split <;> split <;> rfl
      · rw [lowerAt_of_ne hc before _ before' _]
    rw [lowerIn, lowerIn, List.length_append, List.length_append, hhead, ih]

theorem lowerIn_ne
    (h : isFinal (u.reverse ++ before) (v ++ after) ≠
      isFinal (u.reverse ++ before') (v ++ after')) :
    lowerIn before after (u ++ capitalSigma :: v) ≠
      lowerIn before' after' (u ++ capitalSigma :: v) := by
  intro heq
  rw [lowerIn_append, lowerIn_append] at heq
  have htail := (List.append_inj heq (length_lowerIn _ _ _ _ u)).2
  rw [lowerIn, lowerIn, lowerAt_capitalSigma, lowerAt_capitalSigma] at htail
  cases hfinal : isFinal (u.reverse ++ before) (v ++ after) <;>
    cases hfinal' : isFinal (u.reverse ++ before') (v ++ after') <;>
    rw [hfinal, hfinal'] at h htail
  · exact h rfl
  · exact absurd (List.cons.inj htail).1 (by decide)
  · exact absurd (List.cons.inj htail).1 (by decide)
  · exact h rfl

/-- Whether the first character that is not skipped is a cased one, if there is such a character. -/
def sight (s : List Char) : Option Bool := (s.find? (!isCaseIgnorable ·)).map isCased

theorem meetsCased_eq (s : List Char) : meetsCased s = (sight s == some true) := by
  rw [sight, List.find?_not_eq_head?_dropWhile, meetsCased]
  cases s.dropWhile isCaseIgnorable with
  | nil => rfl
  | cons c rest =>
    change isCased c = (some (isCased c) == some true)
    cases isCased c <;> rfl

theorem sight_append (s t : List Char) : sight (s ++ t) = (sight s).or (sight t) := by
  rw [sight, List.find?_append, Option.map_or]
  rfl

theorem isFinal_eq (before after : List Char) :
    isFinal before after = (sight before == some true && sight after != some true) := by
  rw [isFinal, meetsCased_eq, meetsCased_eq]
  rfl

/-- Whether a text shows by itself for each of its capital sigmas whether a word ends there. -/
def SigmasDecided (s : List Char) : Prop :=
  ∀ u v, s = u ++ capitalSigma :: v → sight u.reverse = some false ∨ sight v = some true ∨
    sight u.reverse = some true ∧ sight v = some false

theorem SigmasDecided.lowerIn_eq (h : SigmasDecided s) (before after : List Char) :
    lowerIn before after s = lower s := by
  rw [lower_eq]
  refine lowerIn_congr fun u v heq ↦ ?_
  rw [isFinal_eq, isFinal_eq, sight_append, sight_append, List.append_nil, List.append_nil]
  rcases h u v heq with hu | hv | ⟨hu, hv⟩
  · rw [hu]
    rfl
  · rw [hv, Option.some_or, bne_self_eq_false, Bool.and_false, Bool.and_false]
  · rw [hu, hv]
    rfl

theorem SigmasDecided.lower_occurs (h : SigmasDecided s) (hs : s <:+: t) :
    lower s <:+: lower t := by
  obtain ⟨left, right, rfl⟩ := hs
  rw [lower_eq (left ++ s ++ right), lowerIn_append, lowerIn_append, h.lowerIn_eq]
  exact ⟨_, _, rfl⟩

theorem lower_ne_nil (hs : s ≠ []) : lower s ≠ [] := by
  obtain ⟨c, s, rfl⟩ := List.exists_cons_of_ne_nil hs
  have hhead : lowerAt [] c (s ++ []) ≠ [] := by
    rw [lowerAt]
    split
    · split <;> exact List.cons_ne_nil _ _
    · split <;> exact List.cons_ne_nil _ _
  rw [lower_eq, lowerIn]
  exact List.append_ne_nil_of_left_ne_nil hhead _

/-- A letter that is its own lower case, and that a sigma beside it meets. -/
structure IsLetter (c : Char) : Prop where
  sight_eq : sight [c] = some true
  lowerAt_eq : ∀ before after, lowerAt before c after = [c]

theorem exists_letter (o : Option Char) : ∃ c, IsLetter c ∧ o ≠ some c := by
  by_cases ho : o = some 'a'
  · exact ⟨'b', ⟨by decide +kernel, fun _ _ ↦ rfl⟩, ho ▸ by decide⟩
  · exact ⟨'a', ⟨by decide +kernel, fun _ _ ↦ rfl⟩, ho⟩

theorem not_infix_lower_cons (hc : IsLetter c) (hs : s ≠ []) (hhead : (lower s).head? ≠ some c)
    (hne : lower s ≠ lowerIn [c] [] s) : ¬lower s <:+: lower (c :: s) := by
  rw [lower_eq (c :: s), lowerIn, hc.lowerAt_eq, List.singleton_append, List.infix_cons_iff,
    List.prefix_cons_iff]
  rintro ((hnil | ⟨rest, hrest, -⟩) | hin)
  · exact lower_ne_nil hs hnil
  · exact hhead (by rw [hrest, List.head?_cons])
  · exact hne (hin.eq_of_length (by rw [lower_eq, length_lowerIn]))

theorem not_infix_lower_concat (hc : IsLetter c) (hs : s ≠ []) (hlast : (lower s).getLast? ≠ some c)
    (hne : lower s ≠ lowerIn [] [c] s) : ¬lower s <:+: lower (s ++ [c]) := by
  rw [lower_eq (s ++ [c]), lowerIn_append, lowerIn, hc.lowerAt_eq, lowerIn, List.append_nil,
    List.infix_concat_iff, List.suffix_concat_iff]
  rintro ((hnil | ⟨rest, hrest, -⟩) | hin)
  · exact lower_ne_nil hs hnil
  · exact hlast (by rw [hrest, List.getLast?_concat])
  · exact hne (hin.eq_of_length (by rw [lower_eq, length_lowerIn]))

theorem sigma_ne_nil (u v : List Char) : u ++ capitalSigma :: v ≠ [] :=
  List.append_ne_nil_of_right_ne_nil u (List.cons_ne_nil _ v)

/-- A sigma with nothing to see before it ends a word behind a letter, but not at the start. -/
theorem lower_lost_behind (hu : sight u.reverse = none) (hv : sight v ≠ some true) :
    ∃ c, ¬lower (u ++ capitalSigma :: v) <:+: lower (c :: (u ++ capitalSigma :: v)) := by
  obtain ⟨c, hc, hhead⟩ := exists_letter (lower (u ++ capitalSigma :: v)).head?
  have hne : lower (u ++ capitalSigma :: v) ≠ lowerIn [c] [] (u ++ capitalSigma :: v) := by
    rw [lower_eq]
    refine lowerIn_ne ?_
    rw [isFinal_eq, isFinal_eq, sight_append u.reverse [c], List.append_nil, List.append_nil, hu,
      Option.none_or, hc.sight_eq, bne_iff_ne.mpr hv]
    decide
  exact ⟨c, not_infix_lower_cons hc (sigma_ne_nil u v) hhead hne⟩

/-- A sigma after a letter, with nothing to see after it, ends a word only if no letter follows. -/
theorem lower_lost_before (hu : sight u.reverse = some true) (hv : sight v = none) :
    ∃ c, ¬lower (u ++ capitalSigma :: v) <:+: lower (u ++ capitalSigma :: v ++ [c]) := by
  obtain ⟨c, hc, hlast⟩ := exists_letter (lower (u ++ capitalSigma :: v)).getLast?
  have hne : lower (u ++ capitalSigma :: v) ≠ lowerIn [] [c] (u ++ capitalSigma :: v) := by
    rw [lower_eq]
    refine lowerIn_ne ?_
    rw [isFinal_eq, isFinal_eq, sight_append v [c], List.append_nil, List.append_nil, hu, hv,
      Option.none_or, hc.sight_eq]
    decide
  exact ⟨c, not_infix_lower_concat hc (sigma_ne_nil u v) hlast hne⟩

theorem exists_lower_lost (h : ¬SigmasDecided s) : ∃ t, s <:+: t ∧ ¬lower s <:+: lower t := by
  rw [SigmasDecided] at h
  push Not at h
  obtain ⟨u, v, rfl, hu, hv, huv⟩ := h
  match hbefore : sight u.reverse, hafter : sight v with
  | none, _ =>
    obtain ⟨c, hlost⟩ := lower_lost_behind hbefore hv
    exact ⟨_, List.infix_cons_iff.mpr (.inr List.infix_rfl), hlost⟩
  | some true, none =>
    obtain ⟨c, hlost⟩ := lower_lost_before hbefore hafter
    exact ⟨_, List.infix_append' [] _ [c], hlost⟩
  | some false, _ => exact (hu hbefore).elim
  | some true, some false => exact (huv hbefore hafter).elim
  | some true, some true => exact (hv hafter).elim

/-- The lower case of a text occurs in that of every text around it exactly if the text decides its
sigmas. -/
theorem sigmasDecided_iff : SigmasDecided s ↔ ∀ t, s <:+: t → lower s <:+: lower t := by
  refine ⟨fun h t ↦ h.lower_occurs, fun h ↦ ?_⟩
  by_contra hnot
  obtain ⟨t, hs, hlower⟩ := exists_lower_lost hnot
  exact hlower (h t hs)

end PropertyFile.Text
