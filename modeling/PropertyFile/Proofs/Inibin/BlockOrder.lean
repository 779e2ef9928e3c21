import PropertyFile.Proofs.Inibin.RoundTrip

namespace PropertyFile.Inibin

def blockNumber (p : Property) : Nat := p.tag.block?.getD 13

def byBlock (p q : Property) : Bool :=
  decide (blockNumber p < blockNumber q ∨ blockNumber p = blockNumber q ∧ p.hash ≤ q.hash)

theorem byBlock_preorder : StableSort.TotalPreorder byBlock where
  trans p q r hpq hqr := by
    simp only [byBlock, decide_eq_true_eq, UInt32.le_iff_toNat_le] at hpq hqr ⊢
    omega
  total p q := by
    simp only [byBlock, Bool.or_eq_true, decide_eq_true_eq, UInt32.le_iff_toNat_le]
    omega

theorem blockNumber_inj {p q : Property} : blockNumber p = blockNumber q ↔ p.tag = q.tag := by
  have hinj : ∀ t u : Tag, t.block?.getD 13 = u.block?.getD 13 ↔ t = u := by
    intro t u
    cases t <;> cases u <;> decide
  exact hinj p.tag q.tag

theorem tied_byBlock (p q : Property) :
    StableSort.tied byBlock p q = decide (q.tag = p.tag ∧ q.hash = p.hash) := by
  rw [Bool.eq_iff_iff, StableSort.tied, Bool.and_eq_true, decide_eq_true_eq,
    ← blockNumber_inj, ← UInt32.toNat_inj]
  simp only [byBlock, decide_eq_true_eq, UInt32.le_iff_toNat_le]
  omega

theorem flatMap_eq_of_nodup {α β : Type} {l : List α} {f : α → List β} {a : α} (hd : l.Nodup)
    (hmem : a ∈ l) (h : ∀ b ∈ l, b ≠ a → f b = []) : l.flatMap f = f a := by
  induction l with
  | nil => cases hmem
  | cons b l ih =>
    obtain ⟨hnot, hd⟩ := List.nodup_cons.mp hd
    rw [List.flatMap_cons]
    by_cases hb : b = a
    · subst hb
      have hrest : l.flatMap f = [] := List.flatMap_eq_nil_iff.mpr fun c hc ↦
        h c (List.mem_cons_of_mem b hc) fun heq ↦ hnot (heq ▸ hc)
      rw [hrest, List.append_nil]
    · rw [h b List.mem_cons_self hb, List.nil_append]
      exact ih hd ((List.mem_cons.mp hmem).resolve_left fun heq ↦ hb heq.symm) fun c hc ↦
        h c (List.mem_cons_of_mem b hc)

theorem filter_inBlocks {ps : List Property} (h : ∀ p ∈ ps, p.tag ≠ .table) (tag : Tag)
    (hash : UInt32) :
    (inBlocks ps).filter (fun p ↦ p.tag = tag ∧ p.hash = hash) =
      ps.filter fun p ↦ p.tag = tag ∧ p.hash = hash := by
  by_cases htable : tag = .table
  · subst htable
    have hnone : ∀ qs : List Property, (∀ p ∈ qs, p ∈ ps) →
        qs.filter (fun p ↦ p.tag = .table ∧ p.hash = hash) = [] := by
      intro qs hqs
      rw [List.filter_eq_nil_iff]
      intro p hp htag
      exact h p (hqs p hp) (of_decide_eq_true htag).1
    rw [hnone ps fun _ hp ↦ hp, hnone _ fun p hp ↦ (inBlocks_perm h).mem_iff.mp hp]
  have hblock : ∀ t : Tag, ((ps.filter (·.tag = t)).mergeSort byHash).filter
      (fun p ↦ p.tag = tag ∧ p.hash = hash) =
        (ps.filter (·.tag = t)).filter fun p ↦ p.tag = tag ∧ p.hash = hash := by
    intro t
    refine StableSort.filter_mergeSort byHash_preorder _ (fun p q hp hq ↦ ?_) _
    rw [byHash, (of_decide_eq_true hp).2, (of_decide_eq_true hq).2]
    exact decide_eq_true (UInt32.le_refl hash)
  have hother : ∀ t ∈ Tag.blocks, t ≠ tag → (ps.filter (·.tag = t)).filter
      (fun p ↦ p.tag = tag ∧ p.hash = hash) = [] := by
    intro t _ ht
    rw [List.filter_eq_nil_iff]
    intro p hp htag
    exact ht ((of_decide_eq_true (List.mem_filter.mp hp).2).symm.trans
      (of_decide_eq_true htag).1)
  rw [inBlocks, List.filter_flatMap]
  simp only [hblock]
  rw [flatMap_eq_of_nodup (by decide) (mem_blocks htable) hother, List.filter_filter]
  refine List.filter_congr fun p _ ↦ ?_
  by_cases hp : p.tag = tag
  · simp only [hp, decide_true, Bool.and_true]
  · simp only [hp, false_and, decide_false, Bool.and_false]

theorem pairwise_inBlocks (ps : List Property) :
    (inBlocks ps).Pairwise fun p q ↦ byBlock p q = true := by
  have hblocks : Tag.blocks.Pairwise fun t u ↦ t.block?.getD 13 < u.block?.getD 13 := by decide
  have htag : ∀ (t : Tag) (p : Property), p ∈ (ps.filter (·.tag = t)).mergeSort byHash →
      p.tag = t := by
    intro t p hp
    exact of_decide_eq_true (List.mem_filter.mp (List.mem_mergeSort.mp hp)).2
  rw [inBlocks, List.pairwise_flatMap]
  refine ⟨fun t _ ↦ ?_, hblocks.imp fun {t u} hlt p hp q hq ↦ ?_⟩
  · refine (byHash_preorder.pairwise_mergeSort _).imp_of_mem fun {p q} hp hq hle ↦ ?_
    refine decide_eq_true (.inr ⟨?_, of_decide_eq_true hle⟩)
    rw [blockNumber_inj, htag t p hp, htag t q hq]
  · refine decide_eq_true (.inl ?_)
    rw [blockNumber, blockNumber, htag t p hp, htag u q hq]
    exact hlt

/-- Block by block is sorted by the block and the hash. -/
theorem inBlocks_eq_mergeSort {ps : List Property} (h : ∀ p ∈ ps, p.tag ≠ .table) :
    inBlocks ps = ps.mergeSort byBlock := by
  refine StableSort.eq_of_runs byBlock_preorder (pairwise_inBlocks ps)
    (byBlock_preorder.pairwise_mergeSort ps) fun p ↦ ?_
  rw [StableSort.filter_tied_mergeSort byBlock_preorder, funext (tied_byBlock p),
    filter_inBlocks h]

end PropertyFile.Inibin
