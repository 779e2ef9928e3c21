import PropertyFile.Proofs.Inibin.Blocks

namespace PropertyFile.Inibin

open Number Reader

theorem toByte_ofByte (b : UInt8) : toByte (ofByte b) = b := by
  have hall : ∀ n < 256, toByte (ofByte (UInt8.ofNat n)) = UInt8.ofNat n := by decide +kernel
  have hb := hall b.toNat b.toNat_lt
  rwa [UInt8.ofNat_toNat] at hb

theorem yields_scaledByte : Yields scaledByte fun x ↦ ofByte (toByte x) = x := by
  refine ((yields_any Scan.byte).map ofByte).mono ?_
  rintro _ ⟨b, -, rfl⟩
  rw [toByte_ofByte]

def Kept (tag : Tag) (v : Value) : Prop := tag.accepts v = true ∧ storedValue tag v = v

section

variable {r : Scan Single} {settled : Single → Prop}

theorem yields_vec2 (h : Yields r settled) : Yields (Value.vec2 <$> r <*> r) fun v ↦
    ∃ x y, settled x ∧ settled y ∧ v = .vec2 x y := by
  refine ((h.map Value.vec2).seq h).mono ?_
  rintro _ ⟨_, y, ⟨x, hx, rfl⟩, hy, rfl⟩
  exact ⟨x, y, hx, hy, rfl⟩

theorem yields_vec3 (h : Yields r settled) : Yields (Value.vec3 <$> r <*> r <*> r) fun v ↦
    ∃ x y z, settled x ∧ settled y ∧ settled z ∧ v = .vec3 x y z := by
  refine (((h.map Value.vec3).seq h).seq h).mono ?_
  rintro _ ⟨_, z, ⟨_, y, ⟨x, hx, rfl⟩, hy, rfl⟩, hz, rfl⟩
  exact ⟨x, y, z, hx, hy, hz, rfl⟩

theorem yields_vec4 (h : Yields r settled) : Yields (Value.vec4 <$> r <*> r <*> r <*> r) fun v ↦
    ∃ x y z w, settled x ∧ settled y ∧ settled z ∧ settled w ∧ v = .vec4 x y z w := by
  refine ((((h.map Value.vec4).seq h).seq h).seq h).mono ?_
  rintro _ ⟨_, w, ⟨_, z, ⟨_, y, ⟨x, hx, rfl⟩, hy, rfl⟩, hz, rfl⟩, hw, rfl⟩
  exact ⟨x, y, z, w, hx, hy, hz, hw, rfl⟩

end

theorem yields_scalar {α : Type} {tag : Tag} (p : Scan α) {make : α → Value}
    (h : ∀ a, Kept tag (make a)) : Yields (make <$> p) (Kept tag) := by
  refine ((yields_any p).map make).mono ?_
  rintro _ ⟨a, -, rfl⟩
  exact h a

theorem yields_fixedValue {tag : Tag} {value : Scan Value} (hv : fixedValue? tag = some value) :
    Yields value (Kept tag) := by
  cases tag <;> simp only [fixedValue?, Option.some.injEq, reduceCtorEq] at hv <;> subst hv
  case int32 => exact yields_scalar Scan.word32 fun _ ↦ ⟨rfl, rfl⟩
  case float => exact yields_scalar single fun _ ↦ ⟨rfl, rfl⟩
  case int16 => exact yields_scalar Scan.word16 fun _ ↦ ⟨rfl, rfl⟩
  case byte => exact yields_scalar Scan.byte fun _ ↦ ⟨rfl, rfl⟩
  case scaled =>
    refine (yields_scaledByte.map Value.scaled).mono ?_
    rintro _ ⟨x, hx, rfl⟩
    exact ⟨rfl, congrArg Value.scaled hx⟩
  case vec3Scaled =>
    refine (yields_vec3 yields_scaledByte).mono ?_
    rintro _ ⟨x, y, z, hx, hy, hz, rfl⟩
    refine ⟨rfl, ?_⟩
    simp only [storedValue, storedComponent, hx, hy, hz]
  case vec3 =>
    refine (yields_vec3 (yields_any single)).mono ?_
    rintro _ ⟨x, y, z, -, -, -, rfl⟩
    exact ⟨rfl, rfl⟩
  case vec2Scaled =>
    refine (yields_vec2 yields_scaledByte).mono ?_
    rintro _ ⟨x, y, hx, hy, rfl⟩
    refine ⟨rfl, ?_⟩
    simp only [storedValue, storedComponent, hx, hy]
  case vec2 =>
    refine (yields_vec2 (yields_any single)).mono ?_
    rintro _ ⟨x, y, -, -, rfl⟩
    exact ⟨rfl, rfl⟩
  case vec4Scaled =>
    refine (yields_vec4 yields_scaledByte).mono ?_
    rintro _ ⟨x, y, z, w, hx, hy, hz, hw, rfl⟩
    refine ⟨rfl, ?_⟩
    simp only [storedValue, storedComponent, hx, hy, hz, hw]
  case vec4 =>
    refine (yields_vec4 (yields_any single)).mono ?_
    rintro _ ⟨x, y, z, w, -, -, -, -, rfl⟩
    exact ⟨rfl, rfl⟩

/-- Properties as they come from the block of a tag. -/
structure OfBlock (tag : Tag) (ps : List Property) : Prop where
  length_le : ps.length ≤ limit
  tag_eq : ∀ p ∈ ps, p.tag = tag
  fits : ∀ p ∈ ps, Fits p
  stored_eq : ∀ p ∈ ps, stored p = p

theorem yields_hashes : Yields hashes fun hs ↦ hs.length ≤ limit := by
  refine (Scan.yields_nat 2).bind fun n hn ↦ ((yields_any Scan.word32).times n).mono ?_
  rintro hs ⟨rfl, -⟩
  exact Nat.lt_succ_iff.mp hn

theorem mem_withValues {tag : Tag} {hs : List UInt32} {values : List Value} {p : Property}
    (h : p ∈ withValues tag hs values) : ∃ hash, ∃ v ∈ values, p = ⟨hash, none, v, tag⟩ := by
  obtain ⟨i, hi, rfl⟩ := List.mem_iff_getElem.mp h
  rw [withValues, List.length_zipWith] at hi
  simp only [withValues, List.getElem_zipWith]
  exact ⟨_, values[i], List.getElem_mem (by omega), rfl⟩

theorem ofBlock_withValues {tag : Tag} {hs : List UInt32} {values : List Value}
    (ht : tag ≠ .table) (hl : hs.length ≤ limit) (hv : ∀ v ∈ values, Kept tag v) :
    OfBlock tag (withValues tag hs values) where
  length_le := by
    rw [withValues, List.length_zipWith]
    omega
  tag_eq p hp := by
    obtain ⟨hash, v, -, rfl⟩ := mem_withValues hp
    rfl
  fits p hp := by
    obtain ⟨hash, v, hmem, rfl⟩ := mem_withValues hp
    exact ⟨ht, (hv v hmem).1⟩
  stored_eq p hp := by
    obtain ⟨hash, v, hmem, rfl⟩ := mem_withValues hp
    simp only [stored, (hv v hmem).2]

theorem yields_fixedBlock {tag : Tag} {value : Scan Value} (ht : tag ≠ .table)
    (hv : fixedValue? tag = some value) : Yields (fixedBlock tag value) (OfBlock tag) :=
  yields_hashes.bind fun _ hl ↦ ((yields_fixedValue hv).times _).bind fun _ hvs ↦
    yields_pure (ofBlock_withValues ht hl hvs.2)

theorem yields_boolBlock : Yields boolBlock (OfBlock .bool) := by
  refine yields_hashes.bind fun hs hl ↦ (yields_any _).bind fun bytes _ ↦ yields_pure ?_
  refine ofBlock_withValues (by decide) hl fun v hv ↦ ?_
  obtain ⟨b, -, rfl⟩ := List.mem_map.mp hv
  exact ⟨rfl, rfl⟩

theorem kept_textAt (area : Array UInt8) (i : Nat) : Kept .string (.string (textAt area i)) :=
  ⟨rfl, congrArg Value.string (Text.beforeZero_eq_self (zero_notMem_textAt area i))⟩

theorem yields_strings (size : Nat) : Yields (strings size) (OfBlock .string) := by
  have hblock : Yields (stringBlock size) fun r ↦ r.1.length ≤ limit :=
    yields_hashes.bind fun hs hl ↦ (yields_any _).bind fun offsets _ ↦ (yields_any _).bind
      fun area _ ↦ yields_pure hl
  refine (Scan.yields_orFail hblock _).bind fun r hl ↦ ?_
  obtain ⟨hs, offsets, area⟩ := r
  dsimp only
  split
  · exact yields_throw _ _
  · refine yields_pure (ofBlock_withValues (by decide) hl fun v hv ↦ ?_)
    obtain ⟨i, -, rfl⟩ := List.mem_map.mp hv
    exact kept_textAt area i

theorem yields_block (size n : Nat) : Yields (block size n) fun ps ↦
    ∃ tag, Tag.ofBlock? n = some tag ∧ OfBlock tag ps := by
  cases hn : Tag.ofBlock? n with
  | none =>
    simp only [block, hn]
    exact yields_throw _ _
  | some tag =>
    rcases block_cases hn size with ⟨rfl, hb⟩ | ⟨rfl, hb⟩ | ⟨value, hv, hb⟩
    · rw [hb]
      exact (yields_strings size).mono fun ps hps ↦ ⟨_, rfl, hps⟩
    · rw [hb]
      exact (Scan.yields_orFail yields_boolBlock _).mono fun ps hps ↦ ⟨_, rfl, hps⟩
    · have ht : tag ≠ .table := by
        rintro rfl
        cases hv
      rw [hb]
      exact (Scan.yields_orFail (yields_fixedBlock ht hv) _).mono fun ps hps ↦ ⟨_, rfl, hps⟩

/-- Properties as they come from a file. -/
structure Sound (ps : List Property) : Prop where
  fits : ∀ p ∈ ps, Fits p
  stored_eq : ∀ p ∈ ps, stored p = p
  count_le : ∀ tag, (ps.filter (·.tag = tag)).length ≤ limit

theorem filter_of_blocks {ns : List Nat} {pss : List (List Property)} {tag : Tag}
    (h : List.Forall₂ (fun n ps ↦ ∃ t, Tag.ofBlock? n = some t ∧ OfBlock t ps) ns pss)
    (hn : ∀ n ∈ ns, Tag.ofBlock? n ≠ some tag) : pss.flatten.filter (·.tag = tag) = [] := by
  induction h with
  | nil => rfl
  | @cons n ps ns pss hps htail ih =>
    obtain ⟨t, ht, hblock⟩ := hps
    rw [List.flatten_cons, List.filter_append, ih fun m hm ↦ hn m (List.mem_cons_of_mem n hm),
      List.append_nil, List.filter_eq_nil_iff]
    intro p hp htag
    rw [← of_decide_eq_true htag, hblock.tag_eq p hp] at hn
    exact hn n List.mem_cons_self ht

theorem sound_of_blocks {ns : List Nat} {pss : List (List Property)} (hd : ns.Nodup)
    (h : List.Forall₂ (fun n ps ↦ ∃ t, Tag.ofBlock? n = some t ∧ OfBlock t ps) ns pss) :
    Sound pss.flatten := by
  induction h with
  | nil => exact ⟨List.forall_mem_nil _, List.forall_mem_nil _, fun _ ↦ Nat.zero_le _⟩
  | @cons n ps ns pss hps htail ih =>
    obtain ⟨t, ht, hblock⟩ := hps
    obtain ⟨hnot, hd⟩ := List.nodup_cons.mp hd
    have hrest := ih hd
    rw [List.flatten_cons]
    refine ⟨List.forall_mem_append.mpr ⟨hblock.fits, hrest.fits⟩,
      List.forall_mem_append.mpr ⟨hblock.stored_eq, hrest.stored_eq⟩, fun tag ↦ ?_⟩
    rw [List.filter_append, List.length_append]
    by_cases htag : t = tag
    · subst htag
      -- No other block has this tag, so that the block alone counts.
      have hnone : ∀ m ∈ ns, Tag.ofBlock? m ≠ some t := by
        intro m hm hof
        have hblocks := (Tag.ofBlock?_eq_some_iff.mp hof).symm.trans
          (Tag.ofBlock?_eq_some_iff.mp ht)
        exact hnot (Option.some.inj hblocks ▸ hm)
      rw [filter_of_blocks htail hnone, List.length_nil, Nat.add_zero]
      exact (List.length_filter_le _ _).trans hblock.length_le
    · have hnil : ps.filter (·.tag = tag) = [] := by
        rw [List.filter_eq_nil_iff]
        intro p hp hp'
        exact htag ((hblock.tag_eq p hp).symm.trans (of_decide_eq_true hp'))
      rw [hnil, List.length_nil, Nat.zero_add]
      exact hrest.count_le tag

theorem yields_blocks (size flags : Nat) : Yields (blocks size flags) Sound := by
  refine ((Yields.mapM (yields_block size) (present flags)).map List.flatten).mono ?_
  rintro _ ⟨pss, hpss, rfl⟩
  exact sound_of_blocks (List.nodup_range.filter _) hpss

theorem properties_treeOf (ps : List Property) : (treeOf ps).properties = ps := by
  cases ps with
  | nil => rfl
  | cons p ps => exact List.flatMap_singleton Section.properties _

/-- A tree that is decoded has one section, of properties that are as they come from a file. -/
theorem decode_ok {bytes : List UInt8} {t : Tree} (h : decode bytes = .ok t) :
    ∃ ps, t = treeOf ps ∧ Sound ps := by
  cases bytes with
  | nil => cases h
  | cons v rest =>
    rw [decode] at h
    split at h
    · split at h
      · cases h
      · next size flags body _ =>
        cases hb : (blocks size flags).run body with
        | error e =>
          rw [hb] at h
          cases h
        | ok r =>
          rw [hb] at h
          injection h with h
          exact ⟨r.1, h.symm, yields_blocks size flags body r.1 r.2 hb⟩
    · split at h <;> cases h

end PropertyFile.Inibin
