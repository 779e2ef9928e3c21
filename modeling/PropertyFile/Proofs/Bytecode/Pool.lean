import PropertyFile.Proofs.Bytecode.Limits
import PropertyFile.Proofs.Bytecode.WellFormed

namespace PropertyFile.Bytecode

open Number

/-- Of constants in the order of their use, the first in each slot. -/
def firstUses : List Constant → List Constant
  | [] => []
  | k :: ks => k :: (firstUses ks).filter fun k' ↦ k'.slot ≠ k.slot

def addUse (pool : List Constant) (k : Constant) : List Constant :=
  if k.slot ∈ pool.map Constant.slot then pool else pool ++ [k]

/-- Constants that join one by one are those of the first uses whose slots were free. -/
theorem foldl_addUse (ks pool : List Constant) : ks.foldl addUse pool =
    pool ++ (firstUses ks).filter fun k ↦ k.slot ∉ pool.map Constant.slot := by
  induction ks generalizing pool with
  | nil => exact (List.append_nil pool).symm
  | cons k ks ih =>
    rw [List.foldl_cons, ih, addUse, firstUses]
    by_cases hk : k.slot ∈ pool.map Constant.slot
    · rw [if_pos hk, List.filter_cons_of_neg (by simpa using hk), List.filter_filter]
      congr 1
      refine List.filter_congr fun k' _ ↦ ?_
      by_cases hk' : k'.slot = k.slot
      · simp only [hk', hk, not_true_eq_false, decide_false, Bool.false_and]
      · simp only [ne_eq, hk', not_false_eq_true, decide_true, Bool.and_true]
    · rw [if_neg hk, List.filter_cons_of_pos (by simpa using hk), List.filter_filter,
        List.append_assoc, List.singleton_append]
      congr 2
      refine List.filter_congr fun k' _ ↦ ?_
      simp only [List.map_append, List.map_singleton, List.mem_append, List.mem_singleton, not_or,
        ne_eq, Bool.decide_and]

theorem nodup_firstUses (ks : List Constant) : ((firstUses ks).map Constant.slot).Nodup := by
  induction ks with
  | nil => exact List.nodup_nil
  | cons k ks ih =>
    rw [firstUses, List.map_cons, List.nodup_cons]
    refine ⟨fun hmem ↦ ?_, ih.sublist (List.filter_sublist.map _)⟩
    obtain ⟨k', hk', hslot⟩ := List.mem_map.mp hmem
    exact of_decide_eq_true (List.mem_filter.mp hk').2 hslot

example : firstUses [.number ⟨0⟩, .string "a", .number ⟨0x8000000000000000⟩, .string "a"] =
    [.number ⟨0⟩, .string "a"] := by decide

theorem slot_mem_firstUses {k : Constant} {ks : List Constant} (h : k ∈ ks) :
    ∃ k' ∈ firstUses ks, k'.slot = k.slot := by
  induction ks with
  | nil => exact (List.not_mem_nil h).elim
  | cons k₀ ks ih =>
    by_cases hk : k.slot = k₀.slot
    · exact ⟨k₀, List.mem_cons_self, hk.symm⟩
    · have hne : k ≠ k₀ := fun heq ↦ hk (congrArg Constant.slot heq)
      obtain ⟨k', hk', hslot⟩ := ih ((List.mem_cons.mp h).resolve_left hne)
      refine ⟨k', List.mem_cons_of_mem _ (List.mem_filter.mpr ⟨hk', ?_⟩), hslot⟩
      exact decide_eq_true (hslot ▸ hk)

namespace Compiler

variable {α β : Type} {ks ks' : List Constant}

/-- What a step adds to the pool: the given constants one by one. -/
def Adds (x : Compiler α) (ks : List Constant) : Prop :=
  ∀ s a s', x s = .ok (a, s') → s.Sound →
    s'.Sound ∧ s'.constants.toList = ks.foldl addUse s.constants.toList

theorem Adds.bind {x : Compiler α} {f : α → Compiler β} (hx : Adds x ks)
    (hf : ∀ a, Adds (f a) ks') : Adds (x >>= f) (ks ++ ks') := by
  intro s b s'' h hs
  obtain ⟨a, s', hrun, hrun'⟩ := bind_ok.mp h
  obtain ⟨hs', hpool⟩ := hx s a s' hrun hs
  obtain ⟨hs'', hpool'⟩ := hf a s' b s'' hrun' hs'
  exact ⟨hs'', by rw [hpool', hpool, List.foldl_append]⟩

theorem adds_pure (a : α) : Adds (pure a) [] := by
  intro s b s' h hs
  obtain ⟨-, rfl⟩ := pure_ok.mp h
  exact ⟨hs, rfl⟩

theorem adds_emit (w : Word) : Adds (emit w) [] := by
  intro s a s' h hs
  refine ⟨(emit_ok h).sound hs, ?_⟩
  rw [emit_apply] at h
  injection h with h
  obtain ⟨-, rfl⟩ := Prod.mk.inj h
  rfl

theorem adds_touch (r : Nat) : Adds (touch r) [] := by
  intro s a s' h hs
  refine ⟨(touch_ok h).2.2.sound hs, ?_⟩
  rw [touch_apply] at h
  split at h
  · cases h
  · injection h with h
    obtain ⟨-, rfl⟩ := Prod.mk.inj h
    rfl

theorem adds_newTable (r : Nat) : Adds (newTable r) [] :=
  (adds_touch r).bind fun _ ↦ adds_emit _

theorem adds_load (r i : Nat) : Adds (load r i) [] := by
  intro s a s' h hs
  rw [load] at h
  split at h
  · cases h
  · exact (adds_touch r).bind (fun _ ↦ adds_emit _) s a s' h hs

theorem adds_constant (k : Constant) : Adds (constant k) [k] := by
  intro s i s' h hs
  rw [List.foldl_cons, List.foldl_nil, addUse]
  obtain ⟨hi, rfl⟩ | ⟨hi, rfl, rfl⟩ := constant_cases h
  · rw [hs.index_eq, Array.findIdx?_eq_some_iff_getElem] at hi
    obtain ⟨hlt, hslot, -⟩ := hi
    refine ⟨hs, (if_pos ?_).symm⟩
    rw [← of_decide_eq_true hslot]
    exact List.mem_map_of_mem (Array.getElem_mem_toList hlt)
  · refine ⟨(grown_insert hi).sound hs, ?_⟩
    rw [hs.index_eq, Array.findIdx?_eq_none_iff] at hi
    rw [Array.toList_push, if_neg fun hmem ↦ ?_]
    obtain ⟨k', hk', hslot⟩ := List.mem_map.mp hmem
    exact of_decide_eq_false (hi k' (Array.mem_toList_iff.mp hk')) hslot

theorem adds_constantOperand (i scratch : Nat) : Adds (constantOperand i scratch) [] := by
  rw [constantOperand]
  split
  · exact adds_pure _
  · exact (adds_load scratch i).bind fun _ ↦ adds_pure _

theorem adds_assign (t : Nat) (key : Key) (x : Nat) : Adds (assign t key x) [keyConstant key] :=
  (adds_constant _).bind fun i ↦ (adds_constantOperand i (t + 1)).bind fun _ ↦ adds_emit _

theorem adds_scalarField (t : Nat) (key : Key) (k : Constant) :
    Adds (scalarField t key k) [k, keyConstant key] :=
  (adds_constant k).bind fun i ↦ (adds_constantOperand i (t + 2)).bind fun x ↦ adds_assign t key x

theorem adds_components (t : Nat) (first : Int64) (xs : List Single) :
    Adds (components t first xs) (itemConstants first xs) := by
  induction xs generalizing first with
  | nil => exact adds_pure ()
  | cons x xs ih => exact (adds_scalarField t _ _).bind fun _ ↦ ih (first + 1)

theorem adds_tableField (t : Nat) (key : Key) {fill : Compiler Unit} (hfill : Adds fill ks) :
    Adds (tableField t key fill) (ks ++ [keyConstant key]) :=
  (adds_newTable _).bind fun _ ↦ hfill.bind fun _ ↦ adds_assign t key (t + 2)

mutual

/-- The constants of a value join the pool before that of its key. -/
theorem adds_field (t : Nat) (key : Key) : (v : Value) →
    Adds (field t key v) (valueConstants v ++ [keyConstant key])
  | .int32 _ | .float _ | .scaled _ | .int16 _ | .byte _ | .bool _ | .string _ =>
    adds_scalarField t key _
  | .vec2 _ _ | .vec3 _ _ _ | .vec4 _ _ _ _ => adds_tableField t key (adds_components _ 1 _)
  | .table entries => adds_tableField t key (adds_fields (t + 2) entries)

theorem adds_fields (t : Nat) : (entries : List (Key × Value)) →
    Adds (fields t entries) (fieldConstants entries)
  | [] => adds_pure ()
  | (key, v) :: rest => by
    have h := (adds_field t key v).bind fun _ ↦ adds_fields t rest
    rwa [List.append_assoc] at h

end

theorem adds_section (sec : Section) : Adds (compileSection sec) (sectionConstants sec) := by
  rw [compileSection, sectionConstants]
  split
  · exact adds_fields 0 _
  · have h := (adds_constant (.string sec.name)).bind fun i ↦ (adds_load 1 i).bind fun _ ↦
      (adds_newTable 2).bind fun _ ↦ (adds_fields 2 (propertyFields sec.properties)).bind fun _ ↦
        adds_emit (.abc .setTable 0 (if i ≤ maxOperandConstant then i + constantBase else 1) 2)
    rwa [List.append_nil] at h

theorem adds_sections (sections : List Section) :
    Adds (compileSections sections) (sections.flatMap sectionConstants) := by
  induction sections with
  | nil => exact adds_pure ()
  | cons sec sections ih => exact (adds_section sec).bind fun _ ↦ ih

theorem adds_tree (t : Tree) : Adds (compileTree t) (treeConstants t) := by
  have h := (adds_newTable 0).bind fun _ ↦ (adds_sections t.sections).bind fun _ ↦
    adds_emit (.abc .ret 0 2 0)
  rwa [List.append_nil] at h

end Compiler

variable {t : Tree} {c : Chunk}

theorem constants_of_compile (h : compile t = .ok c) :
    c.constants.toList = firstUses (treeConstants t) := by
  obtain ⟨u, s, hrun, rfl⟩ := chunk_of_compile h
  have hpool := (Compiler.adds_tree t {} u s hrun sound_empty).2
  rw [foldl_addUse] at hpool
  exact hpool.trans (List.filter_eq_self.mpr fun _ _ ↦ rfl)

section Operands

variable {pool : Array Constant} {ks : List Constant} {k : Constant} {key : Key} {r x y : Nat}

/-- An operand that names a register, or the place of one of the given constants. -/
def Refers (pool : Array Constant) (ks : List Constant) (x : Nat) : Prop :=
  constantBase ≤ x → ∃ k ∈ ks, x - constantBase = place pool k

/-- Code whose instructions name no constants but the given ones, each in its place. -/
def NamesOnly (pool : Array Constant) (ks : List Constant) (code : List Instruction) : Prop :=
  ∀ i ∈ code, ∀ n ∈ i.constants, ∃ k ∈ ks, n = place pool k

theorem refers_register (hr : r < constantBase) : Refers pool ks r :=
  fun hle ↦ absurd hr (Nat.not_lt.mpr hle)

theorem refers_named (hk : k ∈ ks) (hr : r < constantBase) :
    Refers pool ks (named (place pool k) r) := by
  rw [named]
  split
  · exact fun _ ↦ ⟨k, hk, Nat.add_sub_cancel _ _⟩
  · exact refers_register hr

theorem namesOnly_nil : NamesOnly pool ks [] := fun _ hi ↦ (List.not_mem_nil hi).elim

theorem NamesOnly.append {u v : List Instruction} (hu : NamesOnly pool ks u)
    (hv : NamesOnly pool ks v) : NamesOnly pool ks (u ++ v) :=
  List.forall_mem_append.mpr ⟨hu, hv⟩

theorem namesOnly_newTable (r : Nat) : NamesOnly pool ks [.newTable r 0 0] :=
  List.forall_mem_singleton.mpr fun _ hn ↦ (List.not_mem_nil hn).elim

theorem namesOnly_loadK (hk : k ∈ ks) (r : Nat) : NamesOnly pool ks [.loadK r (place pool k)] :=
  List.forall_mem_singleton.mpr (List.forall_mem_singleton.mpr ⟨k, hk, rfl⟩)

theorem namesOnly_setTable (hx : Refers pool ks x) (hy : Refers pool ks y) (t : Nat) :
    NamesOnly pool ks [.setTable t x y] := by
  refine List.forall_mem_singleton.mpr fun n hn ↦ ?_
  obtain ⟨z, hz, rfl⟩ := List.mem_map.mp hn
  obtain ⟨hz, hle⟩ := List.mem_filter.mp hz
  have hle := of_decide_eq_true hle
  rcases List.mem_cons.mp hz with rfl | hz
  · exact hx hle
  · obtain rfl := List.mem_singleton.mp hz
    exact hy hle

theorem namesOnly_loading (hk : k ∈ ks) (r : Nat) :
    NamesOnly pool ks (loading (place pool k) r) := by
  rw [loading]
  split
  · exact namesOnly_nil
  · exact namesOnly_loadK hk r

theorem namesOnly_settingCode {t : Nat} (hkey : keyConstant key ∈ ks) (hx : Refers pool ks x)
    (ht : t + 1 < constantBase) : NamesOnly pool ks (settingCode pool t key x) :=
  (namesOnly_loading hkey _).append (namesOnly_setTable (refers_named hkey ht) hx t)

theorem namesOnly_scalarCode {t : Nat} (hk : k ∈ ks) (hkey : keyConstant key ∈ ks)
    (ht : t + 2 < constantBase) : NamesOnly pool ks (scalarCode pool t key k) :=
  (namesOnly_loading hk _).append
    (namesOnly_settingCode hkey (refers_named hk ht) (Nat.lt_of_succ_lt ht))

theorem namesOnly_itemsCode {t : Nat} {first : Int64} {xs : List Single}
    (hall : ∀ k ∈ itemConstants first xs, k ∈ ks) (ht : t + 2 < constantBase) :
    NamesOnly pool ks (itemsCode pool t first xs) := by
  induction xs generalizing first with
  | nil => exact namesOnly_nil
  | cons x xs ih =>
    rw [itemConstants, List.forall_mem_cons, List.forall_mem_cons] at hall
    exact (namesOnly_scalarCode hall.1 hall.2.1 ht).append (ih hall.2.2)

theorem namesOnly_tableCode {t : Nat} {fill : List Instruction} (hfill : NamesOnly pool ks fill)
    (hkey : keyConstant key ∈ ks) (ht : t + 2 < constantBase) :
    NamesOnly pool ks (tableCode pool t key fill) :=
  ((namesOnly_newTable _).append hfill).append
    (namesOnly_settingCode hkey (refers_register ht) (Nat.lt_of_succ_lt ht))

theorem namesOnly_vectorCode {t : Nat} {xs : List Single}
    (hall : ∀ k ∈ itemConstants 1 xs, k ∈ ks) (hkey : keyConstant key ∈ ks)
    (ht : t + 4 < constantBase) :
    NamesOnly pool ks (tableCode pool t key (itemsCode pool (t + 2) 1 xs)) :=
  namesOnly_tableCode (namesOnly_itemsCode hall ht) hkey (by omega)

mutual

/-- Registers do not reach the operands that name constants, so no scratch register is taken for
one. -/
theorem namesOnly_fieldCode (t : Nat) {key : Key} : (v : Value) →
    (∀ k ∈ valueConstants v, k ∈ ks) → keyConstant key ∈ ks →
    t + 2 * v.levels + 2 < constantBase → NamesOnly pool ks (fieldCode pool t key v)
  | .int32 _, hall, hkey, ht | .float _, hall, hkey, ht | .scaled _, hall, hkey, ht
  | .int16 _, hall, hkey, ht | .byte _, hall, hkey, ht | .bool _, hall, hkey, ht
  | .string _, hall, hkey, ht =>
    namesOnly_scalarCode (List.forall_mem_singleton.mp hall) hkey ht
  | .vec2 _ _, hall, hkey, ht | .vec3 _ _ _, hall, hkey, ht
  | .vec4 _ _ _ _, hall, hkey, ht => namesOnly_vectorCode hall hkey ht
  | .table entries, hall, hkey, ht => by
    rw [Value.levels] at ht
    refine namesOnly_tableCode (namesOnly_fieldsCode (t + 2) entries hall fun e he ↦ ?_) hkey
      (by omega)
    have hlevels := entryLevels_le_iff.mp (Nat.le_refl _) e he
    omega

theorem namesOnly_fieldsCode (t : Nat) : (entries : List (Key × Value)) →
    (∀ k ∈ fieldConstants entries, k ∈ ks) →
    (∀ e ∈ entries, t + 2 * e.2.levels + 2 < constantBase) →
    NamesOnly pool ks (fieldsCode pool t entries)
  | [], _, _ => namesOnly_nil
  | (key, v) :: rest, hall, ht => by
    rw [fieldConstants, List.forall_mem_append, List.forall_mem_cons] at hall
    rw [List.forall_mem_cons] at ht
    exact (namesOnly_fieldCode t v hall.1 hall.2.1 ht.1).append
      (namesOnly_fieldsCode t rest hall.2.2 ht.2)

end

theorem namesOnly_sectionCode {sec : Section} (hall : ∀ k ∈ sectionConstants sec, k ∈ ks)
    (hlevels : ∀ p ∈ sec.properties, sec.register + 2 * p.value.levels < registerLimit) :
    NamesOnly pool ks (sectionCode pool sec) := by
  have hfields : ∀ e ∈ Compiler.propertyFields sec.properties,
      sec.register + 2 * e.2.levels + 2 < constantBase := by
    refine List.forall_mem_map.mpr fun p hp ↦ ?_
    have hp : sec.register + 2 * p.value.levels < 250 := hlevels p hp
    show sec.register + 2 * p.value.levels + 2 < 256
    omega
  rw [sectionConstants] at hall
  rw [Section.register] at hfields
  rw [sectionCode]
  split
  · next hroot =>
    rw [if_pos hroot] at hall hfields
    exact namesOnly_fieldsCode 0 _ hall hfields
  · next hroot =>
    rw [if_neg hroot, List.forall_mem_cons] at hall
    rw [if_neg hroot] at hfields
    exact (((namesOnly_loadK hall.1 1).append (namesOnly_newTable 2)).append
      (namesOnly_fieldsCode 2 _ hall.2 hfields)).append
        (namesOnly_setTable (refers_named hall.1 (by decide)) (refers_register (by decide)) 0)

theorem namesOnly_treeCode {t : Tree} (hlevels : ∀ sec ∈ t.sections, ∀ p ∈ sec.properties,
    sec.register + 2 * p.value.levels < registerLimit) :
    NamesOnly pool (treeConstants t) (treeCode pool t) := by
  refine ((namesOnly_newTable 0).append fun i hi ↦ ?_).append
    (List.forall_mem_singleton.mpr fun _ hn ↦ (List.not_mem_nil hn).elim)
  obtain ⟨sec, hsec, hi⟩ := List.mem_flatMap.mp hi
  exact namesOnly_sectionCode (fun k hk ↦ List.mem_flatMap_of_mem hsec hk) (hlevels sec hsec) i hi

end Operands

/-- What the pool of a tree's code holds, and how its code refers to it. Constants are told apart by
their slots, in which both zeros are one. -/
structure Pooled (t : Tree) (c : Chunk) : Prop where
  constants_eq : c.constants.toList = firstUses (treeConstants t)
  distinct : (c.constants.toList.map Constant.slot).Nodup
  decoded : c.code.map Instruction.ofWord? = (treeCode c.constants t).map some
  names : NamesOnly c.constants (treeConstants t) (treeCode c.constants t)
  placed : ∀ k ∈ treeConstants t,
    ∃ k', c.constants[place c.constants k]? = some k' ∧ k'.slot = k.slot

theorem place_spec {pool : Array Constant} {k : Constant}
    (h : ∃ k' ∈ pool.toList, k'.slot = k.slot) :
    ∃ k', pool[place pool k]? = some k' ∧ k'.slot = k.slot := by
  obtain ⟨k₁, hk₁, hslot⟩ := h
  have hlt : place pool k < pool.size :=
    Array.findIdx_lt_size_of_exists ⟨k₁, Array.mem_toList_iff.mp hk₁, decide_eq_true hslot⟩
  exact ⟨_, Array.getElem?_eq_getElem hlt, of_decide_eq_true (Array.findIdx_getElem (w := hlt))⟩

theorem compile_pooled (t : Tree) (c : Chunk) (h : compile t = .ok c) : Pooled t c := by
  have hpool := constants_of_compile h
  obtain ⟨top, body, htop, -, hlisting, hcode, hbuilds⟩ := compile_listed h
  refine ⟨hpool, hpool ▸ nodup_firstUses _, ?_, ?_, fun k hk ↦ ?_⟩
  · have hbody : (body.map Instruction.word).map Instruction.ofWord? = body.map some := by
      rw [List.map_map]
      exact List.map_congr_left fun i hi ↦ (hbuilds i hi).ofWord?_word htop
    have hret : Instruction.ofWord? (.abc .ret 0 2 0) = some (.ret 0 2 0) := by decide
    rw [hcode, hlisting, List.map_append, List.map_append, hbody, List.map_singleton,
      List.map_singleton, hret]
  · obtain ⟨u, s, hrun, -⟩ := chunk_of_compile h
    exact namesOnly_treeCode (Compiler.nests_tree hrun)
  · refine place_spec ?_
    rw [hpool]
    exact slot_mem_firstUses hk

theorem nestedChunk_pooled : compile nestedTree = .ok nestedChunk ∧
    Pooled nestedTree nestedChunk :=
  ⟨compile_nestedTree, compile_pooled nestedTree nestedChunk compile_nestedTree⟩

end PropertyFile.Bytecode
