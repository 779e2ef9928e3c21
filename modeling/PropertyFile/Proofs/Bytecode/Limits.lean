import Mathlib.Data.Finset.Card
import Mathlib.Data.Finset.Dedup
import PropertyFile.Proofs.Bytecode.Building

namespace PropertyFile

open Number Bytecode

mutual

/-- How many tables nest in the code of a value: none for a scalar, one for a vector. -/
def Value.levels : Value → Nat
  | .vec2 .. | .vec3 .. | .vec4 .. => 1
  | .table entries => entryLevels entries + 1
  | _ => 0

def entryLevels : List (Key × Value) → Nat
  | [] => 0
  | (_, v) :: rest => max v.levels (entryLevels rest)

end

theorem entryLevels_le_iff {entries : List (Key × Value)} {n : Nat} :
    entryLevels entries ≤ n ↔ ∀ e ∈ entries, e.2.levels ≤ n := by
  induction entries with
  | nil => simp only [entryLevels, Nat.zero_le, List.not_mem_nil, false_implies, implies_true]
  | cons e entries ih => rw [entryLevels, Nat.max_le, ih, List.forall_mem_cons]

def Section.register (s : Section) : Nat := if isRootSection s.name then 0 else 2

namespace Bytecode

def itemConstants : (first : Int64) → List Single → List Constant
  | _, [] => []
  | i, x :: xs => .number x.widen :: keyConstant (.index i) :: itemConstants (i + 1) xs

mutual

def valueConstants : Value → List Constant
  | .int32 n => [.number (.ofInt n.toInt)]
  | .float x => [.number x.widen]
  | .scaled x => [.number x.widen]
  | .int16 n => [.number (.ofInt n.toInt)]
  | .byte n => [.number (.ofInt n.toNat)]
  | .bool b => [.bool b]
  | .string s => [.string s]
  | .vec2 x y => itemConstants 1 [x, y]
  | .vec3 x y z => itemConstants 1 [x, y, z]
  | .vec4 x y z w => itemConstants 1 [x, y, z, w]
  | .table entries => fieldConstants entries

/-- A key is named after the value that is assigned to it. -/
def fieldConstants : List (Key × Value) → List Constant
  | [] => []
  | (key, v) :: rest => valueConstants v ++ keyConstant key :: fieldConstants rest

end

def sectionConstants (s : Section) : List Constant :=
  let fields := fieldConstants (Compiler.propertyFields s.properties)
  if isRootSection s.name then fields else .string s.name :: fields

def treeConstants (t : Tree) : List Constant := t.sections.flatMap sectionConstants

def slotCount (all : List Constant) : Nat := (all.map Constant.slot).toFinset.card

theorem slotCount_le_length (all : List Constant) : slotCount all ≤ all.length := by
  refine (List.toFinset_card_le _).trans ?_
  rw [List.length_map]

/-- A pool of constants that are among the given ones, one in each slot. -/
structure Build.Drawn (all : List Constant) (s : Build) : Prop where
  sound : s.Sound
  distinct : (s.constants.toList.map Constant.slot).Nodup
  among : ∀ k ∈ s.constants.toList, k.slot ∈ all.map Constant.slot

theorem drawn_empty (all : List Constant) : Build.Drawn all {} where
  sound := sound_empty
  distinct := List.nodup_nil
  among _ h := (List.not_mem_nil h).elim

variable {all : List Constant} {s : Build}

theorem Build.Drawn.size_le (h : s.Drawn all) : s.constants.size ≤ slotCount all := by
  rw [← Array.length_toList, ← List.length_map (f := Constant.slot),
    ← List.toFinset_card_of_nodup h.distinct]
  refine Finset.card_le_card fun k hk ↦ ?_
  obtain ⟨k', hk', rfl⟩ := List.mem_map.mp (List.mem_toFinset.mp hk)
  exact List.mem_toFinset.mpr (h.among k' hk')

theorem Build.Drawn.push (h : s.Drawn all) {k : Constant} (hk : k ∈ all)
    (hnew : s.index[k.slot]? = none) : Build.Drawn all { s with
      constants := s.constants.push k, index := s.index.insert k.slot s.constants.size } where
  sound := (Compiler.grown_insert hnew).sound h.sound
  distinct := by
    rw [h.sound.index_eq, Array.findIdx?_eq_none_iff] at hnew
    rw [Array.toList_push, List.map_append, List.map_singleton, ← List.concat_eq_append]
    refine List.Nodup.concat (fun hmem ↦ ?_) h.distinct
    obtain ⟨k', hk', hslot⟩ := List.mem_map.mp hmem
    exact of_decide_eq_false (hnew k' (Array.mem_toList_iff.mp hk')) hslot
  among k' hk' := by
    rw [Array.toList_push, List.mem_append, List.mem_singleton] at hk'
    rcases hk' with hk' | rfl
    · exact h.among k' hk'
    · exact List.mem_map_of_mem hk

/-- The two failures: a register too high, which has a reason, or a pool that is larger than an
operand can tell. -/
def Excused (all : List Constant) (deep : Prop) (e : CompileError) : Prop :=
  e = .tableTooDeep ∧ deep ∨ ∃ n, e = .poolOverflow n ∧ maxBx + 1 < n ∧ n ≤ slotCount all

def Outcome {α : Type} (all : List Constant) (deep : Prop) (good : α → Build → Prop) :
    Except CompileError (α × Build) → Prop
  | .ok (a, s) => s.Drawn all ∧ good a s
  | .error e => Excused all deep e

namespace Compiler

variable {α β : Type} {deep : Prop} {good : α → Build → Prop} {good' : β → Build → Prop}
  {t r i : Nat}

theorem outcome_bind {x : Compiler α} {f : α → Compiler β} (hx : Outcome all deep good (x s))
    (hf : ∀ a s', s'.Drawn all → good a s' → Outcome all deep good' (f a s')) :
    Outcome all deep good' ((x >>= f) s) := by
  simp only [bind, StateT.bind, Except.bind]
  cases hrun : x s with
  | error e =>
    rw [hrun] at hx
    exact hx
  | ok r =>
    rw [hrun] at hx
    exact hf r.1 r.2 hx.1 hx.2

/-- A compiler that draws its constants from the given ones, and has an excuse when it fails. -/
def Draws (all : List Constant) (deep : Prop) (x : Compiler Unit) : Prop :=
  ∀ s, s.Drawn all → Outcome all deep (fun _ _ ↦ True) (x s)

theorem draws_pure : Draws all deep (pure ()) := fun _ hs ↦ ⟨hs, trivial⟩

theorem Draws.bind {x y : Compiler Unit} (hx : Draws all deep x) (hy : Draws all deep y) :
    Draws all deep (x >>= fun _ ↦ y) :=
  fun s hs ↦ outcome_bind (hx s hs) fun _ s' hs' _ ↦ hy s' hs'

theorem draws_emit (w : Word) : Draws all deep (emit w) := by
  intro s hs
  rw [emit_apply]
  exact ⟨⟨⟨hs.sound.index_eq, hs.sound.maxRegister_lt⟩, hs.distinct, hs.among⟩, trivial⟩

theorem draws_touch (hr : registerLimit ≤ r → deep) : Draws all deep (touch r) := by
  intro s hs
  rw [touch_apply]
  split
  · next hle => exact .inl ⟨rfl, hr hle⟩
  · next hlt =>
    have hmax : max s.maxRegister r < registerLimit :=
      Nat.max_lt.mpr ⟨hs.sound.maxRegister_lt, Nat.not_le.mp hlt⟩
    exact ⟨⟨⟨hs.sound.index_eq, hmax⟩, hs.distinct, hs.among⟩, trivial⟩

theorem draws_newTable (hr : registerLimit ≤ r → deep) : Draws all deep (newTable r) :=
  (draws_touch hr).bind (draws_emit _)

theorem outcome_constant {k : Constant} (hk : k ∈ all) (hs : s.Drawn all) :
    Outcome all deep (fun i s' ↦ i < s'.constants.size) (constant k s) := by
  rw [constant_apply]
  cases hi : s.index[k.slot]? with
  | some i =>
    refine ⟨hs, ?_⟩
    rw [hs.sound.index_eq] at hi
    exact (Array.findIdx?_eq_some_iff_getElem.mp hi).1
  | none =>
    refine ⟨hs.push hk hi, ?_⟩
    show s.constants.size < (s.constants.push k).size
    rw [Array.size_push]
    exact Nat.lt_succ_self _

theorem outcome_load (hr : registerLimit ≤ r → deep) (hs : s.Drawn all)
    (hi : i < s.constants.size) : Outcome all deep (fun _ _ ↦ True) (load r i s) := by
  rw [load]
  split
  · next hbx =>
    refine .inr ⟨s.constants.size, rfl, ?_, hs.size_le⟩
    omega
  · exact (draws_touch hr).bind (draws_emit _) s hs

theorem outcome_constantOperand (hr : registerLimit ≤ r → deep) (hs : s.Drawn all)
    (hi : i < s.constants.size) :
    Outcome all deep (fun _ _ ↦ True) (constantOperand i r s) := by
  rw [constantOperand]
  split
  · exact ⟨hs, trivial⟩
  · exact outcome_bind (outcome_load hr hs hi) fun _ _ hs' _ ↦ ⟨hs', trivial⟩

theorem draws_assign {key : Key} (hkey : keyConstant key ∈ all)
    (hr : registerLimit ≤ t + 1 → deep) (x : Nat) : Draws all deep (assign t key x) :=
  fun _ hs ↦ outcome_bind (outcome_constant hkey hs) fun _ _ hs' hi ↦
    outcome_bind (outcome_constantOperand hr hs' hi) fun _ _ hs'' _ ↦ draws_emit _ _ hs''

theorem draws_scalarField {key : Key} {k : Constant} (hk : k ∈ all) (hkey : keyConstant key ∈ all)
    (hr : registerLimit ≤ t + 2 → deep) : Draws all deep (scalarField t key k) :=
  fun _ hs ↦ outcome_bind (outcome_constant hk hs) fun _ _ hs' hi ↦
    outcome_bind (outcome_constantOperand hr hs' hi) fun _ _ hs'' _ ↦
      draws_assign hkey (fun h ↦ hr (by omega)) _ _ hs''

theorem draws_components {first : Int64} {xs : List Single}
    (hall : ∀ k ∈ itemConstants first xs, k ∈ all) (hr : registerLimit ≤ t + 2 → deep) :
    Draws all deep (components t first xs) := by
  induction xs generalizing first with
  | nil => exact draws_pure
  | cons x xs ih =>
    rw [itemConstants, List.forall_mem_cons, List.forall_mem_cons] at hall
    exact (draws_scalarField hall.1 hall.2.1 hr).bind (ih hall.2.2)

theorem draws_tableField {key : Key} {fill : Compiler Unit} (hfill : Draws all deep fill)
    (hkey : keyConstant key ∈ all) (hr : registerLimit ≤ t + 2 → deep) :
    Draws all deep (tableField t key fill) :=
  (draws_newTable hr).bind (hfill.bind (draws_assign hkey (fun h ↦ hr (by omega)) _))

theorem draws_vector {key : Key} {xs : List Single} (hall : ∀ k ∈ itemConstants 1 xs, k ∈ all)
    (hkey : keyConstant key ∈ all) (hr : registerLimit ≤ t + 4 → deep) :
    Draws all deep (tableField t key (components (t + 2) 1 xs)) :=
  draws_tableField (draws_components hall hr) hkey fun h ↦ hr (by omega)

mutual

/-- The scratch registers of the innermost table are the highest that a field needs. -/
theorem draws_field (t : Nat) {key : Key} : (v : Value) →
    (∀ k ∈ valueConstants v, k ∈ all) → keyConstant key ∈ all →
    (registerLimit ≤ t + 2 * v.levels + 2 → deep) → Draws all deep (field t key v)
  | .int32 _, hall, hkey, hr | .float _, hall, hkey, hr | .scaled _, hall, hkey, hr
  | .int16 _, hall, hkey, hr | .byte _, hall, hkey, hr | .bool _, hall, hkey, hr
  | .string _, hall, hkey, hr => draws_scalarField (List.forall_mem_singleton.mp hall) hkey hr
  | .vec2 _ _, hall, hkey, hr | .vec3 _ _ _, hall, hkey, hr
  | .vec4 _ _ _ _, hall, hkey, hr => draws_vector hall hkey hr
  | .table entries, hall, hkey, hr => by
    rw [Value.levels] at hr
    refine draws_tableField (draws_fields (t + 2) entries hall fun e he hle ↦ hr ?_) hkey
      fun hle ↦ hr (by omega)
    have hlevels := entryLevels_le_iff.mp (Nat.le_refl _) e he
    omega

theorem draws_fields (t : Nat) : (entries : List (Key × Value)) →
    (∀ k ∈ fieldConstants entries, k ∈ all) →
    (∀ e ∈ entries, registerLimit ≤ t + 2 * e.2.levels + 2 → deep) →
    Draws all deep (fields t entries)
  | [], _, _ => draws_pure
  | (key, v) :: rest, hall, hr => by
    rw [fieldConstants, List.forall_mem_append, List.forall_mem_cons] at hall
    rw [List.forall_mem_cons] at hr
    exact (draws_field t v hall.1 hall.2.1 hr.1).bind (draws_fields t rest hall.2.2 hr.2)

end

theorem draws_section {sec : Section} (hall : ∀ k ∈ sectionConstants sec, k ∈ all)
    (hdeep : ∀ p ∈ sec.properties,
      registerLimit ≤ sec.register + 2 * p.value.levels + 2 → deep) :
    Draws all deep (compileSection sec) := by
  have hfields : ∀ e ∈ propertyFields sec.properties,
      registerLimit ≤ sec.register + 2 * e.2.levels + 2 → deep := List.forall_mem_map.mpr hdeep
  rw [sectionConstants] at hall
  rw [Section.register] at hfields
  by_cases hroot : isRootSection sec.name = true
  · rw [if_pos hroot] at hall hfields
    rw [compileSection, if_pos hroot]
    exact draws_fields 0 _ hall hfields
  · rw [if_neg hroot, List.forall_mem_cons] at hall
    rw [if_neg hroot] at hfields
    rw [compileSection, if_neg hroot]
    have hlow : ∀ r, r ≤ 2 → registerLimit ≤ r → deep := fun r hr hle ↦ by
      rw [registerLimit] at hle
      omega
    exact fun s hs ↦ outcome_bind (outcome_constant hall.1 hs) fun _ _ hs' hi ↦
      outcome_bind (outcome_load (hlow 1 (by omega)) hs' hi) fun _ s'' hs'' _ ↦
        (draws_newTable (hlow 2 (Nat.le_refl 2))).bind
          ((draws_fields 2 _ hall.2 hfields).bind (draws_emit _)) s'' hs''

theorem draws_sections {sections : List Section}
    (hall : ∀ k ∈ sections.flatMap sectionConstants, k ∈ all)
    (hdeep : ∀ sec ∈ sections, ∀ p ∈ sec.properties,
      registerLimit ≤ sec.register + 2 * p.value.levels + 2 → deep) :
    Draws all deep (compileSections sections) := by
  induction sections with
  | nil => exact draws_pure
  | cons sec sections ih =>
    rw [List.flatMap_cons, List.forall_mem_append] at hall
    rw [List.forall_mem_cons] at hdeep
    exact (draws_section hall.1 hdeep.1).bind (ih hall.2 hdeep.2)

theorem draws_tree (t : Tree) : Draws (treeConstants t)
    (∃ sec ∈ t.sections, ∃ p ∈ sec.properties,
      registerLimit ≤ sec.register + 2 * p.value.levels + 2) (compileTree t) :=
  (draws_newTable fun h ↦ absurd h (by decide)).bind
    ((draws_sections (fun _ hk ↦ hk) fun sec hsec p hp hle ↦ ⟨sec, hsec, p, hp, hle⟩).bind
      (draws_emit _))

def Nests (t n : Nat) (x : Compiler Unit) : Prop :=
  ∀ s s' u, x s = .ok (u, s') → t < registerLimit → t + 2 * n < registerLimit

theorem nests_zero (t : Nat) (x : Compiler Unit) : Nests t 0 x := fun _ _ _ _ ht ↦ ht

theorem Nests.bind {m n : Nat} {x y : Compiler Unit} (hx : Nests t m x) (hy : Nests t n y) :
    Nests t (max m n) (x >>= fun _ ↦ y) := by
  intro s s' u h ht
  obtain ⟨_, s₁, hrun, hrun'⟩ := bind_ok.mp h
  have hm := hx s s₁ _ hrun ht
  have hn := hy s₁ s' _ hrun' ht
  omega

theorem nests_tableField {n : Nat} {key : Key} {fill : Compiler Unit}
    (hfill : Nests (t + 2) n fill) : Nests t (n + 1) (tableField t key fill) := by
  intro s s' u h _
  obtain ⟨_, s₁, hnew, h⟩ := bind_ok.mp h
  obtain ⟨_, s₂, hrun, -⟩ := bind_ok.mp h
  have hn := hfill s₁ s₂ _ hrun (newTable_ok hnew).1
  omega

mutual

theorem nests_field (t : Nat) {key : Key} : (v : Value) → Nests t v.levels (field t key v)
  | .int32 _ | .float _ | .scaled _ | .int16 _ | .byte _ | .bool _ | .string _ => nests_zero t _
  | .vec2 _ _ | .vec3 _ _ _ | .vec4 _ _ _ _ => nests_tableField (nests_zero _ _)
  | .table entries => nests_tableField (nests_fields (t + 2) entries)

theorem nests_fields (t : Nat) : (entries : List (Key × Value)) →
    Nests t (entryLevels entries) (fields t entries)
  | [] => nests_zero t _
  | (_, v) :: rest => (nests_field t v).bind (nests_fields t rest)

end

theorem nests_properties {ps : List Property} {u : Unit} {s' : Build}
    (h : fields t (propertyFields ps) s = .ok (u, s')) (ht : t < registerLimit) :
    ∀ p ∈ ps, t + 2 * p.value.levels < registerLimit := by
  intro p hp
  have hreach := nests_fields t (propertyFields ps) s s' u h ht
  have hmem := List.mem_map_of_mem (f := fun p : Property ↦ (Key.ofText p.displayName, p.value)) hp
  have hlevels : p.value.levels ≤ entryLevels (propertyFields ps) :=
    entryLevels_le_iff.mp (Nat.le_refl _) _ hmem
  omega

theorem nests_section {sec : Section} {u : Unit} {s' : Build}
    (h : compileSection sec s = .ok (u, s')) :
    ∀ p ∈ sec.properties, sec.register + 2 * p.value.levels < registerLimit := by
  rw [compileSection] at h
  rw [Section.register]
  split at h
  · next hroot =>
    rw [if_pos hroot]
    exact nests_properties h (by decide)
  · next hroot =>
    obtain ⟨i, s₁, -, h⟩ := bind_ok.mp h
    obtain ⟨_, s₂, -, h⟩ := bind_ok.mp h
    obtain ⟨_, s₃, -, h⟩ := bind_ok.mp h
    obtain ⟨_, s₄, hfields, -⟩ := bind_ok.mp h
    rw [if_neg hroot]
    exact nests_properties hfields (by decide)

theorem nests_sections {sections : List Section} {u : Unit} {s' : Build}
    (h : compileSections sections s = .ok (u, s')) : ∀ sec ∈ sections, ∀ p ∈ sec.properties,
      sec.register + 2 * p.value.levels < registerLimit := by
  induction sections generalizing s with
  | nil => exact fun _ hsec ↦ (List.not_mem_nil hsec).elim
  | cons sec sections ih =>
    obtain ⟨_, s₁, hrun, hrest⟩ := bind_ok.mp h
    exact List.forall_mem_cons.mpr ⟨nests_section hrun, ih hrest⟩

theorem nests_tree {t : Tree} {u : Unit} {s' : Build} (h : compileTree t s = .ok (u, s')) :
    ∀ sec ∈ t.sections, ∀ p ∈ sec.properties,
      sec.register + 2 * p.value.levels < registerLimit := by
  obtain ⟨_, s₁, -, h⟩ := bind_ok.mp h
  obtain ⟨_, s₂, hsections, -⟩ := bind_ok.mp h
  exact nests_sections hsections

end Compiler

variable {t : Tree} {e : CompileError}

theorem compile_eq_error_iff : compile t = .error e ↔ Compiler.compileTree t {} = .error e := by
  rw [compile, StateT.run]
  cases Compiler.compileTree t {} <;> simp [Functor.map, Except.map]

theorem excused_of_compile (h : compile t = .error e) : Excused (treeConstants t)
    (∃ s ∈ t.sections, ∃ p ∈ s.properties,
      (if isRootSection s.name then 124 else 123) ≤ p.value.levels) e := by
  have houtcome := Compiler.draws_tree t {} (drawn_empty _)
  rw [compile_eq_error_iff.mp h] at houtcome
  refine houtcome.imp_left (And.imp_right ?_)
  rintro ⟨s, hs, p, hp, hle⟩
  refine ⟨s, hs, p, hp, ?_⟩
  rw [registerLimit, Section.register] at hle
  by_cases hroot : isRootSection s.name = true
  · rw [if_pos hroot] at hle ⊢
    omega
  · rw [if_neg hroot] at hle ⊢
    omega

theorem not_compile_of_deep (h : ∃ s ∈ t.sections, ∃ p ∈ s.properties,
    (if isRootSection s.name then 125 else 124) ≤ p.value.levels) : ∃ e, compile t = .error e := by
  cases hrun : Compiler.compileTree t {} with
  | error e => exact ⟨e, compile_eq_error_iff.mpr hrun⟩
  | ok r =>
    obtain ⟨s, hs, p, hp, hle⟩ := h
    have hlt := Compiler.nests_tree hrun s hs p hp
    rw [registerLimit, Section.register] at hlt
    by_cases hroot : isRootSection s.name = true
    · rw [if_pos hroot] at hle hlt
      omega
    · rw [if_neg hroot] at hle hlt
      omega

/-- A tree whose constants an operand can tell is compiled if no value nests tables more than 122
levels deep. It is refused as too deep if one nests 124 levels in a section of its own, or 125 in
one that goes into the root. Every failure is of these two kinds, and neither comes without a
cause. -/
theorem compile_within_limits (t : Tree) :
    (slotCount (treeConstants t) ≤ 262144 →
      ((∀ s ∈ t.sections, ∀ p ∈ s.properties, p.value.levels ≤ 122) → ∃ c, compile t = .ok c) ∧
      ((∃ s ∈ t.sections, ∃ p ∈ s.properties,
        (if isRootSection s.name then 125 else 124) ≤ p.value.levels) →
          compile t = .error .tableTooDeep)) ∧
    ∀ e, compile t = .error e →
      (e = .tableTooDeep ∧ ∃ s ∈ t.sections, ∃ p ∈ s.properties,
        (if isRootSection s.name then 124 else 123) ≤ p.value.levels) ∨
      ∃ n, e = .poolOverflow n ∧ 262144 < n ∧ n ≤ slotCount (treeConstants t) := by
  refine ⟨fun hpool ↦ ⟨fun hlevels ↦ ?_, fun hdeep ↦ ?_⟩, fun e h ↦ excused_of_compile h⟩
  · cases h : compile t with
    | ok c => exact ⟨c, rfl⟩
    | error e =>
      obtain ⟨-, s, hs, p, hp, hle⟩ | ⟨n, -, hlt, hle⟩ := excused_of_compile h
      · have hlevel := hlevels s hs p hp
        split at hle <;> omega
      · rw [maxBx] at hlt
        omega
  · obtain ⟨e, h⟩ := not_compile_of_deep hdeep
    obtain ⟨rfl, -⟩ | ⟨n, -, hlt, hle⟩ := excused_of_compile h
    · exact h
    · rw [maxBx] at hlt
      omega

def ladder : Nat → Value
  | 0 => .bool true
  | n + 1 => .table [(.name "a", ladder n)]

def ladderTree (n : Nat) : Tree := ⟨2, [⟨0, "S", [⟨1, some "k", ladder n, .table⟩]⟩]⟩

theorem levels_ladder (n : Nat) : (ladder n).levels = n := by
  induction n with
  | zero => rfl
  | succ n ih =>
    rw [ladder, Value.levels, entryLevels, entryLevels, ih, Nat.max_zero]

theorem length_ladderConstants (n : Nat) : (valueConstants (ladder n)).length = n + 1 := by
  induction n with
  | zero => rfl
  | succ n ih =>
    rw [ladder, valueConstants, fieldConstants, fieldConstants, List.length_append, ih,
      List.length_singleton]

theorem slotCount_ladderTree (n : Nat) : slotCount (treeConstants (ladderTree n)) ≤ n + 3 := by
  have hown : isRootSection "S" = false := by decide
  refine (slotCount_le_length _).trans ?_
  simp only [ladderTree, treeConstants, sectionConstants, Compiler.propertyFields, fieldConstants,
    hown, Bool.false_eq_true, if_false, List.flatMap_singleton, List.map_singleton,
    List.length_cons, List.length_append, length_ladderConstants, List.length_nil]
  omega

theorem ladderTree_limits : slotCount (treeConstants (ladderTree 122)) ≤ 262144 ∧
    slotCount (treeConstants (ladderTree 124)) ≤ 262144 ∧
    (∃ c, compile (ladderTree 122) = .ok c) ∧
    compile (ladderTree 124) = .error .tableTooDeep := by
  have hown : isRootSection "S" = false := by decide
  have hpool : ∀ n, n ≤ 124 → slotCount (treeConstants (ladderTree n)) ≤ 262144 := fun n hn ↦
    (slotCount_ladderTree n).trans (by omega)
  refine ⟨hpool 122 (by omega), hpool 124 (by omega),
    ((compile_within_limits _).1 (hpool 122 (by omega))).1 fun s hs p hp ↦ ?_,
    ((compile_within_limits _).1 (hpool 124 (by omega))).2
      ⟨_, List.mem_singleton_self _, _, List.mem_singleton_self _, ?_⟩⟩
  · obtain rfl := List.mem_singleton.mp hs
    obtain rfl := List.mem_singleton.mp hp
    exact (levels_ladder 122).le
  · rw [hown, levels_ladder]
    decide

end Bytecode

end PropertyFile
