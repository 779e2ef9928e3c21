import PropertyFile.Bytecode.Compile

namespace PropertyFile.Bytecode

def Build.Filed (s : Build) : Prop :=
  ∀ (k : Constant) (i : Nat), s.index[k]? = some i →
    ∃ k' : Constant, s.constants[i]? = some k' ∧ k'.slot = k

/-- The index knows the first place of each slot in the pool, and the registers that were used are
allowed. -/
structure Build.Sound (s : Build) : Prop where
  index_eq : ∀ k : Constant, s.index[k]? = s.constants.findIdx? (·.slot = k)
  maxRegister_lt : s.maxRegister < registerLimit

/-- One state of the compiler follows another by the given words. -/
structure Grown (s s' : Build) (words : List Word) : Prop where
  code_eq : s'.code.toList = s.code.toList ++ words
  constants_eq : ∀ (i : Nat) (k : Constant), s.constants[i]? = some k → s'.constants[i]? = some k
  filed : s.Filed → s'.Filed
  sound : s.Sound → s'.Sound
  maxRegister_le : s.maxRegister ≤ s'.maxRegister

variable {s s' s'' : Build}

theorem Grown.refl (s : Build) : Grown s s [] :=
  ⟨(List.append_nil _).symm, fun _ _ h ↦ h, fun h ↦ h, fun h ↦ h, Nat.le_refl _⟩

theorem Grown.trans {u v : List Word} (h : Grown s s' u) (h' : Grown s' s'' v) :
    Grown s s'' (u ++ v) where
  code_eq := by rw [h'.code_eq, h.code_eq, List.append_assoc]
  constants_eq i k hk := h'.constants_eq i k (h.constants_eq i k hk)
  filed hs := h'.filed (h.filed hs)
  sound hs := h'.sound (h.sound hs)
  maxRegister_le := Nat.le_trans h.maxRegister_le h'.maxRegister_le

theorem filed_empty : Build.Filed {} := by
  intro k i h
  rw [Std.HashMap.getElem?_empty] at h
  cases h

theorem sound_empty : Build.Sound {} where
  index_eq _ := by rw [Std.HashMap.getElem?_empty, Array.findIdx?_empty]
  maxRegister_lt := by decide

namespace Compiler

variable {α β : Type}

theorem bind_ok {x : Compiler α} {f : α → Compiler β} {b : β} :
    (x >>= f) s = .ok (b, s'') ↔ ∃ a s', x s = .ok (a, s') ∧ f a s' = .ok (b, s'') := by
  simp only [bind, StateT.bind, Except.bind]
  constructor
  · intro h
    cases hx : x s with
    | error e =>
      rw [hx] at h
      cases h
    | ok r =>
      rw [hx] at h
      exact ⟨r.1, r.2, rfl, h⟩
  · rintro ⟨a, s', hx, h⟩
    rw [hx]
    exact h

theorem pure_apply (a : α) (s : Build) : (pure a : Compiler α) s = .ok (a, s) := rfl

theorem pure_ok {a b : α} : (pure a : Compiler α) s = .ok (b, s') ↔ b = a ∧ s' = s := by
  simp only [pure_apply, Except.ok.injEq, Prod.mk.injEq, eq_comm]

theorem emit_apply (w : Word) (s : Build) :
    emit w s = .ok ((), { s with code := s.code.push w }) :=
  rfl

theorem touch_apply (r : Nat) (s : Build) :
    touch r s = if registerLimit ≤ r then .error .tableTooDeep
      else .ok ((), { s with maxRegister := max s.maxRegister r }) := by
  rw [touch]
  split <;> rfl

theorem emit_ok {w : Word} {u : Unit} (h : emit w s = .ok (u, s')) : Grown s s' [w] := by
  rw [emit_apply] at h
  injection h with h
  obtain ⟨-, rfl⟩ := Prod.mk.inj h
  exact ⟨Array.toList_push, fun _ _ hk ↦ hk, fun hs ↦ hs, fun hs ↦ ⟨hs.1, hs.2⟩, Nat.le_refl _⟩

theorem touch_ok {r : Nat} {u : Unit} (h : touch r s = .ok (u, s')) :
    r < registerLimit ∧ r ≤ s'.maxRegister ∧ Grown s s' [] := by
  rw [touch_apply] at h
  split at h
  · cases h
  · next hr =>
    injection h with h
    obtain ⟨-, rfl⟩ := Prod.mk.inj h
    have hr := Nat.not_le.mp hr
    exact ⟨hr, Nat.le_max_right _ _, (List.append_nil _).symm, fun _ _ hk ↦ hk, fun hs ↦ hs,
      fun hs ↦ ⟨hs.index_eq, Nat.max_lt.mpr ⟨hs.maxRegister_lt, hr⟩⟩, Nat.le_max_left _ _⟩

theorem newTable_ok {r : Nat} {u : Unit} (h : newTable r s = .ok (u, s')) :
    r < registerLimit ∧ r ≤ s'.maxRegister ∧ Grown s s' [.abc .newTable r 0 0] := by
  obtain ⟨_, s₁, htouch, hemit⟩ := bind_ok.mp h
  obtain ⟨hr, hle, hgrown⟩ := touch_ok htouch
  have hgrown' := emit_ok hemit
  exact ⟨hr, Nat.le_trans hle hgrown'.maxRegister_le, hgrown.trans hgrown'⟩

theorem load_ok {r i : Nat} {u : Unit} (h : load r i s = .ok (u, s')) :
    r < registerLimit ∧ r ≤ s'.maxRegister ∧ i ≤ maxBx ∧ Grown s s' [.abx .loadK r i] := by
  rw [load] at h
  split at h
  · cases h
  · next hi =>
    obtain ⟨_, s₁, htouch, hemit⟩ := bind_ok.mp h
    obtain ⟨hr, hle, hgrown⟩ := touch_ok htouch
    have hgrown' := emit_ok hemit
    exact ⟨hr, Nat.le_trans hle hgrown'.maxRegister_le, Nat.not_lt.mp hi, hgrown.trans hgrown'⟩

theorem grown_insert {k : Constant} (hnew : s.index[k.slot]? = none) :
    Grown s { s with
      constants := s.constants.push k, index := s.index.insert k.slot s.constants.size } [] where
  code_eq := (List.append_nil _).symm
  constants_eq i k' hk' := by
    have hi := (Array.getElem?_eq_some_iff.mp hk').1
    show (s.constants.push k)[i]? = _
    rw [Array.getElem?_push, if_neg (Nat.ne_of_lt hi), hk']
  filed hs := by
    intro k' i hi
    rw [Std.HashMap.getElem?_insert] at hi
    split at hi
    · next heq =>
      injection hi with hi
      subst hi
      exact ⟨k, Array.getElem?_push_size, eq_of_beq heq⟩
    · obtain ⟨k₁, hk₁, hslot⟩ := hs k' i hi
      refine ⟨k₁, ?_, hslot⟩
      show (s.constants.push k)[i]? = _
      rw [Array.getElem?_push, if_neg (Nat.ne_of_lt (Array.getElem?_eq_some_iff.mp hk₁).1), hk₁]
  sound hs := by
    refine ⟨fun k' ↦ ?_, hs.maxRegister_lt⟩
    rw [Std.HashMap.getElem?_insert, Array.findIdx?_push, ← hs.index_eq]
    by_cases hk : k.slot = k'
    · subst hk
      rw [hnew, beq_self_eq_true, if_pos rfl, if_pos (decide_eq_true rfl), Option.none_or]
    · rw [if_neg (by simpa using hk), if_neg (by simpa using hk), Option.or_none]
  maxRegister_le := Nat.le_refl _

theorem constant_apply (k : Constant) (s : Build) :
    constant k s = match s.index[k.slot]? with
      | some i => .ok (i, s)
      | none => .ok (s.constants.size, { s with
          constants := s.constants.push k, index := s.index.insert k.slot s.constants.size }) := by
  show (match s.index[k.slot]? with
    | some i => return i
    | none => modifyGet _ : Compiler Nat) s = _
  cases s.index[k.slot]? <;> rfl

theorem constant_cases {k : Constant} {i : Nat} (h : constant k s = .ok (i, s')) :
    s.index[k.slot]? = some i ∧ s' = s ∨
      s.index[k.slot]? = none ∧ i = s.constants.size ∧ s' = { s with
        constants := s.constants.push k, index := s.index.insert k.slot s.constants.size } := by
  rw [constant_apply] at h
  cases hi : s.index[k.slot]? with
  | some j =>
    rw [hi] at h
    injection h with h
    obtain ⟨rfl, rfl⟩ := Prod.mk.inj h
    exact .inl ⟨rfl, rfl⟩
  | none =>
    rw [hi] at h
    injection h with h
    obtain ⟨rfl, rfl⟩ := Prod.mk.inj h
    exact .inr ⟨rfl, rfl, rfl⟩

theorem constant_ok {k : Constant} {i : Nat} (h : constant k s = .ok (i, s')) (hs : s.Filed) :
    Grown s s' [] ∧ ∃ k' : Constant, s'.constants[i]? = some k' ∧ k'.slot = k.slot := by
  obtain ⟨hi, rfl⟩ | ⟨hi, rfl, rfl⟩ := constant_cases h
  · exact ⟨Grown.refl _, hs _ _ hi⟩
  · exact ⟨grown_insert hi, k, Array.getElem?_push_size, rfl⟩

end Compiler

end PropertyFile.Bytecode
