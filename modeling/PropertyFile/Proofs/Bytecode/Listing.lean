import PropertyFile.Proofs.Bytecode.Compiled

namespace PropertyFile.Bytecode

open Number

inductive Instruction where
  | newTable (a b c : Nat)
  | loadK (a bx : Nat)
  | setTable (a b c : Nat)
  | ret (a b c : Nat)
deriving DecidableEq, Repr

namespace Instruction

def word : Instruction → Word
  | newTable a b c => .abc .newTable a b c
  | loadK a bx => .abx .loadK a bx
  | setTable a b c => .abc .setTable a b c
  | ret a b c => .abc .ret a b c

def ofWord? (w : Word) : Option Instruction :=
  match w.opcode? with
  | some .newTable => some (newTable w.a w.b w.c)
  | some .loadK => some (loadK w.a w.bx)
  | some .setTable => some (setTable w.a w.b w.c)
  | some .ret => some (ret w.a w.b w.c)
  | _ => none

def registers : Instruction → List Nat
  | newTable a _ _ | loadK a _ | ret a _ _ => [a]
  | setTable a b c => a :: [b, c].filter (· < constantBase)

def constants : Instruction → List Nat
  | newTable _ _ _ | ret _ _ _ => []
  | loadK _ bx => [bx]
  | setTable _ b c => ([b, c].filter (constantBase ≤ ·)).map (· - constantBase)

/-- An operand that names a register up to `top`, or one of the first `size` constants. -/
def Names (top size x : Nat) : Prop :=
  x < constantBase ∧ x ≤ top ∨ constantBase ≤ x ∧ x < 512 ∧ x - constantBase < size

/-- An instruction that builds tables in the registers up to `top` with the first `size`
constants. -/
def Builds (top size : Nat) : Instruction → Prop
  | newTable a b c => a ≤ top ∧ b = 0 ∧ c = 0
  | loadK a bx => a ≤ top ∧ bx ≤ maxBx ∧ bx < size
  | setTable a b c => a ≤ top ∧ Names top size b ∧ Names top size c
  | ret _ _ _ => False

variable {top top' size x : Nat} {i : Instruction}

theorem Names.mono (h : Names top size x) (hle : top ≤ top') : Names top' size x :=
  h.imp (fun hx ↦ ⟨hx.1, Nat.le_trans hx.2 hle⟩) id

theorem Names.lt (h : Names top size x) : x < 512 := by
  rcases h with ⟨hx, -⟩ | ⟨-, hx, -⟩
  · exact Nat.lt_trans hx (by decide)
  · exact hx

theorem Builds.mono (h : i.Builds top size) (hle : top ≤ top') : i.Builds top' size := by
  cases i with
  | newTable a b c => exact ⟨Nat.le_trans h.1 hle, h.2⟩
  | loadK a bx => exact ⟨Nat.le_trans h.1 hle, h.2⟩
  | setTable a b c => exact ⟨Nat.le_trans h.1 hle, h.2.1.mono hle, h.2.2.mono hle⟩
  | ret a b c => exact h

theorem Builds.registers_le (h : i.Builds top size) : ∀ r ∈ i.registers, r ≤ top := by
  have operand : ∀ y, Names top size y → y < constantBase → y ≤ top := by
    rintro y (⟨-, hy⟩ | ⟨hy, -⟩) hlt
    · exact hy
    · exact absurd hlt (Nat.not_lt.mpr hy)
  cases i with
  | newTable a b c => exact List.forall_mem_singleton.mpr h.1
  | loadK a bx => exact List.forall_mem_singleton.mpr h.1
  | setTable a b c =>
    refine List.forall_mem_cons.mpr ⟨h.1, fun r hr ↦ ?_⟩
    obtain ⟨hr, hlt⟩ := List.mem_filter.mp hr
    have hr : r = b ∨ r = c := by simpa using hr
    have hlt := of_decide_eq_true hlt
    rcases hr with rfl | rfl
    · exact operand _ h.2.1 hlt
    · exact operand _ h.2.2 hlt
  | ret a b c => exact h.elim

theorem Builds.constants_lt (h : i.Builds top size) : ∀ k ∈ i.constants, k < size := by
  have operand : ∀ y, Names top size y → constantBase ≤ y → y - constantBase < size := by
    rintro y (⟨hy, -⟩ | ⟨-, -, hy⟩) hle
    · exact absurd hy (Nat.not_lt.mpr hle)
    · exact hy
  cases i with
  | newTable a b c => exact List.forall_mem_nil _
  | loadK a bx => exact List.forall_mem_singleton.mpr h.2.2
  | setTable a b c =>
    intro k hk
    obtain ⟨y, hy, rfl⟩ := List.mem_map.mp hk
    obtain ⟨hy, hle⟩ := List.mem_filter.mp hy
    have hy : y = b ∨ y = c := by simpa using hy
    have hle := of_decide_eq_true hle
    rcases hy with rfl | rfl
    · exact operand _ h.2.1 hle
    · exact operand _ h.2.2 hle
  | ret a b c => exact h.elim

/-- No operand of an instruction that builds tables is cut to its width. -/
theorem Builds.ofWord?_word (h : i.Builds top size) (htop : top < registerLimit) :
    ofWord? i.word = some i := by
  have register : ∀ r, r ≤ top → r < 256 := fun r hr ↦
    Nat.lt_of_le_of_lt hr (Nat.lt_trans htop (by decide))
  cases i with
  | newTable a b c =>
    obtain ⟨ha, rfl, rfl⟩ := h
    obtain ⟨hop, ha, hb, hc⟩ := Word.fields_abc .newTable (register a ha) (Nat.zero_lt_succ 511)
      (Nat.zero_lt_succ 511)
    simp only [word, ofWord?, hop, ha, hb, hc]
  | loadK a bx =>
    obtain ⟨ha, hbx, -⟩ := h
    obtain ⟨hop, ha, hbx⟩ := Word.fields_abx .loadK (register a ha) (Nat.lt_succ_of_le hbx)
    simp only [word, ofWord?, hop, ha, hbx]
  | setTable a b c =>
    obtain ⟨ha, hb, hc⟩ := h
    obtain ⟨hop, ha, hb, hc⟩ := Word.fields_abc .setTable (register a ha) hb.lt hc.lt
    simp only [word, ofWord?, hop, ha, hb, hc]
  | ret a b c => exact h.elim

theorem ofWord?_of_ret {w : Word} (h : w.opcode? = some .ret) :
    ofWord? w = some (ret w.a w.b w.c) := by
  simp only [ofWord?, h]

theorem Builds.word_ne_ret (h : i.Builds top size) (htop : top < registerLimit) :
    i.word.opcode? ≠ some .ret := by
  intro hret
  have hi := (h.ofWord?_word htop).symm.trans (ofWord?_of_ret hret)
  rw [Option.some.inj hi] at h
  exact h

end Instruction

section Listing

variable (pool : Array Constant)

def place (k : Constant) : Nat := pool.findIdx (·.slot = k.slot)

/-- The operand for the constant in a place, which is in the register `scratch` if it cannot be
named. -/
def named (i scratch : Nat) : Nat := if i ≤ maxOperandConstant then i + constantBase else scratch

def loading (i scratch : Nat) : List Instruction :=
  if i ≤ maxOperandConstant then [] else [.loadK scratch i]

def settingCode (t : Nat) (key : Key) (value : Nat) : List Instruction :=
  let i := place pool (keyConstant key)
  loading i (t + 1) ++ [.setTable t (named i (t + 1)) value]

def scalarCode (t : Nat) (key : Key) (k : Constant) : List Instruction :=
  let i := place pool k
  loading i (t + 2) ++ settingCode pool t key (named i (t + 2))

def itemsCode (t : Nat) : (first : Int64) → List Single → List Instruction
  | _, [] => []
  | i, x :: xs => scalarCode pool t (.index i) (.number x.widen) ++ itemsCode t (i + 1) xs

def tableCode (t : Nat) (key : Key) (fill : List Instruction) : List Instruction :=
  [.newTable (t + 2) 0 0] ++ fill ++ settingCode pool t key (t + 2)

mutual

def fieldCode (t : Nat) (key : Key) : Value → List Instruction
  | .int32 n => scalarCode pool t key (.number (.ofInt n.toInt))
  | .float x => scalarCode pool t key (.number x.widen)
  | .scaled x => scalarCode pool t key (.number x.widen)
  | .int16 n => scalarCode pool t key (.number (.ofInt n.toInt))
  | .byte n => scalarCode pool t key (.number (.ofInt n.toNat))
  | .bool b => scalarCode pool t key (.bool b)
  | .string s => scalarCode pool t key (.string s)
  | .vec2 x y => tableCode pool t key (itemsCode pool (t + 2) 1 [x, y])
  | .vec3 x y z => tableCode pool t key (itemsCode pool (t + 2) 1 [x, y, z])
  | .vec4 x y z w => tableCode pool t key (itemsCode pool (t + 2) 1 [x, y, z, w])
  | .table entries => tableCode pool t key (fieldsCode (t + 2) entries)

def fieldsCode (t : Nat) : List (Key × Value) → List Instruction
  | [] => []
  | (key, v) :: rest => fieldCode t key v ++ fieldsCode t rest

end

def ownSectionCode (name : String) (fill : List Instruction) : List Instruction :=
  let i := place pool (.string name)
  [.loadK 1 i] ++ [.newTable 2 0 0] ++ fill ++ [.setTable 0 (named i 1) 2]

def sectionCode (s : Section) : List Instruction :=
  let fields := Compiler.propertyFields s.properties
  if isRootSection s.name then fieldsCode pool 0 fields
  else ownSectionCode pool s.name (fieldsCode pool 2 fields)

def sectionsCode (sections : List Section) : List Instruction :=
  sections.flatMap (sectionCode pool)

def treeCode (t : Tree) : List Instruction :=
  [.newTable 0 0 0] ++ sectionsCode pool t.sections ++ [.ret 0 2 0]

end Listing

namespace Compiler

variable {s s' s'' : Build} {c : Chunk} {t : Nat}

/-- One state of the compiler follows another by the words of a listing, which builds tables with
registers that were touched and constants of the chunk. -/
structure Listed (c : Chunk) (s s' : Build) (code : List Instruction) : Prop where
  grown : Grown s s' (code.map Instruction.word)
  builds : ∀ i ∈ code, i.Builds s'.maxRegister c.constants.size

theorem Listed.trans {u v : List Instruction} (h : Listed c s s' u) (h' : Listed c s' s'' v) :
    Listed c s s'' (u ++ v) where
  grown := by
    rw [List.map_append]
    exact h.grown.trans h'.grown
  builds := List.forall_mem_append.mpr
    ⟨fun i hi ↦ (h.builds i hi).mono h'.grown.maxRegister_le, h'.builds⟩

theorem Listed.of_grown (h : Grown s s' []) : Listed c s s' [] := ⟨h, List.forall_mem_nil _⟩

theorem Listed.emit {i : Instruction} {u : Unit} (h : emit i.word s = .ok (u, s'))
    (hi : i.Builds s.maxRegister c.constants.size) : Listed c s s' [i] where
  grown := emit_ok h
  builds := List.forall_mem_singleton.mpr (hi.mono (emit_ok h).maxRegister_le)

/-- What is emitted for a table in register `t`, which was touched, is the given listing under the
pool of any chunk that has the constants so far. That the state grows is said apart: the chunk has
the constants after the first of two steps since it has those after the second. -/
def Lists (t : Nat) (x : Compiler Unit) (code : Array Constant → List Instruction) : Prop :=
  ∀ s s' u, x s = .ok (u, s') → s.Sound → t ≤ s.maxRegister →
    (∃ words, Grown s s' words) ∧ ∀ c, Pool c s' → Listed c s s' (code c.constants)

theorem lists_pure (t : Nat) : Lists t (pure ()) fun _ ↦ [] := by
  intro s s' u h _ _
  obtain ⟨-, rfl⟩ := pure_ok.mp h
  exact ⟨⟨[], Grown.refl _⟩, fun c _ ↦ .of_grown (Grown.refl _)⟩

theorem Lists.bind {x y : Compiler Unit} {f g : Array Constant → List Instruction}
    (hx : Lists t x f) (hy : Lists t y g) :
    Lists t (x >>= fun _ ↦ y) fun pool ↦ f pool ++ g pool := by
  intro s s' u h hs ht
  obtain ⟨_, s₁, hrun, hrun'⟩ := bind_ok.mp h
  obtain ⟨⟨words, hgrown⟩, hlisted⟩ := hx s s₁ _ hrun hs ht
  obtain ⟨⟨words', hgrown'⟩, hlisted'⟩ :=
    hy s₁ s' _ hrun' (hgrown.sound hs) (Nat.le_trans ht hgrown.maxRegister_le)
  exact ⟨⟨_, hgrown.trans hgrown'⟩,
    fun c hc ↦ (hlisted c (hc.before hgrown')).trans (hlisted' c hc)⟩

theorem place_eq {k : Constant} {i : Nat} (hc : Pool c s)
    (hi : s.constants.findIdx? (·.slot = k.slot) = some i) :
    place c.constants k = i ∧ i < c.constants.size := by
  obtain ⟨hlt, hslot, hfirst⟩ := Array.findIdx?_eq_some_iff_getElem.mp hi
  have hget : ∀ j (hj : j < s.constants.size),
      ∃ hj' : j < c.constants.size, c.constants[j] = s.constants[j] := fun j hj ↦
    Array.getElem?_eq_some_iff.mp (hc j _ (Array.getElem?_eq_getElem hj))
  obtain ⟨hlt', heq⟩ := hget i hlt
  refine ⟨(Array.findIdx_eq hlt').mpr ⟨heq ▸ hslot, fun j hj ↦ ?_⟩, hlt'⟩
  -- Constants that join the pool later come after this place.
  obtain ⟨hj', heq'⟩ := hget j (Nat.lt_trans hj hlt)
  rw [heq']
  exact Bool.eq_false_iff.mpr (hfirst j hj)

theorem constant_place {k : Constant} {i : Nat} (h : constant k s = .ok (i, s')) (hs : s.Sound) :
    Grown s s' [] ∧ ∀ c, Pool c s' → place c.constants k = i ∧ i < c.constants.size := by
  obtain ⟨hi, rfl⟩ | ⟨hi, rfl, rfl⟩ := constant_cases h
  · exact ⟨Grown.refl _, fun c hc ↦ place_eq hc (hs.index_eq k.slot ▸ hi)⟩
  · have hgrown := grown_insert hi
    refine ⟨hgrown, fun c hc ↦ place_eq hc ?_⟩
    rw [← (hgrown.sound hs).index_eq, Std.HashMap.getElem?_insert_self]

theorem load_listed {r i : Nat} {u : Unit} (h : load r i s = .ok (u, s'))
    (hi : i < c.constants.size) : Listed c s s' [.loadK r i] := by
  obtain ⟨-, hr, hbx, hgrown⟩ := load_ok h
  exact ⟨hgrown, List.forall_mem_singleton.mpr ⟨hr, hbx, hi⟩⟩

theorem newTable_listed {r : Nat} {u : Unit} (h : newTable r s = .ok (u, s')) :
    Listed c s s' [.newTable r 0 0] := by
  obtain ⟨-, hr, hgrown⟩ := newTable_ok h
  exact ⟨hgrown, List.forall_mem_singleton.mpr ⟨hr, rfl, rfl⟩⟩

theorem names_register {top size r : Nat} (h : r ≤ top) (htop : top < registerLimit) :
    Instruction.Names top size r :=
  .inl ⟨Nat.lt_of_le_of_lt h (Nat.lt_trans htop (by decide)), h⟩

theorem names_named {top size i scratch : Nat} (hi : i < size)
    (hscratch : maxOperandConstant < i → Instruction.Names top size scratch) :
    Instruction.Names top size (named i scratch) := by
  rw [named]
  split
  · next hle =>
    exact .inr ⟨Nat.le_add_left _ _, Nat.add_lt_add_right (Nat.lt_succ_of_le hle) 256, by
      rwa [Nat.add_sub_cancel]⟩
  · next hlt => exact hscratch (Nat.not_le.mp hlt)

theorem constantOperand_listed {i scratch x : Nat} (h : constantOperand i scratch s = .ok (x, s'))
    (hs : s.Sound) : (∃ words, Grown s s' words) ∧ x = named i scratch ∧
      ∀ c : Chunk, i < c.constants.size → Listed c s s' (loading i scratch) ∧
        Instruction.Names s'.maxRegister c.constants.size (named i scratch) := by
  rw [constantOperand] at h
  split at h
  · next hi =>
    obtain ⟨rfl, rfl⟩ := pure_ok.mp h
    refine ⟨⟨[], Grown.refl _⟩, by rw [named, if_pos hi], fun c hsize ↦ ⟨?_, ?_⟩⟩
    · rw [loading, if_pos hi]
      exact .of_grown (Grown.refl _)
    · exact names_named hsize fun hlt ↦ absurd hi (Nat.not_le.mpr hlt)
  · next hi =>
    obtain ⟨_, s₁, hload, h⟩ := bind_ok.mp h
    obtain ⟨rfl, rfl⟩ := pure_ok.mp h
    obtain ⟨-, hr, -, hgrown⟩ := load_ok hload
    refine ⟨⟨_, hgrown⟩, by rw [named, if_neg hi], fun c hsize ↦ ⟨?_, ?_⟩⟩
    · rw [loading, if_neg hi]
      exact load_listed hload hsize
    · exact names_named hsize fun _ ↦
        names_register hr (hgrown.sound hs).maxRegister_lt

theorem assign_listed {key : Key} {x : Nat} {u : Unit} (h : assign t key x s = .ok (u, s'))
    (hs : s.Sound) (ht : t ≤ s.maxRegister) : (∃ words, Grown s s' words) ∧
      ∀ c, Pool c s' → Instruction.Names s.maxRegister c.constants.size x →
        Listed c s s' (settingCode c.constants t key x) := by
  rw [assign] at h
  obtain ⟨i, s₁, hconstant, h⟩ := bind_ok.mp h
  obtain ⟨k, s₂, hoperand, hemit⟩ := bind_ok.mp h
  obtain ⟨hgrown₁, hplace⟩ := constant_place hconstant hs
  obtain ⟨⟨words, hgrown₂⟩, rfl, hload⟩ := constantOperand_listed hoperand (hgrown₁.sound hs)
  have hgrown₃ := emit_ok hemit
  have hgrown := hgrown₁.trans hgrown₂
  refine ⟨⟨_, hgrown.trans hgrown₃⟩, fun c hc hx ↦ ?_⟩
  obtain ⟨hi, hsize⟩ := hplace c ((hc.before hgrown₃).before hgrown₂)
  obtain ⟨hlisted, hnames⟩ := hload c hsize
  rw [settingCode, hi]
  exact ((Listed.of_grown hgrown₁).trans hlisted).trans (.emit hemit
    ⟨Nat.le_trans ht hgrown.maxRegister_le, hnames, hx.mono hgrown.maxRegister_le⟩)

theorem lists_scalarField (key : Key) (k : Constant) :
    Lists t (scalarField t key k) fun pool ↦ scalarCode pool t key k := by
  intro s s' u h hs ht
  rw [scalarField] at h
  obtain ⟨i, s₁, hconstant, h⟩ := bind_ok.mp h
  obtain ⟨x, s₂, hoperand, hassign⟩ := bind_ok.mp h
  obtain ⟨hgrown₁, hplace⟩ := constant_place hconstant hs
  obtain ⟨⟨words, hgrown₂⟩, rfl, hload⟩ := constantOperand_listed hoperand (hgrown₁.sound hs)
  have hgrown := hgrown₁.trans hgrown₂
  obtain ⟨⟨words', hgrown₃⟩, hset⟩ :=
    assign_listed hassign (hgrown.sound hs) (Nat.le_trans ht hgrown.maxRegister_le)
  refine ⟨⟨_, hgrown.trans hgrown₃⟩, fun c hc ↦ ?_⟩
  obtain ⟨hi, hsize⟩ := hplace c ((hc.before hgrown₃).before hgrown₂)
  obtain ⟨hlisted, hnames⟩ := hload c hsize
  show Listed c s s' (scalarCode c.constants t key k)
  rw [scalarCode, hi]
  exact ((Listed.of_grown hgrown₁).trans hlisted).trans (hset c hc hnames)

theorem lists_components (i : Int64) (xs : List Single) :
    Lists t (components t i xs) fun pool ↦ itemsCode pool t i xs := by
  induction xs generalizing i with
  | nil => exact lists_pure t
  | cons x xs ih => exact (lists_scalarField (.index i) (.number x.widen)).bind (ih (i + 1))

theorem lists_tableField (key : Key) {fill : Compiler Unit}
    {code : Array Constant → List Instruction} (hfill : Lists (t + 2) fill code) :
    Lists t (tableField t key fill) fun pool ↦ tableCode pool t key (code pool) := by
  intro s s' u h hs ht
  rw [tableField] at h
  obtain ⟨_, s₁, hnew, h⟩ := bind_ok.mp h
  obtain ⟨_, s₂, hrun, hassign⟩ := bind_ok.mp h
  obtain ⟨-, hr, hgrown₁⟩ := newTable_ok hnew
  obtain ⟨⟨words, hgrown₂⟩, hlisted⟩ := hfill s₁ s₂ _ hrun (hgrown₁.sound hs) hr
  have hgrown := hgrown₁.trans hgrown₂
  have hsound := hgrown.sound hs
  obtain ⟨⟨words', hgrown₃⟩, hset⟩ :=
    assign_listed hassign hsound (Nat.le_trans ht hgrown.maxRegister_le)
  refine ⟨⟨_, hgrown.trans hgrown₃⟩, fun c hc ↦ ?_⟩
  have htable := Nat.le_trans hr hgrown₂.maxRegister_le
  exact ((newTable_listed hnew).trans (hlisted c (hc.before hgrown₃))).trans
    (hset c hc (names_register htable hsound.maxRegister_lt))

mutual

theorem lists_field (t : Nat) (key : Key) : (v : Value) →
    Lists t (field t key v) fun pool ↦ fieldCode pool t key v
  | .int32 _ | .float _ | .scaled _ | .int16 _ | .byte _ | .bool _ | .string _ =>
    lists_scalarField key _
  | .vec2 _ _ | .vec3 _ _ _ | .vec4 _ _ _ _ => lists_tableField key (lists_components 1 _)
  | .table entries => lists_tableField key (lists_fields (t + 2) entries)

theorem lists_fields (t : Nat) : (entries : List (Key × Value)) →
    Lists t (fields t entries) fun pool ↦ fieldsCode pool t entries
  | [] => lists_pure t
  | (key, v) :: rest => (lists_field t key v).bind (lists_fields t rest)

end

theorem lists_ownSection (name : String) {fill : Compiler Unit}
    {code : Array Constant → List Instruction} (hfill : Lists 2 fill code) :
    Lists 0 (do
      let i ← constant (.string name)
      load 1 i
      newTable 2
      fill
      emit (.abc .setTable 0 (if i ≤ maxOperandConstant then i + constantBase else 1) 2)) fun pool ↦
      ownSectionCode pool name (code pool) := by
  intro s s' u h hs _
  obtain ⟨i, s₁, hconstant, h⟩ := bind_ok.mp h
  obtain ⟨_, s₂, hload, h⟩ := bind_ok.mp h
  obtain ⟨_, s₃, hnew, h⟩ := bind_ok.mp h
  obtain ⟨_, s₄, hrun, hemit⟩ := bind_ok.mp h
  obtain ⟨hgrown₁, hplace⟩ := constant_place hconstant hs
  obtain ⟨-, hr₁, -, hgrown₂⟩ := load_ok hload
  obtain ⟨-, hr₂, hgrown₃⟩ := newTable_ok hnew
  have hgrown := (hgrown₁.trans hgrown₂).trans hgrown₃
  obtain ⟨⟨words, hgrown₄⟩, hlisted⟩ := hfill s₃ s₄ _ hrun (hgrown.sound hs) hr₂
  have hgrown₅ := emit_ok hemit
  refine ⟨⟨_, (hgrown.trans hgrown₄).trans hgrown₅⟩, fun c hc ↦ ?_⟩
  have hc₄ := hc.before hgrown₅
  obtain ⟨hi, hsize⟩ := hplace c (((hc₄.before hgrown₄).before hgrown₃).before hgrown₂)
  have hlimit := ((hgrown.trans hgrown₄).sound hs).maxRegister_lt
  have hname := Nat.le_trans hr₁ (Nat.le_trans hgrown₃.maxRegister_le hgrown₄.maxRegister_le)
  have htable := Nat.le_trans hr₂ hgrown₄.maxRegister_le
  show Listed c s s' (ownSectionCode c.constants name (code c.constants))
  rw [ownSectionCode, hi]
  exact ((((Listed.of_grown hgrown₁).trans (load_listed hload hsize)).trans
    (newTable_listed hnew)).trans (hlisted c hc₄)).trans (.emit hemit
      ⟨Nat.zero_le _, names_named hsize fun _ ↦ names_register hname hlimit,
        names_register htable hlimit⟩)

theorem lists_section (sec : Section) :
    Lists 0 (compileSection sec) fun pool ↦ sectionCode pool sec := by
  by_cases hroot : isRootSection sec.name = true
  · have h := lists_fields 0 (propertyFields sec.properties)
    simpa only [compileSection, sectionCode, hroot, if_true] using h
  · have h := lists_ownSection sec.name (lists_fields 2 (propertyFields sec.properties))
    simpa only [compileSection, sectionCode, hroot, Bool.false_eq_true, if_false] using h

theorem lists_sections (sections : List Section) :
    Lists 0 (compileSections sections) fun pool ↦ sectionsCode pool sections := by
  induction sections with
  | nil => exact lists_pure 0
  | cons sec sections ih => exact (lists_section sec).bind ih

end Compiler

end PropertyFile.Bytecode
