import PropertyFile.Proofs.Bytecode.Building
import PropertyFile.Proofs.Machine.Content
import PropertyFile.Proofs.Machine.Running
import PropertyFile.Proofs.Number.Integers

namespace PropertyFile.Bytecode

open Number Machine

variable {heap : Array Table} {lo : Nat}

theorem slot_eq_number {k : Constant} {x : Double} (h : k.slot = (Constant.number x).slot) :
    ∃ y, k = .number y ∧ (y = x ∨ y.isZero = true ∧ x.isZero = true) := by
  cases k with
  | number y =>
    refine ⟨y, rfl, ?_⟩
    have hy : (if y.isZero then Double.zero else y) = if x.isZero then Double.zero else x :=
      Constant.number.inj h
    by_cases hyz : y.isZero = true
    · by_cases hxz : x.isZero = true
      · exact .inr ⟨hyz, hxz⟩
      · rw [if_pos hyz, if_neg hxz] at hy
        exact absurd (hy ▸ Double.isZero_zero) hxz
    · by_cases hxz : x.isZero = true
      · rw [if_neg hyz, if_pos hxz] at hy
        exact absurd (hy ▸ Double.isZero_zero) hyz
      · rw [if_neg hyz, if_neg hxz] at hy
        exact .inl hy
  | _ => cases h

theorem slot_eq_bool {k : Constant} {b : Bool} (h : k.slot = (Constant.bool b).slot) :
    k = .bool b := by
  cases k with
  | bool b' => exact h
  | _ => cases h

theorem slot_eq_string {k : Constant} {s : String} (h : k.slot = (Constant.string s).slot) :
    k = .string s := by
  cases k with
  | string s' => exact h
  | _ => cases h

def Stands (k : Constant) (x : Content) : Prop :=
  ∀ k' : Constant, k'.slot = k.slot → ∀ heap lo, Shows heap lo (.ofConstant k') x

theorem stands_number (x : Double) : Stands (.number x) (.number x) := by
  intro k' h heap lo
  obtain ⟨y, rfl, hy⟩ := slot_eq_number h
  exact .number hy

theorem stands_bool (b : Bool) : Stands (.bool b) (.bool b) := by
  intro k' h heap lo
  obtain rfl := slot_eq_bool h
  exact .bool b

theorem stands_string (s : String) : Stands (.string s) (.string s) := by
  intro k' h heap lo
  obtain rfl := slot_eq_string h
  exact .string s

/-- The constant of a key is found as that key, also under another sign of zero. -/
theorem ofCell?_keyConstant {key : Key} {k : Constant} (h : k.slot = (keyConstant key).slot) :
    CellKey.ofCell? (.ofConstant k) = some key.cell := by
  cases key with
  | name s =>
    obtain rfl := slot_eq_string h
    rfl
  | index i =>
    obtain ⟨y, rfl, hy⟩ := slot_eq_number h
    have hcell : ∀ z : Double, z.isNaN = false → (if z.isZero then Double.zero else z) =
        .ofInt i.toInt → CellKey.ofCell? (.ofConstant (.number z)) = some (Key.index i).cell := by
      intro z hnan hz
      simp only [Cell.ofConstant, CellKey.ofCell?, hnan, Bool.false_eq_true, if_false, hz]
      rfl
    rcases hy with rfl | ⟨hyz, hxz⟩
    · refine hcell _ (Double.isNaN_ofInt _) ?_
      by_cases hz : (Double.ofInt i.toInt).isZero = true
      · rw [if_pos hz, Double.ofInt_eq_zero hz]
      · rw [if_neg hz]
    · refine hcell _ (Double.isNaN_of_isZero hyz) ?_
      rw [if_pos hyz, Double.ofInt_eq_zero hxz]

namespace Compiler

variable {s s' : Build} {t : Nat}

def componentContents : Int64 → List Single → List (CellKey × Content)
  | _, [] => []
  | i, x :: xs => ((Key.index i).cell, .number x.widen) :: componentContents (i + 1) xs

def Pool (c : Chunk) (s : Build) : Prop :=
  ∀ (i : Nat) (k : Constant), s.constants[i]? = some k → c.constants[i]? = some k

theorem Pool.before {c : Chunk} (h : Pool c s') {words : List Word} (hs : Grown s s' words) :
    Pool c s :=
  fun i k hk ↦ h i k (hs.constants_eq i k hk)

/-- What is emitted takes a machine with a table in register `t` to one where that table is changed
by `g`. Higher registers may be used, and tables made, but nothing else is touched. -/
def Fills (t : Nat) (x : Compiler Unit) (g : Fields → Fields) : Prop :=
  ∀ s s' u, x s = .ok (u, s') → s.Filed → ∃ words, Grown s s' words ∧
    ∀ c, Pool c s' → ∀ m id f, m.tableAt? t = some id → Holds m.heap id f →
      ∃ m', Clean c words m m' ∧ Within t id m m' ∧ Holds m'.heap id (g f)

theorem fills_pure (t : Nat) : Fills t (pure ()) fun f ↦ f := by
  intro s s' u h hs
  obtain ⟨-, rfl⟩ := pure_ok.mp h
  exact ⟨[], Grown.refl _, fun c _ m id f _ hf ↦ ⟨m, Clean.nil c m, Within.refl t id m, hf⟩⟩

theorem Fills.bind {x y : Compiler Unit} {g h : Fields → Fields} (hx : Fills t x g)
    (hy : Fills t y h) : Fills t (x >>= fun _ ↦ y) fun f ↦ h (g f) := by
  intro s s' u hrun hs
  obtain ⟨_, s₁, hrun₁, hrun₂⟩ := bind_ok.mp hrun
  obtain ⟨words, hgrown, hdo⟩ := hx s s₁ _ hrun₁ hs
  obtain ⟨words', hgrown', hdo'⟩ := hy s₁ s' _ hrun₂ (hgrown.filed hs)
  refine ⟨words ++ words', hgrown.trans hgrown', fun c hc m id f hid hf ↦ ?_⟩
  obtain ⟨m₁, hruns, hwithin, hholds⟩ := hdo c (hc.before hgrown') m id f hid hf
  have hid₁ : m₁.tableAt? t = some id := (hwithin.tableAt? (Nat.le_refl t)).trans hid
  obtain ⟨m₂, hruns', hwithin', hholds'⟩ := hdo' c hc m₁ id (g f) hid₁ hholds
  exact ⟨m₂, hruns.append hruns', hwithin.trans hwithin', hholds'⟩

/-- An operand for a constant names it, or a scratch register that the constant is loaded into. -/
theorem constantOperand_ok {i scratch x : Nat} (h : constantOperand i scratch s = .ok (x, s')) :
    x < 512 ∧ (constantBase ≤ x ∨ x = scratch) ∧ ∃ words, Grown s s' words ∧
      ∀ c k m, c.constants[i]? = some k → ∃ m', Clean c words m m' ∧
        m'.operand c x = .ofConstant k ∧
        (m' = m ∨ scratch < registerLimit ∧ m' = m.setRegister scratch (.ofConstant k)) := by
  rw [constantOperand] at h
  split at h
  · next hi =>
    obtain ⟨rfl, rfl⟩ := pure_ok.mp h
    refine ⟨Nat.add_lt_add_right (Nat.lt_succ_of_le hi) 256, .inl (Nat.le_add_left _ _), [],
      Grown.refl _, fun c k m hk ↦ ⟨m, Clean.nil c m, operand_constant hk, .inl rfl⟩⟩
  · obtain ⟨_, s₁, hload, h⟩ := bind_ok.mp h
    obtain ⟨rfl, rfl⟩ := pure_ok.mp h
    obtain ⟨hr, -, hi, hgrown⟩ := load_ok hload
    have hr' := Nat.lt_trans hr (show registerLimit < 256 by decide)
    refine ⟨Nat.lt_trans hr (by decide), .inr rfl, _, hgrown, fun c k m hk ↦
      ⟨_, clean_loadK hr' hi hk, operand_register hr' ?_, .inr ⟨hr, rfl⟩⟩⟩
    rw [getElem?_setRegister, if_pos ⟨rfl, hr'⟩]

theorem assign_ok {key : Key} {x : Nat} {u : Unit} (h : assign t key x s = .ok (u, s'))
    (hs : s.Filed) (hx : x < 512) (hkind : constantBase ≤ x ∨ x = t + 2) :
    ∃ words, Grown s s' words ∧ ∀ c, Pool c s' → ∀ m id f v, m.tableAt? t = some id →
      Holds m.heap id f → Shows m.heap (id + 1) (m.operand c x) v →
        ∃ m', Clean c words m m' ∧ Within t id m m' ∧
          Holds m'.heap id (Fields.assign f key.cell v) := by
  rw [assign] at h
  obtain ⟨i, s₁, hconstant, h⟩ := bind_ok.mp h
  obtain ⟨k, s₂, hoperand, hemit⟩ := bind_ok.mp h
  obtain ⟨hgrown₁, kc, hkc, hslot⟩ := constant_ok hconstant hs
  obtain ⟨hk, -, words, hgrown₂, hload⟩ := constantOperand_ok hoperand
  have hgrown₃ := emit_ok hemit
  refine ⟨[] ++ words ++ [_], (hgrown₁.trans hgrown₂).trans hgrown₃,
    fun c hc m id f v hid hf hv ↦ ?_⟩
  have hpool : c.constants[i]? = some kc := (hc.before hgrown₃).before hgrown₂ i kc hkc
  obtain ⟨m₁, hruns, hop, hm₁⟩ := hload c kc m hpool
  have ht : t < 256 := tableAt?_lt hid
  -- Loading the key touches neither the heap nor the register of the value.
  have hsame : Within t id m m₁ ∧ m₁.heap = m.heap ∧ m₁.operand c x = m.operand c x := by
    rcases hm₁ with rfl | ⟨hlimit, rfl⟩
    · exact ⟨Within.refl t id m₁, rfl, rfl⟩
    · have hne : x ≠ t + 1 := by
        simp only [registerLimit, constantBase] at hlimit hkind
        omega
      exact ⟨Within.setRegister id m (Nat.lt_succ_self t) _, rfl, operand_setRegister hne _⟩
  obtain ⟨hwithin, hheap, hx₁⟩ := hsame
  have hid₁ : m₁.tableAt? t = some id := (hwithin.tableAt? (Nat.le_refl t)).trans hid
  have hkey : CellKey.ofCell? (m₁.operand c k) = some key.cell := by
    rw [hop, ofCell?_keyConstant hslot]
  refine ⟨_, hruns.append (clean_setTable ht hk hx hid₁ hkey),
    hwithin.trans (Within.assign t id m₁ _ _), ?_⟩
  rw [hx₁]
  show Holds (m₁.heap.modify id _) id _
  rw [hheap]
  exact hf.assign key.cell hv

theorem fills_scalarField (key : Key) {k : Constant} {v : Content} (hk : Stands k v) :
    Fills t (scalarField t key k) fun f ↦ Fields.assign f key.cell v := by
  intro s s' u h hs
  rw [scalarField] at h
  obtain ⟨i, s₁, hconstant, h⟩ := bind_ok.mp h
  obtain ⟨x, s₂, hoperand, hassign⟩ := bind_ok.mp h
  obtain ⟨hgrown₁, kc, hkc, hslot⟩ := constant_ok hconstant hs
  obtain ⟨hx, hkind, words, hgrown₂, hload⟩ := constantOperand_ok hoperand
  obtain ⟨words', hgrown₃, hdo⟩ :=
    assign_ok hassign (hgrown₂.filed (hgrown₁.filed hs)) hx hkind
  refine ⟨[] ++ words ++ words', (hgrown₁.trans hgrown₂).trans hgrown₃,
    fun c hc m id f hid hf ↦ ?_⟩
  have hpool : c.constants[i]? = some kc := (hc.before hgrown₃).before hgrown₂ i kc hkc
  obtain ⟨m₁, hruns, hop, hm₁⟩ := hload c kc m hpool
  have hsame : Within t id m m₁ ∧ m₁.heap = m.heap := by
    rcases hm₁ with rfl | ⟨-, rfl⟩
    · exact ⟨Within.refl t id m₁, rfl⟩
    · exact ⟨Within.setRegister id m (Nat.lt_add_of_pos_right (Nat.zero_lt_succ 1)) _, rfl⟩
  obtain ⟨hwithin, hheap⟩ := hsame
  have hid₁ : m₁.tableAt? t = some id := (hwithin.tableAt? (Nat.le_refl t)).trans hid
  have hshows : Shows m₁.heap (id + 1) (m₁.operand c x) v := by
    rw [hop]
    exact hk kc hslot _ _
  obtain ⟨m₂, hruns', hwithin', hholds⟩ := hdo c hc m₁ id f v hid₁ (hheap ▸ hf) hshows
  exact ⟨m₂, hruns.append hruns', hwithin.trans hwithin', hholds⟩

theorem fills_components (i : Int64) (xs : List Single) : Fills t (components t i xs) fun f ↦
    Fields.assignAll f (componentContents i xs) := by
  induction xs generalizing i with
  | nil => exact fills_pure t
  | cons x xs ih => exact (fills_scalarField (.index i) (stands_number x.widen)).bind (ih (i + 1))

theorem newTable_fill {fill : Compiler Unit} {g : Fields → Fields} (hfill : Fills (t + 2) fill g)
    {s₁ : Build} {u v : Unit} (hnew : newTable (t + 2) s = .ok (u, s₁))
    (hrun : fill s₁ = .ok (v, s')) (hs : s.Filed) :
    t + 2 < registerLimit ∧ ∃ words, Grown s s' words ∧ ∀ c, Pool c s' → ∀ m : Machine,
      ∃ m', Clean c words m m' ∧ Within (t + 1) m.heap.size m m' ∧
        m'.registers[t + 2]? = some (.table m.heap.size) ∧
        Holds m'.heap m.heap.size (g Fields.empty) := by
  obtain ⟨hr, -, hgrown⟩ := newTable_ok hnew
  obtain ⟨words, hgrown', hdo⟩ := hfill s₁ s' _ hrun (hgrown.filed hs)
  have hr' := Nat.lt_trans hr (show registerLimit < 256 by decide)
  refine ⟨hr, [.abc .newTable (t + 2) 0 0] ++ words, hgrown.trans hgrown', fun c hc m ↦ ?_⟩
  have hid := tableAt?_newTable m hr'
  obtain ⟨m', hruns, hwithin, hholds⟩ :=
    hdo c hc (m.newTable (t + 2)) m.heap.size Fields.empty hid (Holds.push m.heap)
  refine ⟨m', (clean_newTable hr').append hruns, ?_, ?_, hholds⟩
  · exact (Within.newTable m.heap.size m (Nat.lt_succ_self (t + 1))).trans_new hwithin
      (Nat.le_succ _) (.inl rfl)
  · rwa [← tableAt?_eq_some_iff, hwithin.tableAt? (Nat.le_refl _)]

theorem within_of_new {m m' : Machine} (h : Within (t + 1) m.heap.size m m') {id : Nat}
    {f : Fields} (hf : Holds m.heap id f) : Within t id m m' ∧ Holds m'.heap id f := by
  refine ⟨(Within.refl t id m).trans_new h (Nat.le_succ t) (.inr (Nat.le_refl _)),
    hf.mono fun i u _ hu ↦ ?_⟩
  have hi := (Array.getElem?_eq_some_iff.mp hu).1
  rw [h.heap_eq i hi (Nat.ne_of_lt hi), hu]

theorem fills_tableField (key : Key) {fill : Compiler Unit} {g : Fields → Fields}
    (hfill : Fills (t + 2) fill g) :
    Fills t (tableField t key fill) fun f ↦
      Fields.assign f key.cell (.table (g Fields.empty)) := by
  intro s s' u h hs
  rw [tableField] at h
  obtain ⟨_, s₁, hnew, h⟩ := bind_ok.mp h
  obtain ⟨_, s₂, hrun, hassign⟩ := bind_ok.mp h
  obtain ⟨hr, words, hgrown, hdo⟩ := newTable_fill hfill hnew hrun hs
  have hr' := Nat.lt_trans hr (show registerLimit < 256 by decide)
  obtain ⟨words', hgrown', hdo'⟩ :=
    assign_ok hassign (hgrown.filed hs) (Nat.lt_trans hr' (by decide)) (.inr rfl)
  refine ⟨words ++ words', hgrown.trans hgrown', fun c hc m id f hid hf ↦ ?_⟩
  obtain ⟨m₁, hruns, hnew₁, hregister, hholds⟩ := hdo c (hc.before hgrown') m
  obtain ⟨hwithin, hf₁⟩ := within_of_new hnew₁ hf
  have hid₁ : m₁.tableAt? t = some id := (hwithin.tableAt? (Nat.le_refl t)).trans hid
  have hshows : Shows m₁.heap (id + 1) (m₁.operand c (t + 2)) (.table (g Fields.empty)) := by
    rw [operand_register hr' hregister]
    exact hholds.shows hf.lt_size
  obtain ⟨m₂, hruns', hwithin', hholds'⟩ := hdo' c hc m₁ id f _ hid₁ hf₁ hshows
  exact ⟨m₂, hruns.append hruns', hwithin.trans hwithin', hholds'⟩

theorem fills_vector (key : Key) (xs : List Single)
    (hitems : Content.table (Fields.assignAll Fields.empty (componentContents 1 xs)) = .items xs) :
    Fills t (tableField t key (components (t + 2) 1 xs)) fun f ↦
      Fields.assign f key.cell (.items xs) := by
  have h := fills_tableField key (fills_components (t := t + 2) 1 xs)
  rwa [hitems] at h

mutual

theorem fills_field (t : Nat) (key : Key) : (v : Value) →
    Fills t (field t key v) fun f ↦ Fields.assign f key.cell v.content
  | .int32 _ | .float _ | .scaled _ | .int16 _ | .byte _ => fills_scalarField key (stands_number _)
  | .bool b => fills_scalarField key (stands_bool b)
  | .string s => fills_scalarField key (stands_string s)
  | .vec2 x y => fills_vector key [x, y] rfl
  | .vec3 x y z => fills_vector key [x, y, z] rfl
  | .vec4 x y z w => fills_vector key [x, y, z, w] rfl
  | .table entries => fills_tableField key (fills_fields (t + 2) entries)

theorem fills_fields (t : Nat) : (entries : List (Key × Value)) →
    Fills t (fields t entries) fun f ↦ Fields.assignAll f (entryContents entries)
  | [] => fills_pure t
  | (key, v) :: rest => (fills_field t key v).bind (fills_fields t rest)

end

theorem entryContents_propertyFields (ps : List Property) :
    entryContents (propertyFields ps) = propertyContents ps := by
  induction ps with
  | nil => rfl
  | cons p ps ih =>
    rw [propertyContents, List.map_cons, ← propertyContents, ← ih]
    rfl

theorem fills_properties (t : Nat) (ps : List Property) :
    Fills t (fields t (propertyFields ps)) fun f ↦ Fields.assignAll f (propertyContents ps) := by
  have h := fills_fields t (propertyFields ps)
  rwa [entryContents_propertyFields] at h

theorem operand_name {c : Chunk} {m : Machine} {i : Nat} {k : Constant}
    (hk : c.constants[i]? = some k) (hm : m.registers[1]? = some (.ofConstant k)) :
    (if i ≤ maxOperandConstant then i + constantBase else 1) < 512 ∧
      m.operand c (if i ≤ maxOperandConstant then i + constantBase else 1) = .ofConstant k := by
  split
  · next hi => exact ⟨Nat.add_lt_add_right (Nat.lt_succ_of_le hi) 256, operand_constant hk⟩
  · exact ⟨by decide, operand_register (by decide) hm⟩

/-- A section that is a table of its own: its name waits in register 1 while the table is filled in
register 2. -/
theorem fills_ownSection (name : String) {fill : Compiler Unit} {g : Fields → Fields}
    (hfill : Fills 2 fill g) :
    Fills 0 (do
      let i ← constant (.string name)
      load 1 i
      newTable 2
      fill
      emit (.abc .setTable 0 (if i ≤ maxOperandConstant then i + constantBase else 1) 2)) fun f ↦
      Fields.assign f (.string name) (.table (g Fields.empty)) := by
  intro s s' u h hs
  obtain ⟨i, s₁, hconstant, h⟩ := bind_ok.mp h
  obtain ⟨_, s₂, hload, h⟩ := bind_ok.mp h
  obtain ⟨_, s₃, hnew, h⟩ := bind_ok.mp h
  obtain ⟨_, s₄, hrun, hemit⟩ := bind_ok.mp h
  obtain ⟨hgrown₁, k, hk, hslot⟩ := constant_ok hconstant hs
  obtain rfl := slot_eq_string hslot
  obtain ⟨hr, -, hi, hgrown₂⟩ := load_ok hload
  obtain ⟨hr₂, words, hgrown₃, hdo⟩ :=
    newTable_fill (t := 0) hfill hnew hrun (hgrown₂.filed (hgrown₁.filed hs))
  have hgrown₄ := emit_ok hemit
  refine ⟨[] ++ [.abx .loadK 1 i] ++ words ++ [_],
    ((hgrown₁.trans hgrown₂).trans hgrown₃).trans hgrown₄, fun c hc m id f hid hf ↦ ?_⟩
  have hpool : c.constants[i]? = some (.string name) :=
    ((hc.before hgrown₄).before hgrown₃).before hgrown₂ i _ hk
  have hloaded := Within.setRegister id m (Nat.zero_lt_one) (.string name)
  obtain ⟨m₁, hruns, hnew₁, hregister, hholds⟩ :=
    hdo c (hc.before hgrown₄) (m.setRegister 1 (.string name))
  obtain ⟨hwithin₁, hf₁⟩ := within_of_new hnew₁ (show Holds (m.setRegister 1 _).heap id f from hf)
  have hwithin : Within 0 id m m₁ := hloaded.trans hwithin₁
  have hid₁ : m₁.tableAt? 0 = some id := (hwithin.tableAt? (Nat.le_refl 0)).trans hid
  have hname : m₁.registers[1]? = some (.ofConstant (.string name)) := by
    rw [hnew₁.registers_eq 1 (Nat.le_refl 1), getElem?_setRegister, if_pos ⟨rfl, by decide⟩]
    rfl
  obtain ⟨hx, hkey⟩ := operand_name hpool hname
  have hshows : Shows m₁.heap (id + 1) (m₁.operand c 2) (.table (g Fields.empty)) := by
    rw [operand_register (by decide) hregister]
    exact hholds.shows hf.lt_size
  refine ⟨_, ((clean_loadK (by decide) hi hpool).append hruns).append
    (clean_setTable (by decide) hx (by decide) hid₁ (by rw [hkey]; rfl)),
    hwithin.trans (Within.assign 0 id m₁ _ _), hf₁.assign _ hshows⟩

theorem fills_section (sec : Section) :
    Fills 0 (compileSection sec) fun f ↦ Section.assignTo f sec := by
  by_cases hroot : isRootSection sec.name = true
  · have h := fills_properties 0 sec.properties
    simpa only [compileSection, Section.assignTo, hroot, if_true] using h
  · have h := fills_ownSection sec.name (fills_properties 2 sec.properties)
    simpa only [compileSection, Section.assignTo, hroot, Bool.false_eq_true, if_false] using h

theorem fills_sections (sections : List Section) :
    Fills 0 (compileSections sections) fun f ↦ sections.foldl Section.assignTo f := by
  induction sections with
  | nil => exact fills_pure 0
  | cons sec sections ih => exact (fills_section sec).bind ih

end Compiler

open Compiler

theorem chunk_of_compile {t : Tree} {c : Chunk} (h : compile t = .ok c) :
    ∃ u s, (compileTree t).run {} = .ok (u, s) ∧ s.chunk = c := by
  rw [compile] at h
  cases hrun : (compileTree t).run {} with
  | error e =>
    rw [hrun] at h
    cases h
  | ok r =>
    rw [hrun] at h
    exact ⟨r.1, r.2, rfl, Except.ok.inj h⟩

theorem prototypes_of_compile {t : Tree} {c : Chunk} (h : compile t = .ok c) :
    c.prototypes = [] := by
  obtain ⟨u, s, -, rfl⟩ := chunk_of_compile h
  rfl

/-- The code of a tree makes the root table, assigns its sections without a fault, and returns. -/
theorem compile_clean {t : Tree} {c : Chunk} (h : compile t = .ok c) :
    ∃ words, c.code = [.abc .newTable 0 0 0] ++ words ++ [.abc .ret 0 2 0] ∧
      ∀ m id f, m.tableAt? 0 = some id → Holds m.heap id f →
        ∃ m', Clean c words m m' ∧ Within 0 id m m' ∧
          Holds m'.heap id (t.sections.foldl Section.assignTo f) := by
  obtain ⟨u, s, hrun, rfl⟩ := chunk_of_compile h
  obtain ⟨_, s₁, hnew, htree⟩ := bind_ok.mp hrun
  obtain ⟨_, s₂, hsections, hemit⟩ := bind_ok.mp htree
  have hgrown₁ := (newTable_ok hnew).2.2
  have hgrown₃ := emit_ok hemit
  obtain ⟨words, hgrown₂, hdo⟩ :=
    fills_sections t.sections s₁ s₂ _ hsections (hgrown₁.filed filed_empty)
  have hpool : Pool s.chunk s := fun _ _ hk ↦ hk
  have hgrown := (hgrown₁.trans hgrown₂).trans hgrown₃
  exact ⟨words, hgrown.code_eq, hdo s.chunk (hpool.before hgrown₃)⟩

theorem compile_ok {t : Tree} {c : Chunk} (h : compile t = .ok c) :
    ∃ words, c.code = [.abc .newTable 0 0 0] ++ words ++ [.abc .ret 0 2 0] ∧
      ∀ m id f, m.tableAt? 0 = some id → Holds m.heap id f →
        ∃ m', Runs c words m m' ∧ Within 0 id m m' ∧
          Holds m'.heap id (t.sections.foldl Section.assignTo f) := by
  obtain ⟨words, hcode, hdo⟩ := compile_clean h
  refine ⟨words, hcode, fun m id f hid hf ↦ ?_⟩
  obtain ⟨m', hclean, hwithin, hholds⟩ := hdo m id f hid hf
  exact ⟨m', hclean.runs, hwithin, hholds⟩

/-- Compiled code leaves in register 0 a table that shows the content of its tree, in new tables
alone. Globals, and the tables that were there before, stay as they are. -/
theorem compile_correct (t : Tree) (c : Chunk) (h : compile t = .ok c) (m : Machine) :
    (m.run c).globals = m.globals ∧
      (∀ i < m.heap.size, (m.run c).heap[i]? = m.heap[i]?) ∧
      ∃ id, (m.run c).registers[0]? = some (.table id) ∧
        Shows (m.run c).heap m.heap.size (.table id) t.content := by
  obtain ⟨words, hcode, hdo⟩ := compile_ok h
  have hid := tableAt?_newTable (r := 0) m (by decide)
  obtain ⟨m', hruns, hwithin, hholds⟩ := hdo (m.newTable 0) m.heap.size Fields.empty hid
    (Holds.push m.heap)
  have hrun : m.run c = m' := by
    rw [Machine.run, hcode, (runs_newTable (by decide)).append hruns, runCode_ret (by decide)]
  rw [hrun]
  refine ⟨hwithin.globals_eq, fun i hi ↦ ?_, m.heap.size, ?_, hholds.shows (Nat.le_refl _)⟩
  · have hpush : (m.newTable 0).heap = m.heap.push ∅ := rfl
    rw [hwithin.heap_eq i (by rw [hpush, Array.size_push]; omega) (Nat.ne_of_lt hi), hpush,
      Array.getElem?_push, if_neg (Nat.ne_of_lt hi)]
  · rw [← tableAt?_eq_some_iff, hwithin.tableAt? (Nat.le_refl 0)]
    exact hid

def nestedTree : Tree :=
  ⟨2, [⟨0, "Main Chunk", [⟨1, some "a", .bool true, .bool⟩]⟩,
    ⟨0, "S", [⟨2, some "b", .table [(.name "a", .bool true)], .table⟩]⟩]⟩

def nestedChunk : Chunk where
  source := some generatedSource
  varargFlags := 2
  stackSize := 5
  code := [.abc .newTable 0 0 0, .abc .setTable 0 257 256, .abx .loadK 1 2, .abc .newTable 2 0 0,
    .abc .newTable 4 0 0, .abc .setTable 4 257 256, .abc .setTable 2 259 4,
    .abc .setTable 0 258 2, .abc .ret 0 2 0]
  constants := #[.bool true, .string "a", .string "S", .string "b"]

theorem compile_nestedTree : compile nestedTree = .ok nestedChunk := by
  have hroot : isRootSection "Main Chunk" = true := by decide
  have hown : isRootSection "S" = false := by decide
  have ha : Key.ofText "a" = .name "a" := by decide
  have hb : Key.ofText "b" = .name "b" := by decide
  simp [compile, compileTree, compileSections, compileSection, nestedTree, nestedChunk, hroot,
    hown, propertyFields, fields, field, Property.displayName, scalarField, tableField,
    Compiler.assign, constant_apply, constantOperand, load, touch_apply, emit_apply,
    Compiler.newTable, Build.chunk, ha, hb, keyConstant, Constant.slot, bind, StateT.bind,
    StateT.run, Except.bind, pure_apply, registerLimit, maxOperandConstant, maxBx, constantBase,
    Functor.map, Except.map, Std.HashMap.getElem_insert]

theorem nestedChunk_correct : compile nestedTree = .ok nestedChunk ∧
    (fresh.run nestedChunk).globals = fresh.globals ∧
    (∀ i < fresh.heap.size, (fresh.run nestedChunk).heap[i]? = fresh.heap[i]?) ∧
    ∃ id, (fresh.run nestedChunk).registers[0]? = some (.table id) ∧
      Shows (fresh.run nestedChunk).heap fresh.heap.size (.table id) nestedTree.content :=
  ⟨compile_nestedTree, compile_correct nestedTree nestedChunk compile_nestedTree fresh⟩

end PropertyFile.Bytecode
