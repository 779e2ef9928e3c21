import PropertyFile.Proofs.Document.Reopening
import PropertyFile.Proofs.Number.Indexes
import PropertyFile.Proofs.StableSort

namespace PropertyFile

open Number Machine Bytecode Bytecode.Compiler StableSort

/-- A number as tables keep it: an integer if it is one of 32 bits, else itself, or the one NaN. -/
def Number.Single.lower (x : Single) : Value :=
  match x.datum.toInt? with
  | some n =>
    if Int32.minValue.toInt ≤ n ∧ n ≤ Int32.maxValue.toInt then .int32 (.ofInt n) else .float x
  | none => .float (if x.datum = .nan then .ofDatum .nan else x)

def vectorTable (xs : List Single) : Value :=
  .table (xs.mapIdx fun i x ↦ (.index (.ofInt (i + 1 : Nat)), x.lower))

mutual

def Value.lower : Value → Value
  | .int32 n => .int32 n
  | .float x => x.lower
  | .scaled x => x.lower
  | .int16 n => .int32 (.ofInt n.toInt)
  | .byte n => .int32 (.ofInt n.toNat)
  | .bool b => .bool b
  | .vec2 x y => vectorTable [x, y]
  | .vec3 x y z => vectorTable [x, y, z]
  | .vec4 x y z w => vectorTable [x, y, z, w]
  | .string s => .string s
  | .table entries => .table (lowerEntries entries)

def lowerEntries : List (Key × Value) → List (Key × Value)
  | [] => []
  | (key, v) :: rest => (key, v.lower) :: lowerEntries rest

end

def Property.key (p : Property) : Key := .ofText p.displayName

def Property.lower (inSection : String) (p : Property) : Property :=
  ⟨pairHash inSection p.key.text, some p.key.text, p.value.lower, p.value.lower.tag⟩

def Section.lower (s : Section) : Section :=
  { Section.named s.name with
    properties := (sortBy Key.order Property.key s.properties).map (Property.lower s.name) }

def Tree.lower (t : Tree) : Tree :=
  { Tree.empty with sections := (sortBy compare Section.name t.sections).map Section.lower }

/-- A key whose index, if it has one, is a double of its own. -/
def Key.Exact : Key → Prop
  | index i => i.toInt.natAbs ≤ 2 ^ 53
  | name _ => True

/-- A value whose tables have their entries in order, under exact keys. -/
inductive Value.Keyed : Value → Prop
  | single {v : Value} (h : v.tag ≠ .table) : Keyed v
  | table {entries : List (Key × Value)} (inOrder : InOrder Key.order entries)
    (exact : ∀ e ∈ entries, e.1.Exact) (values : ∀ e ∈ entries, Keyed e.2) :
    Keyed (.table entries)

/-- A section of its own that has one property for each of its keys. -/
structure Section.Lowerable (s : Section) : Prop where
  unmarked : isRootSection s.name = false
  distinct : (s.properties.map Property.key).Nodup
  exact : ∀ p ∈ s.properties, p.key.Exact
  keyed : ∀ p ∈ s.properties, p.value.Keyed

structure Tree.Lowerable (t : Tree) : Prop where
  distinct : (t.sections.map Section.name).Nodup
  sections : ∀ s ∈ t.sections, s.Lowerable

namespace Key

variable {k k' : Key}

theorem toKey_cell (h : k.Exact) : k.cell.toKey = k := by
  cases k with
  | index i =>
    have hmax : Int64.maxValue.toInt = 9223372036854775807 := rfl
    have hrange : (i.toInt.natAbs : Int) ≤ Int64.maxValue.toInt := by
      simp only [Exact] at h
      omega
    rw [cell, CellKey.toKey, Double.toInt?_ofInt_of_le h]
    simp only [if_pos hrange, Int64.ofInt_toInt]
  | name s => rfl

theorem name_cell (h : k.Exact) : k.cell.name = k.text := by
  cases k with
  | index i => rw [cell, CellKey.name, Double.text_ofInt h, text]
  | name s => rfl

theorem order_cell (h : k.Exact) (h' : k'.Exact) (hlt : order k k' = .lt) :
    CellKey.order k.cell k'.cell = .lt := by
  cases k with
  | index i =>
    cases k' with
    | index j =>
      have hij : i.toInt < j.toInt := Int64.lt_iff_toInt_lt.mp (Std.compare_eq_lt.mp hlt)
      exact Std.compare_eq_lt.mpr (Double.rank_ofInt_lt hij h h')
    | name t => rfl
  | name s =>
    cases k' with
    | index j => cases hlt
    | name t => exact hlt

end Key

theorem lowerEntries_eq_map (entries : List (Key × Value)) :
    lowerEntries entries = entries.map fun e ↦ (e.1, e.2.lower) := by
  induction entries with
  | nil => rfl
  | cons e entries ih => rw [lowerEntries, ih, List.map_cons]

theorem narrow_widen_of_integer {x : Single} {n : Int} (h : x.datum.toInt? = some n) :
    x.widen.narrow = x := by
  apply Single.narrow_widen
  intro hnan
  rw [hnan] at h
  cases h

theorem numberValue_widen (x : Single) : numberValue x.widen = x.lower := by
  rw [numberValue, Single.toInt?_widen, Single.lower]
  cases hint : x.datum.toInt? with
  | some n => rw [narrow_widen_of_integer hint]
  | none =>
    dsimp only
    split
    · next hnan =>
      rw [Single.widen, hnan]
      exact congrArg Value.float (by decide)
    · next hnan => rw [Single.narrow_widen fun h ↦ (hnan h).elim]

theorem numberValue_ofInt {n : Int} (hlow : -32768 ≤ n) (hhigh : n < 32768) :
    numberValue (.ofInt n) = .int32 (.ofInt n) := by
  have hmin : Int32.minValue.toInt = -2147483648 := rfl
  have hmax : Int32.maxValue.toInt = 2147483647 := rfl
  exact numberValue_of_isInt32 (Double.toInt?_ofInt_of_lt (by omega)) (by omega) (by omega)

def floatEntries (xs : List Single) : List (Key × Value) :=
  xs.mapIdx fun i x ↦ (.index (.ofInt (i + 1 : Nat)), .float x)

theorem toInt_item {i : Nat} (h : i < 4) : (Int64.ofInt (i + 1 : Nat)).toInt = (i + 1 : Nat) :=
  Int64.toInt_ofInt_of_le (by omega) (by omega)

theorem inOrder_floatEntries {xs : List Single} (h : xs.length ≤ 4) :
    InOrder Key.order (floatEntries xs) := by
  rw [InOrder, floatEntries, List.pairwise_iff_getElem]
  intro i j hi hj hij
  simp only [List.length_mapIdx] at hi hj
  simp only [List.getElem_mapIdx, Key.order, Std.compare_eq_lt, Int64.lt_iff_toInt_lt]
  rw [toInt_item (by omega), toInt_item (by omega)]
  omega

theorem mem_floatEntries {xs : List Single} {e : Key × Value} (he : e ∈ floatEntries xs) :
    ∃ i x, i < xs.length ∧ e = (.index (.ofInt (i + 1 : Nat)), .float x) := by
  obtain ⟨i, hi, rfl⟩ := List.mem_mapIdx.mp he
  exact ⟨i, xs[i], hi, rfl⟩

theorem exact_floatEntries {xs : List Single} (h : xs.length ≤ 4) :
    ∀ e ∈ floatEntries xs, e.1.Exact := by
  intro e he
  obtain ⟨i, x, hi, rfl⟩ := mem_floatEntries he
  simp only [Key.Exact]
  rw [toInt_item (by omega)]
  omega

theorem itemEchoes_eq {xs : List Single} (h : xs.length ≤ 4) :
    itemEchoes xs = entryEchoes (floatEntries xs) := by
  rw [entryEchoes_eq_map, itemEchoes, floatEntries, map_mapIdx]
  apply List.ext_getElem
  · simp only [List.length_mapIdx]
  · intro i hi hi'
    simp only [List.length_mapIdx] at hi
    simp only [List.getElem_mapIdx, Key.cell, Value.echo]
    rw [toInt_item (by omega)]

theorem echo_floatEntries {xs : List Single} (h : xs.length ≤ 4) :
    tableFrom (itemEchoes xs) = vectorTable xs := by
  have hecho := echo_table (inOrder_floatEntries h) fun e he ↦
    Key.toKey_cell (exact_floatEntries h e he)
  rw [itemEchoes_eq h]
  apply hecho.trans
  simp only [floatEntries, vectorTable, map_mapIdx, Value.echo, numberValue_widen]

theorem Value.Keyed.echo_eq_lower {v : Value} (h : v.Keyed) : v.echo = v.lower := by
  induction h with
  | @single v h =>
    cases v with
    | int32 n => exact echo_int32 n
    | float x => exact numberValue_widen x
    | scaled x => exact numberValue_widen x
    | int16 n => exact numberValue_ofInt n.le_toInt n.toInt_lt
    | byte n =>
      have hlt := n.toNat_lt
      exact numberValue_ofInt (by omega) (by omega)
    | bool b => rfl
    | vec2 | vec3 | vec4 => exact echo_floatEntries (by simp)
    | string s => rfl
    | table entries => exact (h rfl).elim
  | @table entries inOrder exact values ih =>
    rw [echo_table inOrder fun e he ↦ Key.toKey_cell (exact e he), lower, lowerEntries_eq_map]
    have hmap : entries.map (fun e ↦ (e.1, e.2.echo)) = entries.map fun e ↦ (e.1, e.2.lower) := by
      apply List.map_congr_left
      intro e he
      rw [ih e he]
    rw [hmap]

namespace Section.Lowerable

variable {s : Section}

theorem gather_entries (h : s.Lowerable) : (PropertyFile.gather s.entries).toList =
    (sortBy Key.order Property.key s.properties).map fun p ↦ (p.cell, p.value) := by
  have hperm := sortBy_perm Key.order Property.key s.properties
  apply InOrder.gather_of_perm
  · apply List.pairwise_map.mpr
    refine (pairwise_sortBy h.distinct).imp_of_mem ?_
    intro p q hp hq hlt
    exact Key.order_cell (h.exact p (hperm.mem_iff.mp hp)) (h.exact q (hperm.mem_iff.mp hq)) hlt
  · exact hperm.map _

theorem keyedProperty_eq (h : s.Lowerable) {p : Property} (hp : p ∈ s.properties) :
    keyedProperty s.name (p.cell, p.value.echo) = p.lower s.name := by
  have hname : p.cell.name = p.key.text := Key.name_cell (h.exact p hp)
  rw [keyedProperty, (h.keyed p hp).echo_eq_lower, hname]
  rfl

theorem sectionFrom_eq (h : s.Lowerable) : sectionFrom s.name s.entries = s.lower := by
  rw [sectionFrom, h.gather_entries, List.map_map, lower]
  congr 1
  apply List.map_congr_left
  intro p hp
  exact h.keyedProperty_eq ((sortBy_perm Key.order Property.key s.properties).mem_iff.mp hp)

end Section.Lowerable

namespace Tree.Lowerable

variable {t : Tree}

theorem gather_rootEntries (h : t.Lowerable) : (gather t.rootEntries).toList =
    (sortBy compare Section.name t.sections).map Section.ownEntry := by
  have hentries : t.rootEntries = t.sections.map Section.ownEntry :=
    flatMap_rootEntries fun s hs ↦ (h.sections s hs).unmarked
  rw [hentries]
  apply InOrder.gather_of_perm
  · have hsorted : (sortBy compare Section.name t.sections).Pairwise fun a b ↦
        compare a.name b.name = .lt := pairwise_sortBy h.distinct
    exact List.pairwise_map.mpr hsorted
  · exact (sortBy_perm compare Section.name t.sections).map _

theorem echoGlobals_eq (h : t.Lowerable) : t.echoGlobals = [] := by
  have hscalars : (gather t.rootEntries).toList.filter (·.2.isScalar) = [] := by
    rw [h.gather_rootEntries]
    apply List.filter_eq_nil_iff.mpr
    intro e he
    obtain ⟨s, -, rfl⟩ := List.mem_map.mp he
    rw [isScalar_ownEntry]
    decide
  rw [echoGlobals, hscalars, List.map_nil]

theorem echoSections_eq (h : t.Lowerable) :
    t.echoSections = (sortBy compare Section.name t.sections).map Section.lower := by
  rw [echoSections, h.gather_rootEntries, List.filterMap_map, ← List.filterMap_eq_map]
  apply List.filterMap_congr
  intro s hs
  have hmem := (sortBy_perm compare Section.name t.sections).mem_iff.mp hs
  rw [Function.comp_apply, Section.entrySection_ownEntry, (h.sections s hmem).sectionFrom_eq]
  rfl

theorem echo_eq (h : t.Lowerable) : t.echo = t.lower := by
  rw [echo, h.echoGlobals_eq, h.echoSections_eq]
  rfl

end Tree.Lowerable

theorem tree_run_lowered {t : Tree} {c : Chunk} (ht : t.Lowerable) (hc : compile t = .ok c) :
    (fresh.run c).tree = t.lower := by
  rw [tree_run_compile hc, ht.echo_eq]

/-- What compiled code builds is the lowered tree. That is also what is read from the bytes of the
code, unless one of its lengths is cut off because it does not fit its field. -/
theorem compile_lowers {t : Tree} {c : Chunk} (ht : t.Lowerable) (hc : compile t = .ok c) :
    (fresh.run c).tree = t.lower ∧
      (c.Sized → Document.decodeChunk (encode c) = .ok t.lower) := by
  constructor
  · exact tree_run_lowered ht hc
  · intro hsized
    rw [Document.decodeChunk, decode_encode_compile hc hsized]
    exact congrArg Except.ok (tree_run_lowered ht hc)

def unorderedTree : Tree :=
  ⟨2, [⟨0, "T", []⟩,
    ⟨0, "S", [⟨0, some "b", .byte 7, .byte⟩, ⟨0, some "[01]", .bool true, .bool⟩]⟩]⟩

def unorderedChunk : Chunk where
  source := some generatedSource
  varargFlags := 2
  stackSize := 3
  code := [.abc .newTable 0 0 0, .abx .loadK 1 0, .abc .newTable 2 0 0, .abc .setTable 0 256 2,
    .abx .loadK 1 1, .abc .newTable 2 0 0, .abc .setTable 2 259 258, .abc .setTable 2 261 260,
    .abc .setTable 0 257 2, .abc .ret 0 2 0]
  constants := #[.string "T", .string "S", .number (.ofInt 7), .string "b", .bool true,
    .number (.ofInt 1)]

theorem isRootSection_unordered : isRootSection "T" = false ∧ isRootSection "S" = false := by
  decide

theorem ofText_unordered : Key.ofText "[01]" = .index 1 ∧ Key.ofText "b" = .name "b" := by
  decide

theorem compile_unorderedTree : compile unorderedTree = .ok unorderedChunk := by
  obtain ⟨hempty, hown⟩ := isRootSection_unordered
  obtain ⟨hindex, hname⟩ := ofText_unordered
  have hseven : (Double.ofInt 7).isZero = false := by decide
  have hone : (Double.ofInt 1).isZero = false := by decide
  have hne : Double.ofInt 7 ≠ Double.ofInt 1 := by decide
  simp [compile, compileTree, compileSections, compileSection, unorderedTree, unorderedChunk,
    hempty, hown, propertyFields, fields, field, Property.displayName, scalarField,
    Compiler.assign, constant_apply, constantOperand, load, touch_apply, emit_apply,
    Compiler.newTable, Build.chunk, hindex, hname, keyConstant, Constant.slot, bind, StateT.bind,
    StateT.run, Except.bind, pure_apply, registerLimit, maxOperandConstant, maxBx, constantBase,
    Functor.map, Except.map, hseven, hone, hne]

theorem sized_unorderedChunk : unorderedChunk.Sized := by
  constructor <;> simp [unorderedChunk, generatedSource, LengthFits, NameFits, TextFits,
    Constant.Fits] <;> decide

theorem lower_unorderedTree : unorderedTree.lower = ⟨2, [⟨nameHash "S", "S",
    [⟨pairHash "S" "[1]", some "[1]", .bool true, .bool⟩,
      ⟨pairHash "S" "b", some "b", .int32 7, .int32⟩]⟩, ⟨nameHash "T", "T", []⟩]⟩ := by
  obtain ⟨hindex, hname⟩ := ofText_unordered
  have hsections : compare "T" "S" = .gt := by decide
  have htext : (Key.index 1).text = "[1]" := by decide
  have hkept : (Key.name "b").text = "b" := rfl
  simp [Tree.lower, Section.lower, sortBy, unorderedTree, List.mergeSort,
    List.MergeSort.Internal.splitInTwo, hsections, Property.key, Property.displayName, hindex,
    hname, Key.order, Tree.empty, formatVersion, Section.named, Property.lower, Value.lower,
    htext, hkept, Value.tag]

theorem lowerable_unorderedTree : unorderedTree.Lowerable := by
  obtain ⟨hempty, hown⟩ := isRootSection_unordered
  obtain ⟨hindex, hname⟩ := ofText_unordered
  constructor
  · decide
  · intro s hs
    simp only [unorderedTree, List.mem_cons, List.not_mem_nil, or_false] at hs
    rcases hs with rfl | rfl
    · constructor <;> simp [hempty]
    · constructor
      · exact hown
      · simp [Property.key, Property.displayName, hindex, hname]
      · have hexact : (Key.index 1).Exact ∧ (Key.name "b").Exact :=
          ⟨show (1 : Nat) ≤ 2 ^ 53 by decide, trivial⟩
        simp [Property.key, Property.displayName, hindex, hname, hexact]
      · simp only [List.forall_mem_cons]
        exact ⟨.single (by decide), .single (by decide), by simp⟩

theorem unorderedTree_lowered : unorderedTree.Lowerable ∧
    compile unorderedTree = .ok unorderedChunk ∧ unorderedChunk.Sized ∧
    Document.decodeChunk (encode unorderedChunk) = .ok ⟨2, [⟨nameHash "S", "S",
      [⟨pairHash "S" "[1]", some "[1]", .bool true, .bool⟩,
        ⟨pairHash "S" "b", some "b", .int32 7, .int32⟩]⟩, ⟨nameHash "T", "T", []⟩]⟩ := by
  have hlowers := compile_lowers lowerable_unorderedTree compile_unorderedTree
  rw [lower_unorderedTree] at hlowers
  exact ⟨lowerable_unorderedTree, compile_unorderedTree, sized_unorderedChunk,
    hlowers.2 sized_unorderedChunk⟩

def zeros (n : Nat) : String := .ofList (List.replicate n '\x00')

def zerosTree (n : Nat) : Tree := ⟨2, [⟨0, "A", [⟨0, some "A", .string (zeros n), .string⟩]⟩]⟩

def zerosChunk (n : Nat) : Chunk where
  source := some generatedSource
  varargFlags := 2
  stackSize := 3
  code := [.abc .newTable 0 0 0, .abx .loadK 1 0, .abc .newTable 2 0 0, .abc .setTable 2 256 257,
    .abc .setTable 0 256 2, .abc .ret 0 2 0]
  constants := #[.string "A", .string (zeros n)]

theorem zeros_ne (n : Nat) : zeros n ≠ "A" := by
  intro h
  have hlist : List.replicate n '\x00' = ['A'] := by
    rw [← String.toList_ofList (l := List.replicate n '\x00')]
    exact congrArg String.toList h
  have hmem : 'A' ∈ List.replicate n '\x00' := hlist ▸ List.mem_singleton_self _
  exact absurd (List.eq_of_mem_replicate hmem) (by decide)

theorem zeros_injective {n n' : Nat} (h : zeros n = zeros n') : n = n' := by
  have hlength := congrArg (fun s : String ↦ s.toList.length) h
  simpa only [zeros, String.toList_ofList, List.length_replicate] using hlength

theorem utf8_zeros (n : Nat) : Text.utf8 (zeros n) = List.replicate n 0 := by
  have hzero : String.utf8EncodeChar '\x00' = [0] := by decide
  rw [Text.utf8, zeros, String.toList_ofList, List.flatMap_replicate, hzero,
    List.flatten_replicate_singleton]

theorem isRootSection_zeros : isRootSection "A" = false := by decide

theorem ofText_zeros : Key.ofText "A" = .name "A" := by decide

theorem compile_zerosTree (n : Nat) : compile (zerosTree n) = .ok (zerosChunk n) := by
  have hne := zeros_ne n
  have hne' := hne.symm
  simp [compile, compileTree, compileSections, compileSection, zerosTree, zerosChunk,
    isRootSection_zeros, propertyFields, fields, field, Property.displayName, scalarField,
    Compiler.assign, constant_apply, constantOperand, load, touch_apply, emit_apply,
    Compiler.newTable, Build.chunk, ofText_zeros, keyConstant, Constant.slot, bind, StateT.bind,
    StateT.run, Except.bind, pure_apply, registerLimit, maxOperandConstant, maxBx, constantBase,
    Functor.map, Except.map, Std.HashMap.getElem_insert, hne, hne']

theorem lowerable_zerosTree (n : Nat) : (zerosTree n).Lowerable where
  distinct := List.nodup_singleton _
  sections := by
    refine List.forall_mem_singleton.mpr ⟨isRootSection_zeros, List.nodup_singleton _, ?_, ?_⟩
    · refine List.forall_mem_singleton.mpr ?_
      have hkey : Property.key ⟨0, some "A", .string (zeros n), .string⟩ = .name "A" := ofText_zeros
      rw [hkey]
      trivial
    · exact List.forall_mem_singleton.mpr (.single nofun)

theorem lower_zerosTree (n : Nat) : (zerosTree n).lower =
    ⟨2, [⟨nameHash "A", "A", [⟨pairHash "A" "A", some "A", .string (zeros n), .string⟩]⟩]⟩ := by
  have htext : (Key.name "A").text = "A" := rfl
  simp [Tree.lower, Section.lower, sortBy, zerosTree, Property.key, Property.displayName,
    ofText_zeros, Tree.empty, formatVersion, Section.named, Property.lower, Value.lower, htext,
    Value.tag]

def zerosFront : List UInt8 :=
  preamble ++ (stringBytes (some generatedSource) ++ intBytes 0 ++ intBytes 0 ++ [0, 0, 2, 3] ++
    countBytes 6 ++ (zerosChunk 0).code.flatMap (fun w ↦ leBytes 4 w.toNat) ++ countBytes 2 ++
    (Constant.string "A").bytes ++ [4])

theorem encode_zerosChunk (n : Nat) :
    encode (zerosChunk n) = zerosFront ++ (leBytes 4 (n + 1) ++ List.replicate (n + 17) 0) := by
  have htext : stringBytes (some (zeros n)) = leBytes 4 (n + 1) ++ List.replicate (n + 1) 0 := by
    rw [stringBytes, utf8_zeros, List.length_replicate, List.append_assoc]
    exact congrArg _ List.replicate_succ'.symm
  have hcounts : countBytes 0 ++ countBytes 0 ++ countBytes 0 ++ countBytes 0 =
      List.replicate 16 0 := rfl
  have hsplit : List.replicate (n + 17) (0 : UInt8) =
      List.replicate (n + 1) 0 ++
        (countBytes 0 ++ countBytes 0 ++ countBytes 0 ++ countBytes 0) := by
    rw [hcounts, List.replicate_append_replicate]
  rw [hsplit]
  simp only [encode, zerosChunk, Chunk.body, zerosFront, bodies, List.flatMap_cons,
    List.flatMap_nil, Constant.bytes, htext, List.append_assoc, List.cons_append, List.nil_append,
    List.append_nil, List.length_cons, List.length_nil, List.size_toArray]

/-- Where the length is cut to that of no text, the first zero ends the text, and as many as there
were in the text stand behind what is read. -/
theorem encode_zerosChunk_cut {n : Nat} (h : leBytes 4 (n + 1) = leBytes 4 1) :
    encode (zerosChunk n) = encode (zerosChunk 0) ++ List.replicate n 0 := by
  rw [encode_zerosChunk, encode_zerosChunk, h, List.append_assoc, List.append_assoc,
    List.replicate_append_replicate, Nat.zero_add, Nat.zero_add, Nat.add_comm]

theorem sized_zerosChunk : (zerosChunk 0).Sized := by
  constructor <;> simp [zerosChunk, zeros, generatedSource, LengthFits, NameFits, TextFits,
    Constant.Fits] <;> decide

/-- A text whose length does not fit its field is written, and no text is read in its place. -/
theorem zerosTree_cut : (zerosTree 4294967296).Lowerable ∧
    compile (zerosTree 4294967296) = .ok (zerosChunk 4294967296) ∧
    Document.decodeChunk (encode (zerosChunk 4294967296)) = .ok (zerosTree 0).lower ∧
    (zerosTree 0).lower ≠ (zerosTree 4294967296).lower := by
  refine ⟨lowerable_zerosTree _, compile_zerosTree _, ?_, fun h ↦ ?_⟩
  · have hreads : Reader.Reads Decoder.file (encode (zerosChunk 0)) (zerosChunk 0) :=
      Decoder.reads_file (Decoder.reads_chunk sized_zerosChunk maxNesting (by decide))
    rw [encode_zerosChunk_cut (by decide), Document.decodeChunk, decode_append hreads]
    exact congrArg Except.ok (tree_run_lowered (lowerable_zerosTree 0) (compile_zerosTree 0))
  · rw [lower_zerosTree, lower_zerosTree] at h
    simp only [Tree.mk.injEq, List.cons.injEq, Section.mk.injEq, Property.mk.injEq,
      Value.string.injEq, true_and, and_true] at h
    exact absurd (zeros_injective h) (by decide)

end PropertyFile
