import PropertyFile.Document
import PropertyFile.Proofs.Bytecode.Compiled
import PropertyFile.Proofs.Bytecode.RoundTrip
import PropertyFile.Proofs.Machine.Fixed

namespace PropertyFile

open Number Machine Bytecode Bytecode.Compiler

theorem Section.propertyContents_eq (s : Section) :
    propertyContents s.properties = s.entries.map fun e ↦ (e.1, e.2.content) := by
  rw [propertyContents, Section.entries, List.map_map]
  rfl

theorem Section.assignTo_eq (root : Fields) (s : Section) :
    Section.assignTo root s = root.assignAll (s.rootEntries.map fun e ↦ (e.1, e.2.content)) := by
  rw [Section.assignTo, Section.rootEntries]
  split
  · rw [Section.propertyContents_eq]
  · rw [List.map_singleton, Value.content, entryContents_propertyFields]
    rfl

theorem Tree.fields_eq (t : Tree) : t.sections.foldl Section.assignTo Fields.empty =
    Fields.assignAll Fields.empty (t.rootEntries.map fun e ↦ (e.1, e.2.content)) := by
  have hfold : ∀ sections f, List.foldl Section.assignTo f sections = Fields.assignAll f
      ((sections.flatMap Section.rootEntries).map fun e ↦ (e.1, e.2.content)) := by
    intro sections
    induction sections with
    | nil => exact fun _ ↦ rfl
    | cons s sections ih =>
      intro f
      rw [List.foldl_cons, ih, Section.assignTo_eq, List.flatMap_cons, List.map_append,
        Fields.assignAll, Fields.assignAll, Fields.assignAll, List.foldl_append]
  exact hfold t.sections Fields.empty

theorem tree_run_compile {t : Tree} {c : Chunk} (h : compile t = .ok c) :
    (fresh.run c).tree = t.echo := by
  obtain ⟨words, hcode, hdo⟩ := compile_ok h
  have hid : (fresh.newTable 0).tableAt? 0 = some fresh.heap.size :=
    tableAt?_newTable fresh (by decide)
  obtain ⟨m, hruns, hwithin, root, hroot, hhas⟩ := hdo _ _ Fields.empty hid (Holds.push fresh.heap)
  have hrun : fresh.run c = m := by
    rw [Machine.run, hcode, (runs_newTable (by decide)).append hruns, runCode_ret (by decide)]
  have hglobals : m.globals.isEmpty = true := by
    rw [hwithin.globals_eq]
    exact Std.ExtTreeMap.isEmpty_empty
  rw [Tree.fields_eq] at hhas
  rw [hrun, Machine.tree, if_pos hglobals, hwithin.tableAt? (Nat.le_refl 0), hid]
  dsimp only
  rw [getD_of_getElem? hroot, treeOf_of_has hhas]

theorem decode_encode_compile {t : Tree} {c : Chunk} (h : compile t = .ok c) (hsized : c.Sized) :
    decode (encode c) = .ok c := by
  refine decode_encode_of_sized hsized ?_
  rw [nesting_le_iff, prototypes_of_compile h]
  exact fun p hp ↦ (List.not_mem_nil hp).elim

namespace Document

variable {s : Storage} {o : Options} {bytes : List UInt8} {d : Document} {t : Tree} {c : Chunk}

theorem ofBytes_luaobj_iff : ofBytes s o .luaobj bytes = .ok d ↔
    ∃ c, decode bytes = .ok c ∧ d = ⟨.luaobj, (fresh.run c).tree, .empty, none⟩ := by
  have hopen : ofBytes s o .luaobj bytes =
      (decodeChunk bytes).map fun t ↦ ⟨.luaobj, t, .empty, none⟩ := rfl
  rw [hopen, decodeChunk]
  cases decode bytes with
  | error e => simp [Except.map]
  | ok c => simp [Except.map, eq_comm]

theorem toBytes_luaobj_iff (hk : d.kind = .luaobj) :
    d.toBytes = .ok bytes ↔ ∃ c, compile d.tree = .ok c ∧ encode c = bytes := by
  rw [toBytes, written, hk]
  cases compile d.tree with
  | error e => simp
  | ok c => simp

theorem ofBytes_encode (h : compile t = .ok c) (hsized : c.Sized) :
    ofBytes s o .luaobj (encode c) = .ok ⟨.luaobj, t.echo, .empty, none⟩ := by
  apply ofBytes_luaobj_iff.mpr
  exact ⟨c, decode_encode_compile h hsized, by rw [tree_run_compile h]⟩

/-- A tree that was read, written and read again comes back as its echo, and so as itself just when
it is settled. -/
theorem reopened_eq_iff (bytes written : List UInt8) (s s' : Storage) (o o' : Options)
    (d : Document) (hd : ofBytes s o .luaobj bytes = .ok d) (hw : d.toBytes = .ok written)
    (hsized : ∀ c, compile d.tree = .ok c → c.Sized) :
    ofBytes s' o' .luaobj written = .ok { d with tree := d.tree.echo } ∧
      (d.tree.echo = d.tree ↔ d.tree.Settled) := by
  obtain ⟨c₀, -, rfl⟩ := ofBytes_luaobj_iff.mp hd
  obtain ⟨c, hcompile, rfl⟩ := (toBytes_luaobj_iff rfl).mp hw
  constructor
  · exact ofBytes_encode hcompile (hsized c hcompile)
  · exact (read_tree _).echo_eq_iff

def settledTree : Tree :=
  ⟨2, [{ Section.named "Lua Globals" with
      properties := [keyedProperty "Lua Globals" (.string "a", .bool true)] },
    { Section.named "S" with
      properties := [keyedProperty "S" (.string "b", .table [(.name "a", .bool true)])] }]⟩

theorem compile_settledTree : compile settledTree = .ok nestedChunk := by
  have hroot : isRootSection "Lua Globals" = isRootSection "Main Chunk" := by decide
  rw [← compile_nestedTree]
  simp only [compile, compileTree, compileSections, compileSection, settledTree, nestedTree,
    Section.named, hroot]
  rfl

theorem echo_settledTree : settledTree.echo = settledTree := rfl

theorem sized_nestedChunk : nestedChunk.Sized := by
  constructor <;> simp [nestedChunk, generatedSource, LengthFits, NameFits, TextFits,
    Constant.Fits] <;> decide

theorem settledTree_reopened :
    ofBytes {} .bare .luaobj (encode nestedChunk) = .ok ⟨.luaobj, settledTree, .empty, none⟩ ∧
      toBytes ⟨.luaobj, settledTree, .empty, none⟩ = .ok (encode nestedChunk) ∧
      (∀ c, compile settledTree = .ok c → c.Sized) ∧ settledTree.Settled := by
  have hread : ofBytes {} .bare .luaobj (encode nestedChunk) =
      .ok ⟨.luaobj, settledTree, .empty, none⟩ :=
    ofBytes_encode compile_settledTree sized_nestedChunk
  have hwrite : toBytes ⟨.luaobj, settledTree, .empty, none⟩ = .ok (encode nestedChunk) :=
    (toBytes_luaobj_iff rfl).mpr ⟨nestedChunk, compile_settledTree, rfl⟩
  have hsized : ∀ c, compile settledTree = .ok c → c.Sized := by
    intro c hc
    obtain rfl := Except.ok.inj (compile_settledTree.symm.trans hc)
    exact sized_nestedChunk
  have hreopened := reopened_eq_iff _ _ {} {} .bare .bare _ hread hwrite hsized
  exact ⟨hread, hwrite, hsized, hreopened.2.mp echo_settledTree⟩

/-- Code that puts an empty table into the root, under a name that marks root sections. -/
def markedChunk : Chunk where
  source := some generatedSource
  varargFlags := 2
  stackSize := 3
  code := [.abc .newTable 0 0 0, .abc .newTable 2 0 0, .abc .setTable 0 256 2, .abc .ret 0 2 0]
  constants := #[.string "Main Chunk"]

def markedTree : Tree := ⟨2, [Section.named "Main Chunk"]⟩

def emptyChunk : Chunk where
  source := some generatedSource
  varargFlags := 2
  stackSize := 2
  code := [.abc .newTable 0 0 0, .abc .ret 0 2 0]

theorem ofBytes_markedChunk :
    ofBytes {} .bare .luaobj (encode markedChunk) = .ok ⟨.luaobj, markedTree, .empty, none⟩ := by
  have hroot : isRootSection "Lua Globals" = true := by decide
  have hkey : Key.ofText "Main Chunk" = .name "Main Chunk" := by decide
  -- A tree with the table among its globals compiles to this code, so its echo is what is read.
  have hcompile : compile ⟨2, [⟨0, "Lua Globals", [⟨0, "Main Chunk", .table [], .table⟩]⟩]⟩ =
      .ok markedChunk := by
    simp [compile, compileTree, compileSections, compileSection, hroot, markedChunk,
      propertyFields, fields, field, Property.displayName, tableField, Compiler.assign,
      constant_apply, constantOperand, touch_apply, emit_apply, Compiler.newTable, Build.chunk,
      hkey, keyConstant, Constant.slot, bind, StateT.bind, StateT.run, Except.bind, pure_apply,
      registerLimit, maxOperandConstant, constantBase, Functor.map, Except.map]
  apply ofBytes_encode hcompile
  constructor <;> simp [markedChunk, generatedSource, LengthFits, NameFits, TextFits,
    Constant.Fits] <;> decide

theorem compile_markedTree : compile markedTree = .ok emptyChunk := by
  have hroot : isRootSection "Main Chunk" = true := by decide
  simp only [compile, compileTree, compileSections, compileSection, markedTree, Section.named,
    hroot]
  rfl

theorem sized_emptyChunk : emptyChunk.Sized := by
  constructor <;> simp [emptyChunk, generatedSource, LengthFits, NameFits, TextFits]
  decide

theorem markedTree_vanishes :
    ofBytes {} .bare .luaobj (encode markedChunk) = .ok ⟨.luaobj, markedTree, .empty, none⟩ ∧
      toBytes ⟨.luaobj, markedTree, .empty, none⟩ = .ok (encode emptyChunk) ∧
      ofBytes {} .bare .luaobj (encode emptyChunk) = .ok ⟨.luaobj, .empty, .empty, none⟩ ∧
      markedTree ≠ .empty := by
  refine ⟨ofBytes_markedChunk, ?_, ?_, ?_⟩
  · exact (toBytes_luaobj_iff rfl).mpr ⟨emptyChunk, compile_markedTree, rfl⟩
  · exact ofBytes_encode compile_markedTree sized_emptyChunk
  · intro h
    cases congrArg Tree.sections h

end Document

end PropertyFile
