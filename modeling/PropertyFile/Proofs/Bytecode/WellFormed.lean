import PropertyFile.Proofs.Bytecode.Listing

namespace PropertyFile.Bytecode

open Machine Compiler

/-- A chunk whose words are the listed instructions, with operands in bounds, that any machine can
carry out. -/
structure WellFormed (c : Chunk) (code : List Instruction) : Prop where
  decoded : c.code.map Instruction.ofWord? = code.map some
  stackSize_mem : 2 ≤ c.stackSize.toNat ∧ c.stackSize.toNat ≤ 250
  registers_lt : ∀ i ∈ code, ∀ r ∈ i.registers, r < c.stackSize.toNat
  constants_lt : ∀ i ∈ code, ∀ k ∈ i.constants, k < c.constants.size
  returns : ∃ body last, c.code = body ++ [last] ∧ last.opcode? = some .ret ∧
    ∀ w ∈ body, w.opcode? ≠ some .ret
  faults_eq : ∀ m : Machine, m.faults c = []

variable {t : Tree} {c : Chunk}

theorem toNat_stackSize {top : Nat} (htop : top < registerLimit) :
    (UInt8.ofNat (max (top + 1) 2)).toNat = max (top + 1) 2 := by
  rw [registerLimit] at htop
  rw [UInt8.toNat_ofNat']
  exact Nat.mod_eq_of_lt (by omega)

theorem compile_listed (h : compile t = .ok c) : ∃ top body, top < registerLimit ∧
    c.stackSize = UInt8.ofNat (max (top + 1) 2) ∧
    treeCode c.constants t = body ++ [.ret 0 2 0] ∧
    c.code = body.map Instruction.word ++ [.abc .ret 0 2 0] ∧
    ∀ i ∈ body, i.Builds top c.constants.size := by
  obtain ⟨u, s, hrun, rfl⟩ := chunk_of_compile h
  obtain ⟨_, s₁, hnew, htree⟩ := bind_ok.mp hrun
  obtain ⟨_, s₂, hsections, hemit⟩ := bind_ok.mp htree
  have hsound := (newTable_ok hnew).2.2.sound sound_empty
  have hgrown := emit_ok hemit
  have hpool : Pool s.chunk s := fun _ _ hk ↦ hk
  have hbody := (newTable_listed hnew).trans
    ((lists_sections t.sections s₁ s₂ _ hsections hsound (Nat.zero_le _)).2 s.chunk
      (hpool.before hgrown))
  refine ⟨s.maxRegister, _, (hgrown.sound (hbody.grown.sound sound_empty)).maxRegister_lt, rfl, rfl,
    (hbody.grown.trans hgrown).code_eq, fun i hi ↦ (hbody.builds i hi).mono hgrown.maxRegister_le⟩

theorem faults_of_compile (h : compile t = .ok c) (m : Machine) : m.faults c = [] := by
  obtain ⟨words, hcode, hdo⟩ := compile_clean h
  obtain ⟨m', hclean, -, -⟩ := hdo (m.newTable 0) m.heap.size Fields.empty
    (tableAt?_newTable m (by decide)) (Holds.push m.heap)
  rw [faults, hcode, ((clean_newTable (by decide)).append hclean).faults_eq,
    faultsFrom_ret (by decide)]

theorem compile_wellFormed (t : Tree) (c : Chunk) (h : compile t = .ok c) :
    WellFormed c (treeCode c.constants t) := by
  obtain ⟨top, body, htop, hstack, hlisting, hcode, hbuilds⟩ := compile_listed h
  have hsize : c.stackSize.toNat = max (top + 1) 2 := by rw [hstack, toNat_stackSize htop]
  have hlimit : top < 250 := htop
  refine ⟨?_, by omega, ?_, ?_, ?_, faults_of_compile h⟩
  · have hbody : (body.map Instruction.word).map Instruction.ofWord? = body.map some := by
      rw [List.map_map]
      exact List.map_congr_left fun i hi ↦ (hbuilds i hi).ofWord?_word htop
    have hret : Instruction.ofWord? (.abc .ret 0 2 0) = some (.ret 0 2 0) := by decide
    rw [hcode, hlisting, List.map_append, List.map_append, hbody, List.map_singleton, hret,
      List.map_singleton]
  · rw [hlisting]
    refine List.forall_mem_append.mpr ⟨fun i hi r hr ↦ ?_, List.forall_mem_singleton.mpr ?_⟩
    · have hle := (hbuilds i hi).registers_le r hr
      omega
    · exact List.forall_mem_singleton.mpr (by omega)
  · rw [hlisting]
    exact List.forall_mem_append.mpr ⟨fun i hi ↦ (hbuilds i hi).constants_lt,
      List.forall_mem_singleton.mpr (List.forall_mem_nil _)⟩
  · refine ⟨_, _, hcode, by decide, fun w hw ↦ ?_⟩
    obtain ⟨i, hi, rfl⟩ := List.mem_map.mp hw
    exact (hbuilds i hi).word_ne_ret htop

example : treeCode nestedChunk.constants nestedTree = [.newTable 0 0 0, .setTable 0 257 256,
    .loadK 1 2, .newTable 2 0 0, .newTable 4 0 0, .setTable 4 257 256, .setTable 2 259 4,
    .setTable 0 258 2, .ret 0 2 0] := by
  decide +kernel

theorem nestedChunk_wellFormed : compile nestedTree = .ok nestedChunk ∧
    WellFormed nestedChunk (treeCode nestedChunk.constants nestedTree) :=
  ⟨compile_nestedTree, compile_wellFormed nestedTree nestedChunk compile_nestedTree⟩

end PropertyFile.Bytecode
