import PropertyFile.Bytecode.Instruction

namespace PropertyFile.Bytecode.Word

section Operands

variable (op : Opcode) (a b c bx : Nat)

theorem toNat_abc : (abc op a b c).toNat =
    op.toNat + 64 * (a % 256) + 16384 * (c % 512) + 8388608 * (b % 512) := by
  have hop := op.toNat_lt
  rw [abc, UInt32.toNat_ofNat']
  omega

theorem opcode?_abc : (abc op a b c).opcode? = some op := by
  have hop := op.toNat_lt
  rw [opcode?, Opcode.ofNat?_eq_some_iff, opcodeNumber, toNat_abc]
  omega

theorem a_abc : (abc op a b c).a = a % 256 := by
  have hop := op.toNat_lt
  rw [Word.a, toNat_abc]
  omega

theorem b_abc : (abc op a b c).b = b % 512 := by
  have hop := op.toNat_lt
  rw [Word.b, toNat_abc]
  omega

theorem c_abc : (abc op a b c).c = c % 512 := by
  have hop := op.toNat_lt
  rw [Word.c, toNat_abc]
  omega

theorem abx_eq_abc : abx op a bx = abc op a (bx / 512) bx := by
  have hbx : 16384 * (bx % 262144) = 16384 * (bx % 512) + 8388608 * (bx / 512 % 512) := by omega
  rw [abx, abc, hbx, Nat.add_assoc _ (16384 * (bx % 512))]

theorem opcode?_abx : (abx op a bx).opcode? = some op := by
  rw [abx_eq_abc, opcode?_abc]

theorem a_abx : (abx op a bx).a = a % 256 := by
  rw [abx_eq_abc, a_abc]

end Operands

theorem c_lt (w : Word) : w.c < 512 := Nat.mod_lt _ (by decide)

theorem bx_eq (w : Word) : w.bx = w.b * 512 + w.c := by
  rw [Word.bx, Word.b, Word.c]
  omega

theorem bx_abx (op : Opcode) (a bx : Nat) : (abx op a bx).bx = bx % 262144 := by
  rw [bx_eq, abx_eq_abc, b_abc, c_abc]
  omega

theorem abx_bx (w : Word) (op : Opcode) : abx op w.a w.bx = abc op w.a w.b w.c := by
  have hc := w.c_lt
  have hbx := w.bx_eq
  have hb : w.bx / 512 = w.b := by omega
  have hmod : w.bx % 512 = w.c % 512 := by omega
  rw [abx_eq_abc, abc, hb, hmod, abc]

theorem toNat_append {m n : Nat} (x : BitVec m) (y : BitVec n) :
    (x ++ y).toNat = x.toNat <<< n + y.toNat := by
  rw [BitVec.toNat_append, Nat.shiftLeft_add_eq_or_of_lt y.isLt]

theorem toBitVec_eq (w : Word) : w.toBitVec = BitVec.ofNat 9 w.b ++ BitVec.ofNat 9 w.c ++
    BitVec.ofNat 8 w.a ++ BitVec.ofNat 6 w.opcodeNumber := by
  have hw := w.toNat_lt
  apply BitVec.eq_of_toNat_eq
  simp only [toNat_append, BitVec.toNat_ofNat, UInt32.toNat_toBitVec, Word.a, Word.b, Word.c,
    opcodeNumber]
  omega

theorem toBitVec_abc (op : Opcode) (a b c : Nat) : (abc op a b c).toBitVec =
    BitVec.ofNat 9 b ++ BitVec.ofNat 9 c ++ BitVec.ofNat 8 a ++ BitVec.ofNat 6 op.toNat := by
  have hop := op.toNat_lt
  apply BitVec.eq_of_toNat_eq
  simp only [toNat_append, BitVec.toNat_ofNat, UInt32.toNat_toBitVec, toNat_abc]
  omega

theorem toBitVec_abx (op : Opcode) (a bx : Nat) : (abx op a bx).toBitVec =
    BitVec.ofNat 18 bx ++ BitVec.ofNat 8 a ++ BitVec.ofNat 6 op.toNat := by
  have hbx : (BitVec.ofNat 9 (bx / 512) ++ BitVec.ofNat 9 bx : BitVec 18) = BitVec.ofNat 18 bx := by
    apply BitVec.eq_of_toNat_eq
    simp only [toNat_append, BitVec.toNat_ofNat]
    omega
  rw [abx_eq_abc, toBitVec_abc, ← hbx]

theorem opcode?_eq_some_iff {w : Word} {op : Opcode} :
    w.opcode? = some op ↔ w = abc op w.a w.b w.c := by
  constructor
  · intro h
    rw [← UInt32.toBitVec_inj, toBitVec_abc, Opcode.ofNat?_eq_some_iff.mp h]
    exact w.toBitVec_eq
  · intro h
    rw [h]
    exact opcode?_abc op w.a w.b w.c

/-- Packing and reading are inverse, up to the widths of the fields: what is packed has its operands
in their places and is read as them, and a word is what its fields pack to exactly under the opcode
that it holds. -/
theorem packing_inverse :
    (∀ (op : Opcode) (a b c : Nat),
      (abc op a b c).toBitVec =
        BitVec.ofNat 9 b ++ BitVec.ofNat 9 c ++ BitVec.ofNat 8 a ++ BitVec.ofNat 6 op.toNat ∧
      (abc op a b c).opcode? = some op ∧ (abc op a b c).a = a % 256 ∧
      (abc op a b c).b = b % 512 ∧ (abc op a b c).c = c % 512) ∧
    (∀ (op : Opcode) (a bx : Nat),
      (abx op a bx).toBitVec =
        BitVec.ofNat 18 bx ++ BitVec.ofNat 8 a ++ BitVec.ofNat 6 op.toNat ∧
      (abx op a bx).opcode? = some op ∧ (abx op a bx).a = a % 256 ∧
      (abx op a bx).bx = bx % 262144) ∧
    ∀ w : Word, w.bx = w.b * 512 + w.c ∧ ∀ op,
      (w.opcode? = some op ↔ w = abc op w.a w.b w.c) ∧
      (w.opcode? = some op ↔ w = abx op w.a w.bx) := by
  refine ⟨fun op a b c ↦ ?_, fun op a bx ↦ ?_, fun w ↦ ⟨w.bx_eq, fun op ↦ ?_⟩⟩
  · exact ⟨toBitVec_abc op a b c, opcode?_abc op a b c, a_abc op a b c, b_abc op a b c,
      c_abc op a b c⟩
  · exact ⟨toBitVec_abx op a bx, opcode?_abx op a bx, a_abx op a bx, bx_abx op a bx⟩
  · rw [abx_bx]
    exact ⟨opcode?_eq_some_iff, opcode?_eq_some_iff⟩

end PropertyFile.Bytecode.Word
