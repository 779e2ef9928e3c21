import PropertyFile.Machine.Basic

namespace PropertyFile

open Bytecode

/-- The opcodes that the machine knows but does not carry out. -/
def Bytecode.Opcode.idle : List Opcode :=
  [getUpval, setUpval, selfOp, add, sub, mul, div, mod, pow, unm, not, len, concat, jmp, eq, lt, le,
    test, testSet, call, tailCall, forLoop, forPrep, tForLoop, close, varArg]

namespace Machine

variable {m : Machine} {c : Chunk} {w : Word}

def Idle (w : Word) : Prop := ∀ op, w.opcode? = some op → op ∈ Opcode.idle

theorem Idle.opcode_ne {op : Opcode} (h : Idle w) (hop : op ∉ Opcode.idle) :
    w.opcode? ≠ some op :=
  fun heq ↦ hop (h op heq)

theorem Idle.step_eq (h : Idle w) (m : Machine) (c : Chunk) (next : Option Word) :
    m.step c w next = (m, none) := by
  unfold step
  split <;> first
    | next hop => exact absurd hop (h.opcode_ne (by decide))
    | rfl

theorem Idle.takesNext_eq (h : Idle w) : takesNext w = false := by
  unfold takesNext
  split
  · next hop => exact absurd hop (h.opcode_ne (by decide))
  · next hop => exact absurd hop (h.opcode_ne (by decide))
  · rfl

theorem Idle.runCode_cons (h : Idle w) (rest : List Word) :
    runCode c false (w :: rest) m = runCode c false rest m := by
  rw [runCode, if_neg (h.opcode_ne (by decide)), h.step_eq, h.takesNext_eq]

theorem takesNext_eq_false (hbool : ¬(w.opcode? = some .loadBool ∧ w.c ≠ 0))
    (hlist : ¬(w.opcode? = some .setList ∧ w.c = 0)) : takesNext w = false := by
  unfold takesNext
  split
  · next hop => exact decide_eq_false fun hc ↦ hbool ⟨hop, hc⟩
  · next hop => exact decide_eq_false fun hc ↦ hlist ⟨hop, hc⟩
  · rfl

/-- Only a list instruction without a block number looks at the word after it. -/
theorem step_next (h : takesNext w = false) (next next' : Option Word) :
    m.step c w next = m.step c w next' := by
  by_cases hop : w.opcode? = some .setList
  · have hc : w.c ≠ 0 := by
      rw [takesNext, hop] at h
      exact of_decide_eq_false h
    simp only [step, hop, if_neg hc]
  · unfold step
    split <;> first | rfl | contradiction

/-- Where the inserted word comes to stand first, nothing skips it; further on, the words before it
are carried out as they were. -/
theorem runCode_insertIdx (hw : Idle w) {code : List Word} {i : Nat} (hi : i ≤ code.length)
    (skip : Bool) (hskip : i = 0 → skip = false)
    (hprev : 0 < i → ∀ p, code[i - 1]? = some p → takesNext p = false) (m : Machine) :
    runCode c skip (code.insertIdx i w) m = runCode c skip code m := by
  induction code generalizing i skip m with
  | nil =>
    obtain rfl := Nat.le_zero.mp hi
    rw [hskip rfl, List.insertIdx_zero, hw.runCode_cons]
  | cons p rest ih =>
    cases i with
    | zero => rw [hskip rfl, List.insertIdx_zero, hw.runCode_cons]
    | succ i =>
      have hi' : i ≤ rest.length := Nat.le_of_succ_le_succ hi
      have hprev' : 0 < i → ∀ q, rest[i - 1]? = some q → takesNext q = false := by
        intro hpos q hq
        refine hprev (Nat.succ_pos i) q ?_
        rwa [Nat.add_sub_cancel, ← Nat.succ_pred_eq_of_pos hpos, List.getElem?_cons_succ]
      have hfirst : i = 0 → takesNext p = false := by
        rintro rfl
        exact hprev Nat.one_pos p rfl
      rw [List.insertIdx_succ_cons]
      cases skip with
      | true => exact ih hi' false (fun _ ↦ rfl) hprev' m
      | false =>
        rw [runCode, runCode]
        split
        · rfl
        · have hstep : m.step c p (rest.insertIdx i w).head? = m.step c p rest.head? := by
            cases i with
            | zero => exact step_next (hfirst rfl) _ _
            | succ i =>
              cases rest with
              | nil => cases hi'
              | cons q rest => rfl
          rw [hstep]
          exact ih hi' _ hfirst hprev' _

theorem runCode_code (c : Chunk) (other : List Word) (skip : Bool) (code : List Word)
    (m : Machine) : runCode { c with code := other } skip code m = runCode c skip code m := by
  induction code generalizing skip m with
  | nil =>
    rw [runCode, runCode]
  | cons w rest ih =>
    cases skip with
    | true => exact ih false m
    | false =>
      have hstep : m.step { c with code := other } w rest.head? = m.step c w rest.head? := rfl
      rw [runCode, runCode, hstep]
      split
      · rfl
      · exact ih _ _

/-- A word that is passed over changes nothing, wherever it is put into the code of a chunk, except
after a word that takes the next one for itself. -/
theorem run_insertIdx (m : Machine) (c : Chunk) (i : Nat) (w : Word) (hi : i ≤ c.code.length)
    (hw : Idle w)
    (hprev : i = 0 ∨ ∀ p, c.code[i - 1]? = some p →
      ¬(p.opcode? = some .loadBool ∧ p.c ≠ 0) ∧ ¬(p.opcode? = some .setList ∧ p.c = 0)) :
    m.run { c with code := c.code.insertIdx i w } = m.run c := by
  have hbefore : 0 < i → ∀ p, c.code[i - 1]? = some p → takesNext p = false := by
    intro hpos p hp
    obtain ⟨hbool, hlist⟩ := hprev.resolve_left (Nat.ne_of_gt hpos) p hp
    exact takesNext_eq_false hbool hlist
  rw [run, run, runCode_code]
  exact runCode_insertIdx hw hi false (fun _ ↦ rfl) hbefore m

def blockChunk : Chunk :=
  { code := [.abc .newTable 0 0 0, .abc .setList 0 1 0, 7, .abc .move 1 0 0] }

theorem run_blockChunk : 3 ≤ blockChunk.code.length ∧ Idle 63 ∧
    (∀ p, blockChunk.code[3 - 1]? = some p →
      ¬(p.opcode? = some .loadBool ∧ p.c ≠ 0) ∧ ¬(p.opcode? = some .setList ∧ p.c = 0)) ∧
    fresh.run { blockChunk with code := blockChunk.code.insertIdx 3 63 } =
      fresh.run blockChunk := by
  have hlength : 3 ≤ blockChunk.code.length := by decide
  have hw : Idle 63 := by
    intro op hop
    exact absurd hop (by decide +revert)
  have hprev : ∀ p, blockChunk.code[3 - 1]? = some p →
      ¬(p.opcode? = some .loadBool ∧ p.c ≠ 0) ∧ ¬(p.opcode? = some .setList ∧ p.c = 0) := by
    rintro _ ⟨⟩
    decide
  exact ⟨hlength, hw, hprev, run_insertIdx fresh blockChunk 3 63 hlength hw (.inr hprev)⟩

end Machine

end PropertyFile
