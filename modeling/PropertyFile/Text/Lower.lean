import PropertyFile.Text.CaseTable

namespace PropertyFile.Text

def inRanges (ranges : List (Nat × Nat)) (c : Char) : Bool :=
  ranges.any fun r ↦ r.1 ≤ c.toNat && c.toNat ≤ r.2

def isCased (c : Char) : Bool := inRanges casedRanges c

def isCaseIgnorable (c : Char) : Bool := inRanges caseIgnorableRanges c

def CaseRun.covers (r : CaseRun) (n : Nat) : Bool :=
  r.first ≤ n && n ≤ r.last && (n - r.first) % r.step == 0

/-- The lower case of a character by itself, if it is one character; else the character. -/
def lowerChar (c : Char) : Char :=
  if c.toNat < 128 then c.toLower
  else match caseRuns.find? (·.covers c.toNat) with
    | some r => Char.ofNat (c.toNat + r.shift).toNat
    | none => c

def dottedCapitalI : Char := '\u0130'

def capitalSigma : Char := '\u03a3'

def meetsCased (s : List Char) : Bool :=
  match s.dropWhile isCaseIgnorable with
  | c :: _ => isCased c
  | [] => false

/-- The lower case of `c` between the reversed text `before` and the text `after`. -/
def lowerAt (before : List Char) (c : Char) (after : List Char) : List Char :=
  if c = capitalSigma then
    if meetsCased before && !meetsCased after then ['\u03c2'] else ['\u03c3']
  else if c = dottedCapitalI then ['i', '\u0307']
  else [lowerChar c]

/-- Lowers the rest of a text, given what stands before it and, both reversed, what is done. -/
def lowerRest (before done : List Char) : List Char → List Char
  | [] => done.reverse
  | c :: after => lowerRest (c :: before) ((lowerAt before c after).reverse ++ done) after

def lower (s : List Char) : List Char := lowerRest [] [] s

theorem lowerRest_ascii {s : List Char} (h : ∀ c ∈ s, c.toNat < 128) (before done : List Char) :
    lowerRest before done s = done.reverse ++ s.map Char.toLower := by
  induction s generalizing before done with
  | nil => rw [lowerRest, List.map_nil, List.append_nil]
  | cons c s ih =>
    obtain ⟨hc, hs⟩ := List.forall_mem_cons.mp h
    have hsigma : c ≠ capitalSigma := fun heq ↦ absurd (heq ▸ hc) (by decide)
    have hdotted : c ≠ dottedCapitalI := fun heq ↦ absurd (heq ▸ hc) (by decide)
    rw [lowerRest, ih hs, lowerAt, if_neg hsigma, if_neg hdotted, lowerChar, if_pos hc]
    simp

def occursIn (part : List Char) : List Char → Bool
  | [] => part.isEmpty
  | c :: s => part.isPrefixOf (c :: s) || occursIn part s

end PropertyFile.Text
