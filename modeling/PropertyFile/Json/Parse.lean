import PropertyFile.Json.Basic

namespace PropertyFile.Json

open Number

inductive Token where
  | openArray
  | closeArray
  | openObject
  | closeObject
  | comma
  | colon
  | null
  | bool (b : Bool)
  | number (n : Numeral)
  | string (text : Option String)
deriving DecidableEq, Repr

def isSpace (c : Char) : Bool := c = ' ' || c = '\n' || c = '\t' || c = '\r'

def hexDigit? (c : Char) : Option Nat :=
  if '0' ≤ c ∧ c ≤ '9' then some (c.toNat - 48)
  else if 'a' ≤ c ∧ c ≤ 'f' then some (c.toNat - 87)
  else if 'A' ≤ c ∧ c ≤ 'F' then some (c.toNat - 55)
  else none

def hex4? (a b c d : Char) : Option Nat := do
  return (((← hexDigit? a) * 16 + (← hexDigit? b)) * 16 + (← hexDigit? c)) * 16 + (← hexDigit? d)

def simpleEscape? (c : Char) : Option Nat :=
  match c with
  | '"' => some 0x22
  | '\\' => some 0x5C
  | '/' => some 0x2F
  | 'b' => some 0x08
  | 'f' => some 0x0C
  | 'n' => some 0x0A
  | 'r' => some 0x0D
  | 't' => some 0x09
  | _ => none

/-- The code units of a string up to its closing quote; `done` is reversed. An escape is one unit,
any other character is its code point. -/
def lexString (done : List Nat) : List Char → Option (List Nat × List Char)
  | [] => none
  | '"' :: rest => some (done.reverse, rest)
  | '\\' :: 'u' :: a :: b :: c :: d :: rest =>
    match hex4? a b c d with
    | some n => lexString (n :: done) rest
    | none => none
  | '\\' :: c :: rest =>
    match simpleEscape? c with
    | some n => lexString (n :: done) rest
    | none => none
  | c :: rest => if c.toNat < 0x20 || c = '\\' then none else lexString (c.toNat :: done) rest

/-- Joins pairs of surrogates; there is no text if one is left over. `done` is reversed. -/
def joinUnits (done : List Char) : List Nat → Option (List Char)
  | [] => some done.reverse
  | [n] => if 0xD800 ≤ n && n < 0xE000 then none else some (Char.ofNat n :: done).reverse
  | n :: m :: rest =>
    if 0xD800 ≤ n && n < 0xDC00 then
      if 0xDC00 ≤ m && m < 0xE000 then
        joinUnits (Char.ofNat (0x10000 + (n - 0xD800) * 0x400 + (m - 0xDC00)) :: done) rest
      else none
    else if 0xDC00 ≤ n && n < 0xE000 then none
    else joinUnits (Char.ofNat n :: done) (m :: rest)

def digits (s : List Char) : List Char × List Char := (s.takeWhile isDigit, s.dropWhile isDigit)

def lexPart (s : List Char) : Option (Option (List Char) × List Char) :=
  match s with
  | '.' :: rest =>
    let (ds, rest) := digits rest
    if ds.isEmpty then none else some (some ds, rest)
  | s => some (none, s)

def lexExponent (s : List Char) : Option (Option (Bool × List Char) × List Char) :=
  match s with
  | c :: rest =>
    if c = 'e' || c = 'E' then
      let (negative, rest) := splitSign rest
      let (ds, rest) := digits rest
      if ds.isEmpty then none else some (some (negative, ds), rest)
    else some (none, c :: rest)
  | [] => some (none, [])

/-- A number that starts with `first`; zero may stand before a point or an exponent only. -/
def lexUnsigned (negative : Bool) (s : List Char) : Option (Numeral × List Char) := do
  let (whole, rest) := digits s
  if whole.isEmpty || (whole.head? = some '0' && whole ≠ ['0']) then none
  else
    let (part, rest) ← lexPart rest
    let (exponent, rest) ← lexExponent rest
    return (⟨negative, whole, part, exponent⟩, rest)

def lexNumber (s : List Char) : Option (Numeral × List Char) :=
  match s with
  | '-' :: rest => lexUnsigned true rest
  | s => lexUnsigned false s

def lexToken (c : Char) (rest : List Char) : Option (Token × List Char) :=
  match c, rest with
  | '[', rest => some (.openArray, rest)
  | ']', rest => some (.closeArray, rest)
  | '\x7b', rest => some (.openObject, rest)
  | '\x7d', rest => some (.closeObject, rest)
  | ',', rest => some (.comma, rest)
  | ':', rest => some (.colon, rest)
  | 'n', 'u' :: 'l' :: 'l' :: rest => some (.null, rest)
  | 't', 'r' :: 'u' :: 'e' :: rest => some (.bool true, rest)
  | 'f', 'a' :: 'l' :: 's' :: 'e' :: rest => some (.bool false, rest)
  | '"', rest =>
    (lexString [] rest).map fun r ↦ (.string ((joinUnits [] r.1).map .ofList), r.2)
  | c, rest => (lexNumber (c :: rest)).map fun r ↦ (.number r.1, r.2)

theorem length_of_lexString {done us : List Nat} {s rest : List Char}
    (h : lexString done s = some (us, rest)) : rest.length ≤ s.length := by
  fun_induction lexString done s with
  | case1 | case4 | case6 | case7 => simp at h
  | case2 => simp only [Option.some.injEq, Prod.mk.injEq] at h; simp [← h.2]
  | case3 _ _ _ _ _ _ _ _ ih | case5 _ _ _ _ _ _ ih =>
    have := ih h
    simp only [List.length_cons]
    omega
  | case8 _ _ _ _ _ _ hc ih =>
    have := ih h
    simp only [List.length_cons]
    omega

theorem length_digits (s : List Char) : (digits s).1.length + (digits s).2.length = s.length := by
  rw [← List.length_append]
  simp [digits]

theorem length_of_lexPart {s rest : List Char} {p : Option (List Char)}
    (h : lexPart s = some (p, rest)) : rest.length ≤ s.length := by
  unfold lexPart at h
  split at h
  · next r =>
    have := length_digits r
    simp only [Option.ite_none_left_eq_some, Option.some.injEq, Prod.mk.injEq] at h
    simp only [← h.2.2, List.length_cons]
    omega
  · simp only [Option.some.injEq, Prod.mk.injEq] at h
    simp [h.2]

theorem length_splitSign_le (s : List Char) : (splitSign s).2.length ≤ s.length := by
  unfold splitSign
  split <;> simp

theorem length_of_lexExponent {s rest : List Char} {e : Option (Bool × List Char)}
    (h : lexExponent s = some (e, rest)) : rest.length ≤ s.length := by
  unfold lexExponent at h
  split at h
  · next c r =>
    split at h
    · have h₁ := length_splitSign_le r
      have h₂ := length_digits (splitSign r).2
      simp only [Option.ite_none_left_eq_some, Option.some.injEq, Prod.mk.injEq] at h
      simp only [← h.2.2, List.length_cons]
      omega
    · simp only [Option.some.injEq, Prod.mk.injEq] at h
      simp [← h.2]
  · simp only [Option.some.injEq, Prod.mk.injEq] at h
    simp [← h.2]

theorem length_of_lexUnsigned {negative : Bool} {s rest : List Char} {n : Numeral}
    (h : lexUnsigned negative s = some (n, rest)) : rest.length < s.length := by
  have h₁ := length_digits s
  simp only [lexUnsigned, Option.ite_none_left_eq_some, Option.bind_eq_bind,
    Option.bind_eq_some_iff] at h
  obtain ⟨hw, ⟨p, r⟩, hp, ⟨e, r'⟩, he, hn⟩ := h
  have h₂ : r.length ≤ (digits s).2.length := length_of_lexPart hp
  have h₃ : r'.length ≤ r.length := length_of_lexExponent he
  have h₄ : 0 < (digits s).1.length := List.length_pos_iff.mpr fun h ↦ by simp [h] at hw
  simp only [Option.pure_def, Option.some.injEq, Prod.mk.injEq] at hn
  rw [← hn.2]
  omega

theorem length_of_lexNumber {s rest : List Char} {n : Numeral}
    (h : lexNumber s = some (n, rest)) : rest.length < s.length := by
  unfold lexNumber at h
  split at h
  · have := length_of_lexUnsigned h
    simp only [List.length_cons]
    omega
  · exact length_of_lexUnsigned h

theorem length_of_stringToken {s rest : List Char} {t : Token}
    (h : (lexString [] s).map (fun r ↦
      (Token.string ((joinUnits [] r.1).map .ofList), r.2)) = some (t, rest)) :
    rest.length ≤ s.length := by
  obtain ⟨r, hr, heq⟩ := Option.map_eq_some_iff.mp h
  obtain rfl := (Prod.mk.inj heq).2
  exact length_of_lexString hr

theorem length_of_numberToken {c : Char} {s rest : List Char} {t : Token}
    (h : (lexNumber (c :: s)).map (fun r ↦ (Token.number r.1, r.2)) = some (t, rest)) :
    rest.length ≤ s.length := by
  obtain ⟨r, hr, heq⟩ := Option.map_eq_some_iff.mp h
  obtain rfl := (Prod.mk.inj heq).2
  exact Nat.le_of_lt_succ (length_of_lexNumber hr)

theorem length_of_fixedToken (before : List Char) {s rest : List Char} {t t' : Token}
    (h : some (t', s) = some (t, rest)) : rest.length ≤ (before ++ s).length := by
  obtain rfl := (Prod.mk.inj (Option.some.inj h)).2
  rw [List.length_append]
  exact Nat.le_add_left _ _

theorem length_of_lexToken {c : Char} {s rest : List Char} {t : Token}
    (h : lexToken c s = some (t, rest)) : rest.length ≤ s.length := by
  unfold lexToken at h
  split at h
  · exact length_of_fixedToken [] h
  · exact length_of_fixedToken [] h
  · exact length_of_fixedToken [] h
  · exact length_of_fixedToken [] h
  · exact length_of_fixedToken [] h
  · exact length_of_fixedToken [] h
  · exact length_of_fixedToken ['u', 'l', 'l'] h
  · exact length_of_fixedToken ['r', 'u', 'e'] h
  · exact length_of_fixedToken ['a', 'l', 's', 'e'] h
  · exact length_of_stringToken h
  · exact length_of_numberToken h

def tokensFrom (done : List Token) : List Char → Option (List Token)
  | [] => some done.reverse
  | c :: s =>
    if isSpace c then tokensFrom done s
    else
      match _h : lexToken c s with
      | some (t, rest) => tokensFrom (t :: done) rest
      | none => none
termination_by s => s.length
decreasing_by
  · simp
  · simp only [List.length_cons]
    exact Nat.lt_succ_of_le (length_of_lexToken _h)

/-- What is open around a value: the items, or the fields and the key, that came before it, the
last one first. -/
inductive Frame where
  | array (items : List Json)
  | field (fields : List (Option String × Json)) (key : Option String)

/-- What may come next, and what is open, innermost first. -/
inductive State where
  | value (stack : List Frame)
  | firstItem (stack : List Frame)
  | firstKey (stack : List Frame)
  | nextKey (fields : List (Option String × Json)) (stack : List Frame)
  | colon (fields : List (Option String × Json)) (key : Option String) (stack : List Frame)
  | after (j : Json) (stack : List Frame)

def State.begin (stack : List Frame) : Token → Option State
  | .null => some (after .null stack)
  | .bool b => some (after (.bool b) stack)
  | .number n => some (after (.number n) stack)
  | .string s => some (after (.string s) stack)
  | .openArray => some (firstItem stack)
  | .openObject => some (firstKey stack)
  | _ => none

def State.next : State → Token → Option State
  | value stack, t => begin stack t
  | firstItem stack, .closeArray => some (after (.array []) stack)
  | firstItem stack, t => begin (.array [] :: stack) t
  | firstKey stack, .closeObject => some (after (.object []) stack)
  | firstKey stack, .string key => some (colon [] key stack)
  | nextKey fields stack, .string key => some (colon fields key stack)
  | colon fields key stack, .colon => some (value (.field fields key :: stack))
  | after j (.array items :: stack), .comma => some (value (.array (j :: items) :: stack))
  | after j (.array items :: stack), .closeArray =>
    some (after (.array (j :: items).reverse) stack)
  | after j (.field fields key :: stack), .comma => some (nextKey ((key, j) :: fields) stack)
  | after j (.field fields key :: stack), .closeObject =>
    some (after (.object ((key, j) :: fields).reverse) stack)
  | _, _ => none

def State.result? : State → Option Json
  | after j [] => some j
  | _ => none

def parse? (text : String) : Option Json := do
  let ts ← tokensFrom [] text.toList
  let state ← ts.foldlM State.next (.value [])
  state.result?

end PropertyFile.Json
