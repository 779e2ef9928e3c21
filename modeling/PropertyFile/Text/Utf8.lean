namespace PropertyFile.Text

def utf8 (s : String) : List UInt8 := s.toList.flatMap String.utf8EncodeChar

def headChar? (bytes : List UInt8) : Option Char :=
  (bytes.take 4).toByteArray.utf8DecodeChar? 0

def isContinuation (b : UInt8) : Bool := 0x80 ≤ b && b ≤ 0xBF

/-- The second bytes that may follow a first byte of a longer encoding. -/
def mayFollow (first second : UInt8) : Bool :=
  if first = 0xE0 then 0xA0 ≤ second && second ≤ 0xBF
  else if first = 0xED then 0x80 ≤ second && second ≤ 0x9F
  else if first = 0xF0 then 0x90 ≤ second && second ≤ 0xBF
  else if first = 0xF4 then 0x80 ≤ second && second ≤ 0x8F
  else isContinuation second

/-- How many bytes after the first one belong to the broken piece at the front: as many as could
still begin an encoded character. -/
def brokenTail (first : UInt8) (rest : List UInt8) : Nat :=
  if 0xE0 ≤ first && first ≤ 0xF4 then
    match rest with
    | second :: third :: _ =>
      if mayFollow first second then
        if 0xF0 ≤ first && isContinuation third then 2 else 1
      else 0
    | [second] => if mayFollow first second then 1 else 0
    | [] => 0
  else 0

/-- Encoded characters, and `none` for each broken piece. -/
def unitsFrom (done : List (Option Char)) : List UInt8 → List (Option Char)
  | [] => done.reverse
  | b :: rest =>
    match headChar? (b :: rest) with
    | some c => unitsFrom (some c :: done) (rest.drop (c.utf8Size - 1))
    | none => unitsFrom (none :: done) (rest.drop (brokenTail b rest))
termination_by bytes => bytes.length
decreasing_by
  all_goals
    simp only [List.length_drop, List.length_cons]
    omega

def units (bytes : List UInt8) : List (Option Char) := unitsFrom [] bytes

def replacement : Char := '\ufffd'

/-- The lenient reading shows each broken piece as one replacement character. -/
def ofBytes (bytes : List UInt8) : String :=
  .ofList ((units bytes).map (·.getD replacement))

def ofBytes? (bytes : List UInt8) : Option String :=
  if (units bytes).all Option.isSome then some (ofBytes bytes) else none

def hexDigits (width n : Nat) : String :=
  .ofList ((List.range width).map fun i ↦ Nat.digitChar (n / Nat.pow 16 (width - 1 - i) % 16))

end PropertyFile.Text
