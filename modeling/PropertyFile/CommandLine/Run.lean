import PropertyFile.CommandLine.Command
import PropertyFile.CommandLine.Report
import PropertyFile.Json.Standard
import PropertyFile.Tree.Interchange
import PropertyFile.Tree.Listing

namespace PropertyFile

def Tree.toJson (t : Tree) : Json := Json.standard.ofTree t

def Tree.ofJsonText? (text : String) : Option Tree := Json.standard.read? text

namespace CommandLine

structure Outcome where
  exit : Nat
  output : String
  errors : List String
  storage : Storage

/-- A command under way: what it has printed and what storage it sees. -/
structure Progress where
  output : String := ""
  notes : List String := []
  storage : Storage

/-- A command stops with the report of an error and keeps its progress. -/
abbrev Action := ExceptT String (StateM Progress)

namespace Action

def print (s : String) : Action Unit := modify fun p ↦ { p with output := p.output ++ s }

def note (s : String) : Action Unit := modify fun p ↦ { p with notes := p.notes ++ [s] }

def orReport {ε α : Type} (report : ε → String) : Except ε α → Action α
  | .ok a => return a
  | .error e => throw (report e)

def load (o : Options) (path : String) : Action Document := do
  orReport documentReport (Document.load (← get).storage o path)

def resolutionNote (r : Resolution) : String :=
  "dynamic groups: [" ++ ", ".intercalate (r.groups.map quote) ++ "], resolved " ++
    toString r.resolved

def dump (input : String) (json : Bool) (filter : Option String) (o : Options) : Action Unit := do
  let d ← load o input
  if let some r := d.resolution then note (resolutionNote r)
  let t := match filter with
    | some query => d.tree.filter query
    | none => d.tree
  print (if json then t.toJson.pretty ++ "\n" else t.listing)

def hash (text : String) (property file : Option String) (o : Options) : Action Unit := do
  let h := match property with
    | some p => pairHash text p
    | none => nameHash text
  print (toString h.toNat ++ " (" ++ hexHash h ++ ")\n")
  if let some path := file then
    let d ← load o path
    match d.tree.find? h with
    | some (s, p) =>
      print ("  found in [" ++ s ++ "] as " ++ p.displayName ++ " = " ++ p.value.text ++ "\n")
    | none => print ("  not present in " ++ path ++ "\n")

end Action

inductive HashFault where
  | empty
  | invalidDigit
  | tooLarge
deriving DecidableEq, Repr

def HashFault.report (e : HashFault) : String :=
  reportFields "ParseIntError" [("kind", match e with
    | empty => "Empty"
    | invalidDigit => "InvalidDigit"
    | tooLarge => "PosOverflow")]

/-- Reads digits after the number `n`; the first character that is no digit, or that leads past 32
bits, ends it. -/
def readDigits (base : Nat) (n : Nat) : List Char → Except HashFault UInt32
  | [] => .ok (UInt32.ofNat n)
  | c :: s =>
    match Json.hexDigit? c with
    | some d =>
      if base ≤ d then .error .invalidDigit
      else if UInt32.size ≤ base * n + d then .error .tooLarge
      else readDigits base (base * n + d) s
    | none => .error .invalidDigit

def readUnsigned (base : Nat) : List Char → Except HashFault UInt32
  | [] => .error .empty
  | ['+'] => .error .invalidDigit
  | '+' :: s => readDigits base 0 s
  | s => readDigits base 0 s

/-- A hash as it is given: in decimal, or in hexadecimal after `0x`. -/
def readHash (text : String) : Except HashFault UInt32 :=
  match text.toList with
  | '0' :: 'x' :: s | '0' :: 'X' :: s => readUnsigned 16 s
  | s => readUnsigned 10 s

def instructionLine (place : Nat) (w : Bytecode.Word) : String :=
  let place := toString place
  let name := ((w.opcode?.map Bytecode.Opcode.name).getD "???").toUpper
  let operands := match w.opcode? with
    | some .loadK | some .getGlobal | some .setGlobal | some .closure => [w.a, w.bx]
    | _ => [w.a, w.b, w.c]
  let operands := match w.opcode? with
    | some _ => " ".intercalate (operands.map toString)
    | none => hexHash w
  "  " ++ "".pushn ' ' (4 - place.length) ++ place ++ "  " ++ name ++
    "".pushn ' ' (10 - name.length) ++ " " ++ operands ++ "\n"

namespace Action

def guess (target : String) (sections properties : List String) : Action Unit := do
  let h ← orReport HashFault.report (readHash target)
  match (Dictionary.empty.guess h sections properties).2 with
  | some name => print (name ++ "\n")
  | none => print ("no match for " ++ toString h.toNat ++ "\n")

def reencode (input output : String) (o : Options) : Action Unit := do
  match Kind.ofPath? output with
  | none => throw (quote ("cannot infer output format from " ++ output))
  | some kind =>
    let d ← load o input
    let (storage, result) := (Document.ofTree kind d.tree).save (← get).storage output
    modify fun p ↦ { p with storage }
    orReport documentReport result
    print ("Wrote " ++ toString d.tree.size ++ " properties → " ++ output ++ "\n")

def lua (input : String) : Action Unit := do
  let bytes ← orReport causeReport ((← get).storage.read input)
  let c ← orReport chunkReport (Bytecode.decode bytes)
  print ("── " ++ c.label ++ " ─────────────────────────────────────────\n")
  print ("  Constants      " ++ toString c.constants.size ++ "\n")
  print ("  Prototypes     " ++ toString c.prototypes.length ++ "\n")
  print ("  Max stack      " ++ toString c.stackSize.toNat ++ "\n")
  print (String.join (c.code.zipIdx.map fun (w, i) ↦ instructionLine i w))
  print "\n"
  print (Machine.fresh.run c).tree.listing

def ofCommand : Command → Action Unit
  | .dump input json filter o => dump input json filter o
  | .hash text property file o => hash text property file o
  | .guess target sections properties => guess target sections properties
  | .reencode input output o => reencode input output o
  | .lua input => lua input

end Action

def run (c : Command) (s : Storage) : Outcome :=
  let (result, p) := (Action.ofCommand c).run.run { storage := s }
  match result with
  | .ok () => ⟨0, p.output, p.notes, p.storage⟩
  | .error report => ⟨1, p.output, p.notes ++ ["Error: " ++ report], p.storage⟩

def refuse (r : Refusal) (s : Storage) : Outcome :=
  ⟨match r with
    | .wrong => 2
    | .help => 0, "", [], s⟩

def program (args : List String) (s : Storage) : Outcome :=
  match command args with
  | .ok c => run c s
  | .error r => refuse r s

end CommandLine

end PropertyFile
