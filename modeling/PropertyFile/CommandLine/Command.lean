import PropertyFile.CommandLine.Arguments
import PropertyFile.Document

namespace PropertyFile.CommandLine

inductive Command where
  | dump (input : String) (json : Bool) (filter : Option String) (options : Options)
  | hash (text : String) (property file : Option String) (options : Options)
  | guess (target : String) (sections properties : List String)
  | reencode (input output : String) (options : Options)
  | lua (input : String)
deriving Repr

/-- Can be given before the command and after it; it asks for a log. -/
def verbose : Choice := ⟨"verbose", some 'v', .nothing, false⟩

def nameChoices : List Choice :=
  [⟨"dict", none, .one, true⟩, ⟨"troybin-dict", none, .one, true⟩,
    ⟨"vocabulary", none, .one, true⟩, ⟨"no-resolve", none, .nothing, false⟩]

def options (a : Arguments) : Options where
  dictionary := (a.value? "dict").or Options.default.dictionary
  troybinDictionary := (a.value? "troybin-dict").or Options.default.troybinDictionary
  vocabulary := (a.value? "vocabulary").or Options.default.vocabulary
  resolve := !a.has "no-resolve"

def splitFor (choices : List Choice) (paths : List Bool) (args : List String) :
    Except Refusal Arguments :=
  split ⟨verbose :: choices, paths⟩ false none {} args

def onlyValue (a : Arguments) : Except Refusal String :=
  match a.positional with
  | [s] => .ok s
  | _ => .error .wrong

def dumpOf (args : List String) : Except Refusal Command := do
  let a ← splitFor (⟨"json", none, .nothing, false⟩ :: ⟨"filter", some 'f', .one, false⟩ ::
    nameChoices) [true] args
  return .dump (← onlyValue a) (a.has "json") (a.value? "filter") (options a)

def hashOf (args : List String) : Except Refusal Command := do
  let a ← splitFor (⟨"file", none, .one, true⟩ :: nameChoices) [false, false] args
  match a.positional with
  | [text] => return .hash text none (a.value? "file") (options a)
  | [text, property] => return .hash text (some property) (a.value? "file") (options a)
  | _ => throw .wrong

def guessOf (args : List String) : Except Refusal Command := do
  let a ← splitFor [⟨"sections", some 's', .many, false⟩, ⟨"properties", some 'p', .many, false⟩]
    [false] args
  if a.has "sections" && a.has "properties" then
    return .guess (← onlyValue a) (a.all "sections") (a.all "properties")
  else throw .wrong

def reencodeOf (args : List String) : Except Refusal Command := do
  let a ← splitFor (⟨"output", some 'o', .one, true⟩ :: nameChoices) [true] args
  match a.value? "output" with
  | some output => return .reencode (← onlyValue a) output (options a)
  | none => throw .wrong

def luaOf (args : List String) : Except Refusal Command := do
  return .lua (← onlyValue (← splitFor [] [true] args))

def commands : List (String × (List String → Except Refusal Command)) :=
  [("dump", dumpOf), ("hash", hashOf), ("guess", guessOf), ("rewrite", reencodeOf), ("lua", luaOf)]

def helpOf : List String → Except Refusal Command
  | [] => .error .help
  | [name] =>
    .error (if name = "help" ∨ commands.any (·.1 = name) then .help else .wrong)
  | _ => .error .wrong

def namedCommand (name : String) (args : List String) : Except Refusal Command :=
  if name = "help" then helpOf args
  else match commands.find? (·.1 = name) with
    | some c => c.2 args
    | none => .error .wrong

def commandFrom (a : Arguments) : List String → Except Refusal Command
  | [] => .error .wrong
  | arg :: args =>
    match arg.toList with
    | ['-', '-'] => .error .wrong
    | '-' :: '-' :: s => do
      let (name, attached) := splitLong s
      let (a, _) ← longOption [verbose] a name attached
      commandFrom a args
    | '-' :: l :: s => do
      let (a, _) ← letters [verbose] a (l :: s)
      commandFrom a args
    | _ => namedCommand arg args

def command (args : List String) : Except Refusal Command := commandFrom {} args

def Command.paths : Command → List String
  | dump input _ _ o => input :: names o
  | hash _ _ file o => file.toList ++ names o
  | guess .. => []
  | reencode input output o => input :: output :: names o
  | lua input => [input]
where
  names (o : Options) : List String :=
    o.dictionary.toList ++ o.troybinDictionary.toList ++ o.vocabulary.toList

end PropertyFile.CommandLine
