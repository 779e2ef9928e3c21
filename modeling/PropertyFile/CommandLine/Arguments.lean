namespace PropertyFile.CommandLine

inductive Takes where
  | nothing
  | one
  | many
deriving DecidableEq, Repr

structure Choice where
  name : String
  letter : Option Char
  takes : Takes
  path : Bool := false
deriving DecidableEq, Repr

structure Form where
  choices : List Choice
  paths : List Bool := []
deriving Repr

inductive Refusal where
  | wrong
  | help
deriving DecidableEq, Repr

structure Arguments where
  given : List String := []
  values : List (String × String) := []
  positional : List String := []
deriving Repr

namespace Arguments

def has (a : Arguments) (name : String) : Bool := a.given.contains name

def all (a : Arguments) (name : String) : List String :=
  a.values.filterMap fun v ↦ if v.1 = name then some v.2 else none

def value? (a : Arguments) (name : String) : Option String := (a.all name).head?

/-- Notes that an option is given; only one that takes many values can be given again. -/
def give (a : Arguments) (c : Choice) : Except Refusal Arguments :=
  if a.has c.name && c.takes ≠ .many then .error .wrong
  else .ok { a with given := a.given ++ [c.name] }

def addValue (a : Arguments) (c : Choice) (v : String) : Except Refusal Arguments :=
  if c.path && v.isEmpty then .error .wrong
  else .ok { a with values := a.values ++ [(c.name, v)] }

def addPositional (a : Arguments) (form : Form) (v : String) : Except Refusal Arguments :=
  match form.paths[a.positional.length]? with
  | some isPath =>
    if isPath && v.isEmpty then .error .wrong
    else .ok { a with positional := a.positional ++ [v] }
  | none => .error .wrong

end Arguments

/-- An option that still takes values, and whether it has one. -/
abbrev Pending := Option (Choice × Bool)

def settled (pending : Pending) : Except Refusal Unit :=
  match pending with
  | some (_, false) => .error .wrong
  | _ => .ok ()

def longOption (choices : List Choice) (a : Arguments) (name : String) (attached : Option String) :
    Except Refusal (Arguments × Pending) :=
  match choices.find? (·.name = name), attached with
  | some c, none => do
    let a ← a.give c
    return (a, if c.takes = .nothing then none else some (c, false))
  | some c, some v =>
    if c.takes = .nothing then .error .wrong
    else do return (← (← a.give c).addValue c v, none)
  | none, none => .error (if name = "help" then .help else .wrong)
  | none, some _ => .error .wrong

/-- Options by their letters, all after one dash. The first that takes a value has the rest as its
value. -/
def letters (choices : List Choice) (a : Arguments) : List Char →
    Except Refusal (Arguments × Pending)
  | [] => .ok (a, none)
  | l :: rest =>
    match choices.find? (·.letter = some l) with
    | none => .error (if l = 'h' then .help else .wrong)
    | some c => do
      let a ← a.give c
      match c.takes, rest with
      | .nothing, rest => letters choices a rest
      | _, [] => return (a, some (c, false))
      | _, '=' :: v => return (← a.addValue c (.ofList v), none)
      | _, v => return (← a.addValue c (.ofList v), none)

def splitLong (s : List Char) : String × Option String :=
  match s.dropWhile (· ≠ '=') with
  | [] => (.ofList s, none)
  | _ :: v => (.ofList (s.takeWhile (· ≠ '=')), some (.ofList v))

/-- Takes the arguments in order, so that what is wrong with one of them counts before a call for
help that follows it. After `--` all of them are positional, which `rest` says. -/
def split (form : Form) : (rest : Bool) → Pending → Arguments → List String →
    Except Refusal Arguments
  | _, pending, a, [] => do
    settled pending
    return a
  | true, pending, a, arg :: args => do
    settled pending
    split form true none (← a.addPositional form arg) args
  | false, pending, a, arg :: args =>
    match arg.toList with
    | ['-', '-'] => split form true pending a args
    | '-' :: '-' :: s => do
      settled pending
      let (name, attached) := splitLong s
      let (a, pending) ← longOption form.choices a name attached
      split form false pending a args
    | '-' :: l :: s => do
      settled pending
      let (a, pending) ← letters form.choices a (l :: s)
      split form false pending a args
    | _ =>
      match pending with
      | none => do split form false none (← a.addPositional form arg) args
      | some (c, _) => do
        let a ← a.addValue c arg
        split form false (if c.takes = .many then some (c, true) else none) a args

end PropertyFile.CommandLine
