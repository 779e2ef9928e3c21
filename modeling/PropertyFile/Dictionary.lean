import Std.Data.ExtTreeMap
import PropertyFile.NameHash
import PropertyFile.Text.Blank

namespace PropertyFile

structure Dictionary where
  names : Std.ExtTreeMap UInt32 String := ∅

namespace Dictionary

def empty : Dictionary := {}

def get? (d : Dictionary) (hash : UInt32) : Option String := d.names[hash]?

def size (d : Dictionary) : Nat := d.names.size

def isEmpty (d : Dictionary) : Bool := d.names.isEmpty

def pairName (inSection name : String) : String :=
  inSection ++ NameHash.separator.toString ++ name

def add (d : Dictionary) (name : String) : Dictionary :=
  ⟨d.names.insertIfNew (nameHash name) name⟩

def addPair (d : Dictionary) (inSection name : String) : Dictionary :=
  ⟨d.names.insertIfNew (pairHash inSection name) (pairName inSection name)⟩

inductive Rule where
  | name (name : String)
  | pair (inSection name : String)
deriving DecidableEq, Repr

/-- The rule on a trimmed line. Comments start with `#` or `//`; a line with a second separator is
no rule. -/
def Rule.ofLine? (line : List Char) : Option Rule :=
  if line.isEmpty || ['#'].isPrefixOf line || ['/', '/'].isPrefixOf line then none
  else match Text.splitOnce NameHash.separator line with
    | none => some (.name (.ofList line))
    | some (s, n) => if NameHash.separator ∈ n then none else some (.pair (.ofList s) (.ofList n))

def rules (text : String) : List Rule :=
  (Text.trimmedLines text.toList).filterMap Rule.ofLine?

def addRule (d : Dictionary) : Rule → Dictionary
  | .name n => d.add n
  | .pair s n => d.addPair s n

def addRules (d : Dictionary) (text : String) : Dictionary :=
  (rules text).foldl addRule d

def ofRules (text : String) : Dictionary := empty.addRules text

def findPair? (target : UInt32) (sections names : List String) : Option (String × String) :=
  sections.findSome? fun s ↦ (names.find? fun n ↦ pairHash s n = target).map fun n ↦ (s, n)

/-- Looks for a pair of the given words that has the hash `target`, and registers it. -/
def guess (d : Dictionary) (target : UInt32) (sections names : List String) :
    Dictionary × Option String :=
  match findPair? target sections names with
  | some (s, n) => (d.addPair s n, some (pairName s n))
  | none => (d, none)

end Dictionary

end PropertyFile
