import PropertyFile.Text.Blank
import PropertyFile.Text.Utf8

namespace PropertyFile

inductive Node where
  | file (bytes : List UInt8)
  | folder
deriving DecidableEq, Repr

inductive Cause where
  | notFound
  | notFolder
  | isFolder
  | nameTooLong
  | zeroInName
  | notText
deriving DecidableEq, Repr

def Cause.message : Cause → String
  | notFound => "No such file or directory (os error 2)"
  | notFolder => "Not a directory (os error 20)"
  | isFolder => "Is a directory (os error 21)"
  | nameTooLong => "File name too long (os error 36)"
  | zeroInName => "file name contained an unexpected NUL byte"
  | notText => "stream did not contain valid UTF-8"

/-- A place is the list of names that leads to it from the folder where relative paths start, or
from the top folder, whose name is a slash. Each step out of the folder where paths start is two
dots. -/
structure Storage where
  nodes : List (List String × Node) := []

namespace Storage

def maxName : Nat := 255

def maxPath : Nat := 4095

def top : List String := ["/"]

/-- The folder where relative paths start, or one around it. -/
def isAround (place : List String) : Bool := place.all (· = "..")

def node? (s : Storage) (place : List String) : Option Node :=
  if isAround place ∨ place = top then some .folder
  else (s.nodes.find? (·.1 = place)).map (·.2)

def put (s : Storage) (place : List String) (node : Node) : Storage :=
  if s.nodes.any (·.1 = place) then
    ⟨s.nodes.map fun n ↦ if n.1 = place then (place, node) else n⟩
  else ⟨s.nodes ++ [(place, node)]⟩

def names (path : String) : List String := (Text.fields (· = '/') path.toList).map .ofList

def endsInSlash (path : String) : Bool := path.toList.getLast? = some '/'

def outer (place : List String) : List String :=
  if place = top then top
  else if isAround place then ".." :: place
  else place.dropLast

/-- Goes down from a place along names, of which all but the last must be folders. -/
def walk (s : Storage) (place : List String) : List String → Except Cause (List String)
  | [] => .ok place
  | name :: rest =>
    if name = "." then s.walk place rest
    else if name = ".." then s.walk (outer place) rest
    else if maxName < name.utf8ByteSize then .error .nameTooLong
    else
      let place := place ++ [name]
      if rest.isEmpty then .ok place
      else match s.node? place with
        | some .folder => s.walk place rest
        | some (.file _) => .error .notFolder
        | none => .error .notFound

def locate (s : Storage) (path : String) (names : List String) : Except Cause (List String) :=
  if '\x00' ∈ path.toList then .error .zeroInName
  else if maxPath < path.utf8ByteSize then .error .nameTooLong
  else match path.toList with
    | [] => .error .notFound
    | '/' :: _ => s.walk top names
    | _ => s.walk [] names

def read (s : Storage) (path : String) : Except Cause (List UInt8) := do
  let place ← s.locate path (names path ++ if endsInSlash path then ["."] else [])
  match s.node? place with
  | some (.file bytes) => .ok bytes
  | some .folder => .error .isFolder
  | none => .error .notFound

def readText (s : Storage) (path : String) : Except Cause String := do
  match Text.ofBytes? (← s.read path) with
  | some text => .ok text
  | none => .error .notText

/-- The place of a file that can be written. A path that ends in a slash names a folder, whether
there is one or not. -/
def writable (s : Storage) (path : String) : Except Cause (List String) := do
  if endsInSlash path then
    let _ ← s.locate path ((names path).dropLast ++ ["."])
    throw .isFolder
  else
    let place ← s.locate path (names path)
    if s.node? place = some .folder then throw .isFolder else return place

end Storage

end PropertyFile
