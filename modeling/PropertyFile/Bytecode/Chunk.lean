import PropertyFile.Bytecode.Instruction
import PropertyFile.Number.Binary

namespace PropertyFile.Bytecode

deriving instance Hashable for Number.Double

inductive Constant where
  | nil
  | bool (b : Bool)
  | number (x : Number.Double)
  | string (text : String)
deriving DecidableEq, Hashable, Inhabited, Repr

structure Local where
  name : Option String
  start : Int32
  stop : Int32
deriving DecidableEq, Inhabited, Repr

structure Chunk where
  source : Option String := none
  firstLine : Int32 := 0
  lastLine : Int32 := 0
  upvalueCount : UInt8 := 0
  parameterCount : UInt8 := 0
  varargFlags : UInt8 := 0
  stackSize : UInt8 := 0
  code : List Word := []
  constants : Array Constant := #[]
  prototypes : List Chunk := []
  lines : List Int32 := []
  locals : List Local := []
  upvalues : List (Option String) := []
deriving Inhabited, Repr

def Chunk.label (c : Chunk) : String :=
  match c.source with
  | some s => if s.isEmpty then "chunk" else s
  | none => "chunk"

def signature : List UInt8 := [0x1B, 0x4C, 0x75, 0x61]

def languageVersion : UInt8 := 0x51

/-- What follows the version: the layout that a reader insists on, each part with its name. -/
def layout : List (String × UInt8) :=
  [("format", 0), ("endianness", 1), ("sizeof(int)", 4), ("sizeof(size_t)", 4),
    ("sizeof(Instruction)", 4), ("sizeof(lua_Number)", 8), ("integral flag", 0)]

/-- How deep prototypes may nest below the main chunk. -/
def maxNesting : Nat := 200

end PropertyFile.Bytecode
