import PropertyFile.Number.Decimal
import PropertyFile.Tag

namespace PropertyFile

open Number

inductive Key where
  | index (i : Int64)
  | name (text : String)
deriving DecidableEq, Inhabited, Repr

namespace Key

def order : Key → Key → Ordering
  | index i, index j => compare i j
  | index _, name _ => .lt
  | name _, index _ => .gt
  | name s, name t => compare s t

/-- The key that a text shows: an integer in square brackets is an index. -/
def ofText (text : String) : Key :=
  match text.toList with
  | '[' :: rest =>
    if rest.getLast? = some ']' then
      match readWithin? Int64.minValue.toInt Int64.maxValue.toInt rest.dropLast with
      | some n => index (.ofInt n)
      | none => name text
    else name text
  | _ => name text

def text : Key → String
  | index i => "[" ++ toString i.toInt ++ "]"
  | name s => s

end Key

inductive Value where
  | int32 (n : Int32)
  | float (x : Single)
  | scaled (x : Single)
  | int16 (n : Int16)
  | byte (n : UInt8)
  | bool (b : Bool)
  | vec2 (x y : Single)
  | vec3 (x y z : Single)
  | vec4 (x y z w : Single)
  | string (text : String)
  | table (entries : List (Key × Value))
deriving Inhabited, Repr

namespace Value

def tag : Value → Tag
  | int32 _ => .int32
  | float _ => .float
  | scaled _ => .scaled
  | int16 _ => .int16
  | byte _ => .byte
  | bool _ => .bool
  | vec2 .. => .vec2
  | vec3 .. => .vec3
  | vec4 .. => .vec4
  | string _ => .string
  | table _ => .table

def insertNew (k : Key) (v : Value) : List (Key × Value) → List (Key × Value)
  | [] => [(k, v)]
  | (k', v') :: rest =>
    match k.order k' with
    | .lt => (k, v) :: (k', v') :: rest
    | .eq => (k', v') :: rest
    | .gt => (k', v') :: insertNew k v rest

/-- The table of the given entries; of two with one key the later one counts. -/
def tableOf (entries : List (Key × Value)) : Value :=
  table (entries.foldr (fun e ↦ insertNew e.1 e.2) [])

end Value

/-- Whether a value has the shape that the tag names. -/
def Tag.accepts : Tag → Value → Bool
  | .int32, .int32 _ => true
  | .float, .float _ => true
  | .scaled, .scaled _ => true
  | .int16, .int16 _ => true
  | .byte, .byte _ => true
  | .bool, .bool _ => true
  | .vec2Scaled, .vec2 .. => true
  | .vec2, .vec2 .. => true
  | .vec3Scaled, .vec3 .. => true
  | .vec3, .vec3 .. => true
  | .vec4Scaled, .vec4 .. => true
  | .vec4, .vec4 .. => true
  | .string, .string _ => true
  | .table, .table _ => true
  | _, _ => false

theorem Tag.accepts_tag (v : Value) : v.tag.accepts v = true := by cases v <;> rfl

end PropertyFile
