namespace PropertyFile

inductive Tag where
  | int32
  | float
  | scaled
  | int16
  | byte
  | bool
  | vec3Scaled
  | vec3
  | vec2Scaled
  | vec2
  | vec4Scaled
  | vec4
  | string
  | table
deriving DecidableEq, Inhabited, Repr

namespace Tag

/-- The tags that have a block, in the order of their blocks. -/
def blocks : List Tag :=
  [int32, float, scaled, int16, byte, bool, vec3Scaled, vec3, vec2Scaled, vec2, vec4Scaled, vec4,
    string]

def all : List Tag := blocks ++ [table]

def ofBlock? (block : Nat) : Option Tag := blocks[block]?

def block? : Tag → Option Nat
  | int32 => some 0
  | float => some 1
  | scaled => some 2
  | int16 => some 3
  | byte => some 4
  | bool => some 5
  | vec3Scaled => some 6
  | vec3 => some 7
  | vec2Scaled => some 8
  | vec2 => some 9
  | vec4Scaled => some 10
  | vec4 => some 11
  | string => some 12
  | table => none

theorem ofBlock?_eq_some_iff {n : Nat} {t : Tag} : ofBlock? n = some t ↔ t.block? = some n := by
  constructor
  · intro h
    have hn : n < 13 := (List.getElem?_eq_some_iff.mp h).1
    revert t
    revert n
    decide
  · intro h
    cases t <;> simp only [block?, Option.some.injEq, reduceCtorEq] at h <;> subst h <;> rfl

def title : Tag → String
  | int32 => "int32"
  | float => "float"
  | scaled => "byte/10"
  | int16 => "int16"
  | byte => "byte"
  | bool => "bool"
  | vec3Scaled => "vec3 byte/10"
  | vec3 => "vec3 float"
  | vec2Scaled => "vec2 byte/10"
  | vec2 => "vec2 float"
  | vec4Scaled => "vec4 byte/10"
  | vec4 => "vec4 float"
  | string => "string"
  | table => "table"

/-- The name in interchange files. -/
def name : Tag → String
  | int32 => "Int32"
  | float => "Float"
  | scaled => "ByteDiv10"
  | int16 => "Int16"
  | byte => "Byte"
  | bool => "Bool"
  | vec3Scaled => "Vec3ByteDiv10"
  | vec3 => "Vec3Float"
  | vec2Scaled => "Vec2ByteDiv10"
  | vec2 => "Vec2Float"
  | vec4Scaled => "Vec4ByteDiv10"
  | vec4 => "Vec4Float"
  | string => "String"
  | table => "Table"

def ofName? (text : String) : Option Tag := all.find? fun t ↦ t.name = text

theorem ofName?_name (t : Tag) : ofName? t.name = some t := by cases t <;> decide

def arity? : Tag → Option Nat
  | vec2Scaled | vec2 => some 2
  | vec3Scaled | vec3 => some 3
  | vec4Scaled | vec4 => some 4
  | _ => none

end Tag

end PropertyFile
