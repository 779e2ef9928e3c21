import PropertyFile.Json.Basic
import PropertyFile.Tree.Basic

namespace PropertyFile

open Number

namespace Json

def text? : Json → Option String
  | string s => s
  | _ => none

def bool? : Json → Option Bool
  | bool b => some b
  | _ => none

def items? : Json → Option (List Json)
  | array items => some items
  | _ => none

/-- The field of a name: missing or there once. -/
def lookup? (fields : List (String × Json)) (name : String) : Option (Option Json) :=
  match fields.filter (·.1 = name) with
  | [] => some none
  | [f] => some (some f.2)
  | _ => none

def textFields? (fields : List (Option String × Json)) : Option (List (String × Json)) :=
  fields.mapM fun f ↦ f.1.map fun key ↦ (key, f.2)

/-- The fields of a record, in order: those of an object, where others are passed over, or the items
of an array. -/
def record? (names : List String) : Json → Option (List (Option Json))
  | object fields => (textFields? fields).bind fun fs ↦ names.mapM (lookup? fs)
  | array items => if items.length = names.length then some (items.map some) else none
  | _ => none

/-- The levels that are left inside a bracket. -/
def enter? : (levels : Nat) → Option Nat
  | 0 => none
  | levels + 1 => some levels

end Json

/-- Reads a tag: its name, or an object with its name as the only key and null. -/
def Tag.ofJson? (levels : Nat) : Json → Option Tag
  | .string s => s.bind Tag.ofName?
  | .object [(some name, .null)] => (Json.enter? levels).bind fun _ ↦ Tag.ofName? name
  | _ => none

namespace Json.Library

variable (lib : Library)

def ofSingles (xs : List Single) : Json := array (xs.map lib.ofSingle)

mutual

def ofValue : Value → Json
  | .int32 n => ofFields [("Int32", lib.ofInt n.toInt)]
  | .float x => ofFields [("Float", lib.ofSingle x)]
  | .scaled x => ofFields [("ByteDiv10", lib.ofSingle x)]
  | .int16 n => ofFields [("Int16", lib.ofInt n.toInt)]
  | .byte n => ofFields [("Byte", lib.ofInt n.toNat)]
  | .bool b => ofFields [("Bool", bool b)]
  | .vec2 x y => ofFields [("Vec2", lib.ofSingles [x, y])]
  | .vec3 x y z => ofFields [("Vec3", lib.ofSingles [x, y, z])]
  | .vec4 x y z w => ofFields [("Vec4", lib.ofSingles [x, y, z, w])]
  | .string s => ofFields [("String", ofText s)]
  | .table entries => ofFields [("Table", object (ofEntries entries))]

def ofEntries : List (Key × Value) → List (Option String × Json)
  | [] => []
  | (k, v) :: rest => (some k.text, ofValue v) :: ofEntries rest

end

def ofProperty (p : Property) : Json :=
  ofFields [("hash", lib.ofInt p.hash.toNat),
    ("name", match p.name with
      | some n => ofText n
      | none => null),
    ("value", lib.ofValue p.value), ("ty", ofText p.tag.name)]

def ofSection (s : Section) : Json :=
  ofFields [("hash", lib.ofInt s.hash.toNat), ("name", ofText s.name),
    ("properties", array (s.properties.map lib.ofProperty))]

def ofTree (t : Tree) : Json :=
  ofFields [("version", lib.ofInt t.version.toNat),
    ("sections", array (t.sections.map lib.ofSection))]

def between? (low high : Int) (j : Json) : Option Int :=
  (lib.integer? j).bind fun i ↦ if low ≤ i ∧ i ≤ high then some i else none

def byte? (j : Json) : Option UInt8 :=
  (lib.between? 0 (UInt8.size - 1 : Nat) j).map fun i ↦ UInt8.ofNat i.toNat

def word32? (j : Json) : Option UInt32 :=
  (lib.between? 0 (UInt32.size - 1 : Nat) j).map fun i ↦ UInt32.ofNat i.toNat

def int16? (j : Json) : Option Int16 :=
  (lib.between? Int16.minValue.toInt Int16.maxValue.toInt j).map Int16.ofInt

def int32? (j : Json) : Option Int32 :=
  (lib.between? Int32.minValue.toInt Int32.maxValue.toInt j).map Int32.ofInt

def singles? (levels : Nat) : Json → Option (List Single)
  | array items => (enter? levels).bind fun _ ↦ items.mapM lib.single?
  | _ => none

mutual

/-- Reads a value when `levels` more brackets may be open. -/
def value? (levels : Nat) : Json → Option Value
  | .object [(some kind, j)] =>
    (enter? levels).bind fun levels ↦
      if kind = "Table" then table? levels j
      else if kind = "Int32" then (lib.int32? j).map .int32
      else if kind = "Float" then (lib.single? j).map .float
      else if kind = "ByteDiv10" then (lib.single? j).map .scaled
      else if kind = "Int16" then (lib.int16? j).map .int16
      else if kind = "Byte" then (lib.byte? j).map .byte
      else if kind = "Bool" then j.bool?.map .bool
      else if kind = "Vec2" then
        match lib.singles? levels j with
        | some [x, y] => some (.vec2 x y)
        | _ => none
      else if kind = "Vec3" then
        match lib.singles? levels j with
        | some [x, y, z] => some (.vec3 x y z)
        | _ => none
      else if kind = "Vec4" then
        match lib.singles? levels j with
        | some [x, y, z, w] => some (.vec4 x y z w)
        | _ => none
      else if kind = "String" then j.text?.map .string
      else none
  | _ => none

def table? (levels : Nat) : Json → Option Value
  | .object fields => (enter? levels).bind fun levels ↦ (entries? levels fields).map .tableOf
  | _ => none

def entries? (levels : Nat) : List (Option String × Json) → Option (List (Key × Value))
  | [] => some []
  | (key, j) :: rest => do
    let key ← key
    let v ← value? levels j
    return (.ofText key, v) :: (← entries? levels rest)

end

/-- Reads a property; its name may be null, and in an object it may be missing. -/
def property? (levels : Nat) (j : Json) : Option Property := do
  let levels ← enter? levels
  match ← j.record? ["hash", "name", "value", "ty"] with
  | [some hash, name, some value, some tag] =>
    let name ← match name with
      | none | some .null => some none
      | some n => n.text?.map some
    return ⟨← lib.word32? hash, name, ← lib.value? levels value, ← Tag.ofJson? levels tag⟩
  | _ => none

def section? (levels : Nat) (j : Json) : Option Section := do
  let levels ← enter? levels
  match ← j.record? ["hash", "name", "properties"] with
  | [some hash, some name, some properties] =>
    let inner ← enter? levels
    return ⟨← lib.word32? hash, ← name.text?,
      ← (← properties.items?).mapM (lib.property? inner)⟩
  | _ => none

def tree? (j : Json) : Option Tree := do
  let levels ← enter? lib.depth
  match ← j.record? ["version", "sections"] with
  | [some version, some sections] =>
    let inner ← enter? levels
    return ⟨← lib.byte? version, ← (← sections.items?).mapM (lib.section? inner)⟩
  | _ => none

def write (pretty : Bool) (t : Tree) : String := lib.print pretty (lib.ofTree t)

def read? (text : String) : Option Tree := (lib.parse? text).bind lib.tree?

end Json.Library

end PropertyFile
