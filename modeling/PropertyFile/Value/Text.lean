import PropertyFile.Text.Blank
import PropertyFile.Value.Basic

namespace PropertyFile

open Number Text

namespace Value

def componentsText (xs : List Single) : String := " ".intercalate (xs.map Single.text)

mutual

/-- A table shows its entries in braces, each as `key = value`. -/
def text : Value → String
  | int32 n => toString n.toInt
  | float x => x.text
  | scaled x => x.text
  | int16 n => toString n.toInt
  | byte n => toString n.toNat
  | bool b => if b then "true" else "false"
  | vec2 x y => componentsText [x, y]
  | vec3 x y z => componentsText [x, y, z]
  | vec4 x y z w => componentsText [x, y, z, w]
  | string s => s
  | table entries => "\x7b" ++ ", ".intercalate (entryTexts entries) ++ "\x7d"

def entryTexts : List (Key × Value) → List String
  | [] => []
  | (k, v) :: rest => (k.text ++ " = " ++ v.text) :: entryTexts rest

end

inductive TextError where
  | invalid (text : String) (tag : Tag)
  | wrongArity (tag : Tag) (expected found : Nat)
  | unsupported (tag : Tag)
deriving DecidableEq, Repr

def TextError.message : TextError → String
  | invalid text tag => "cannot parse '" ++ text ++ "' as " ++ tag.title
  | wrongArity tag expected found =>
    tag.title ++ " needs " ++ toString expected ++ " components, got " ++ toString found
  | unsupported tag => tag.title ++ " values cannot be entered as text"

def readByte? (s : List Char) : Option UInt8 :=
  (readNat? s).bind fun n ↦ if n < 256 then some (UInt8.ofNat n) else none

def readBool? (s : List Char) : Option Bool :=
  let word := String.ofList (s.map asciiLower)
  if word = "true" then some true else if word = "false" then some false else none

def ofComponents? : List Single → Option Value
  | [x, y] => some (vec2 x y)
  | [x, y, z] => some (vec3 x y z)
  | [x, y, z, w] => some (vec4 x y z w)
  | _ => none

def isComponentSep (c : Char) : Bool := c = ' ' || c = ','

/-- Reads a value of the given tag. Blanks around a value do not count, except in a string; the
components of a vector stand between spaces and commas. -/
def ofText (text : String) (tag : Tag) : Except TextError Value :=
  let s := trim text.toList
  let orInvalid (v : Option Value) : Except TextError Value :=
    match v with
    | some v => .ok v
    | none => .error (.invalid text tag)
  match tag.arity? with
  | some arity =>
    match (fields isComponentSep s).mapM Single.read? with
    | none => .error (.invalid text tag)
    | some xs =>
      if xs.length = arity then orInvalid (ofComponents? xs)
      else .error (.wrongArity tag arity xs.length)
  | none =>
    match tag with
    | .int32 => orInvalid ((readWithin? Int32.minValue.toInt Int32.maxValue.toInt s).map fun n ↦
        int32 (.ofInt n))
    | .float => orInvalid ((Single.read? s).map float)
    | .scaled => orInvalid ((Single.read? s).map scaled)
    | .int16 => orInvalid ((readWithin? Int16.minValue.toInt Int16.maxValue.toInt s).map fun n ↦
        int16 (.ofInt n))
    | .byte => orInvalid ((readByte? s).map byte)
    | .bool => orInvalid ((readBool? s).map bool)
    | .string => .ok (string text)
    | tag => .error (.unsupported tag)

end Value

end PropertyFile
