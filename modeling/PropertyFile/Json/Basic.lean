import PropertyFile.Number.Decimal

namespace PropertyFile

/-- The text of a number: digits before the point, after it if there is one, and of the exponent
if there is one, each with its sign. -/
structure Numeral where
  negative : Bool
  whole : List Char
  part : Option (List Char)
  exponent : Option (Bool × List Char)
deriving DecidableEq, Inhabited, Repr

/-- A string is missing where an escaped surrogate stands alone, as that spells no text. -/
inductive Json where
  | null
  | bool (b : Bool)
  | number (n : Numeral)
  | string (text : Option String)
  | array (items : List Json)
  | object (fields : List (Option String × Json))
deriving Inhabited, Repr

namespace Json

/-- What a program takes from a library for JSON: the numbers it writes and what it reads them as,
its two forms of text, and how many brackets may be open in a text that it reads, that of the
innermost value included. -/
structure Library where
  ofInt : Int → Json
  ofSingle : Number.Single → Json
  integer? : Json → Option Int
  single? : Json → Option Number.Single
  print (pretty : Bool) : Json → String
  parse? : String → Option Json
  depth : Nat

def ofText (s : String) : Json := string (some s)

def ofFields (fields : List (String × Json)) : Json :=
  object (fields.map fun f ↦ (some f.1, f.2))

end Json

end PropertyFile
