import PropertyFile.Json.Basic
import PropertyFile.Text.Utf8

namespace PropertyFile

namespace Numeral

open Number

def ofInt (n : Int) : Numeral := ⟨n < 0, digitChars n.natAbs, none, none⟩

def maxWhole : Int := 13

def maxZeros : Int := 5

/-- The number `digits * 10 ^ exponent`, always with a point or an exponent: in positional notation
if it is neither too large nor too small for that, and then with a digit after the point. -/
def ofDecimal (negative : Bool) (d : Decimal) : Numeral :=
  let ds := digitChars d.digits
  let point : Int := ds.length + d.exponent
  if d.digits = 0 then ⟨negative, ['0'], some ['0'], none⟩
  else if -maxZeros ≤ point ∧ point ≤ maxWhole then
    let (whole, part) := d.pointed
    ⟨negative, whole, some (if part.isEmpty then ['0'] else part), none⟩
  else
    let part := ds.drop 1
    let e := point - 1
    ⟨negative, ds.take 1, if part.isEmpty then none else some part,
      some (e < 0, digitChars e.natAbs)⟩

def chars (n : Numeral) : List Char :=
  signed n.negative
    (n.whole ++
      (match n.part with
        | some part => '.' :: part
        | none => []) ++
      match n.exponent with
      | some (negative, ds) => 'e' :: (if negative then '-' else '+') :: ds
      | none => [])

end Numeral

namespace Json

/-- A number as JSON; JSON has no infinity and no NaN. -/
def ofSingle (x : Number.Single) : Json :=
  match x.datum with
  | .finite negative m e => number (.ofDecimal negative (Number.Format.single.shortest .even m e))
  | _ => null

def escape (c : Char) : String :=
  if c = '"' then "\\\""
  else if c = '\\' then "\\\\"
  else if c = '\n' then "\\n"
  else if c = '\r' then "\\r"
  else if c = '\t' then "\\t"
  else if c = '\x08' then "\\b"
  else if c = '\x0c' then "\\f"
  else if c.toNat < 0x20 then "\\u" ++ Text.hexDigits 4 c.toNat
  else c.toString

def writeString (out : String) (text : Option String) : String :=
  ((text.getD "").toList.foldl (fun out c ↦ out ++ escape c) (out.push '"')).push '"'

def newline (pretty : Bool) (depth : Nat) : String :=
  if pretty then "\n" ++ String.ofList (List.replicate (2 * depth) ' ') else ""

def afterKey (pretty : Bool) : String := if pretty then ": " else ":"

mutual

/-- Appends a value that stands `depth` brackets deep. -/
def write (pretty : Bool) (depth : Nat) (out : String) : Json → String
  | null => out ++ "null"
  | bool b => out ++ if b then "true" else "false"
  | number n => out ++ String.ofList n.chars
  | string text => writeString out text
  | array [] => out ++ "[]"
  | array (j :: items) =>
    writeItems pretty depth
      (write pretty (depth + 1) (out ++ "[" ++ newline pretty (depth + 1)) j) items
  | object [] => out ++ "\x7b\x7d"
  | object ((key, j) :: fields) =>
    writeFields pretty depth
      (write pretty (depth + 1)
        (writeString (out ++ "\x7b" ++ newline pretty (depth + 1)) key ++ afterKey pretty) j)
      fields

def writeItems (pretty : Bool) (depth : Nat) (out : String) : List Json → String
  | [] => out ++ newline pretty depth ++ "]"
  | j :: items =>
    writeItems pretty depth
      (write pretty (depth + 1) (out ++ "," ++ newline pretty (depth + 1)) j) items

def writeFields (pretty : Bool) (depth : Nat) (out : String) :
    List (Option String × Json) → String
  | [] => out ++ newline pretty depth ++ "\x7d"
  | (key, j) :: fields =>
    writeFields pretty depth
      (write pretty (depth + 1)
        (writeString (out ++ "," ++ newline pretty (depth + 1)) key ++ afterKey pretty) j)
      fields

end

def compact (j : Json) : String := write false 0 "" j

def pretty (j : Json) : String := write true 0 "" j

end Json

end PropertyFile
