import PropertyFile.Text.Lower
import PropertyFile.Text.Utf8

namespace PropertyFile.NameHash

def multiplier : UInt32 := 65599

def separator : Char := '*'

def units (c : Char) : List UInt32 :=
  let n := c.val
  if n < 0x10000 then [n]
  else [0xD800 + (n - 0x10000) / 0x400, 0xDC00 + (n - 0x10000) % 0x400]

/-- The lower case of a character that is one unit, where that is one unit too. A surrogate has no
lower case, and the dotted capital I has one of two characters. -/
def foldCase (c : Char) : Char :=
  if c = Text.dottedCapitalI ∨ 0x10000 ≤ c.val then c
  else
    let l := Text.lowerChar c
    if l.val < 0x10000 then l else c

def step (hash unit : UInt32) : UInt32 := unit + multiplier * hash

def extendChar (hash : UInt32) (c : Char) : UInt32 := (units (foldCase c)).foldl step hash

def extend (hash : UInt32) (text : String) : UInt32 := text.toList.foldl extendChar hash

end NameHash

open NameHash in
def nameHash (text : String) : UInt32 := extend 0 text

open NameHash in
def pairHash (inSection name : String) : UInt32 :=
  extend (extend (nameHash inSection) separator.toString) name

def hexHash (hash : UInt32) : String := "0x" ++ Text.hexDigits 8 hash.toNat

end PropertyFile
