import PropertyFile.Tree.Basic

namespace PropertyFile

def Property.line (p : Property) : String := p.displayName ++ " = " ++ p.value.text ++ "\n"

def Section.listing (s : Section) : String :=
  "[" ++ s.name ++ "]\n" ++ String.join (s.properties.map Property.line) ++ "\n"

def Tree.listing (t : Tree) : String := String.join (t.sections.map Section.listing)

def mentions (query : List Char) (text : String) : Bool :=
  Text.occursIn query (Text.lower text.toList)

/-- A property matches by its name, its value as shown, or its hash in decimal. -/
def Property.mentions (query : List Char) (p : Property) : Bool :=
  p.name.any (PropertyFile.mentions query) || PropertyFile.mentions query p.value.text ||
    Text.occursIn query (toString p.hash.toNat).toList

/-- A section whose name matches is kept whole, another one for its matching properties. -/
def Section.filter? (query : List Char) (s : Section) : Option Section :=
  if PropertyFile.mentions query s.name then some s
  else
    let kept := s.properties.filter (·.mentions query)
    if kept.isEmpty then none else some { s with properties := kept }

/-- The sections and properties that match a query in any case; all of them if it is blank. -/
def Tree.filter (t : Tree) (query : String) : Tree :=
  let q := Text.lower query.toList
  if (Text.trim q).isEmpty then t
  else { t with sections := t.sections.filterMap (Section.filter? q) }

end PropertyFile
