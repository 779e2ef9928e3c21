import PropertyFile.Dictionary
import PropertyFile.Tree.Basic

namespace PropertyFile

def globalsSection : String := "Globals"

def unknownsSection : String := "Unknowns"

namespace Dictionary

def place (d : Dictionary) (hash : UInt32) : String × String :=
  match d.get? hash with
  | some known =>
    match Text.splitOnce NameHash.separator known.toList with
    | some (s, n) => (.ofList s, .ofList n)
    | none => (globalsSection, known)
  | none => (unknownsSection, unknownName hash)

def route (d : Dictionary) (p : Property) : String × Property :=
  let (s, n) := d.place p.hash
  (s, { p with name := some n })

end Dictionary

def Section.gather (name : String) (routed : List (String × Property)) : Section :=
  ⟨nameHash name, name, (routed.filter (·.1 = name)).map (·.2)⟩

namespace Tree

/-- The same properties, each named and in the section where the dictionary places it. -/
def organize (t : Tree) (d : Dictionary) : Tree :=
  let routed := t.properties.map d.route
  let names := (routed.map (·.1)).eraseDups
  { t with sections := sortSections (names.map fun n ↦ Section.gather n routed) }

def addRaw (t : Tree) (d : Dictionary) (hash : UInt32) (value : Value) (tag : Tag) : Tree :=
  let (name, p) := d.route ⟨hash, none, value, tag⟩
  t.add name p

end Tree

end PropertyFile
