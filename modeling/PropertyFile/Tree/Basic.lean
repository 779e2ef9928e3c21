import PropertyFile.NameHash
import PropertyFile.Value.Text

namespace PropertyFile

structure Property where
  hash : UInt32
  name : Option String
  value : Value
  tag : Tag
deriving Inhabited, Repr

structure Section where
  hash : UInt32
  name : String
  properties : List Property
deriving Inhabited, Repr

structure Tree where
  version : UInt8
  sections : List Section
deriving Inhabited, Repr

def formatVersion : UInt8 := 2

/-- What a name made up for an unknown hash starts with. -/
def unknownMark : String := "Unknown_"

def unknownName (hash : UInt32) : String := unknownMark ++ toString hash.toNat

namespace Property

def displayName (p : Property) : String := p.name.getD (unknownName p.hash)

def isUnresolved (p : Property) : Bool :=
  match p.name with
  | none => true
  | some n => n.isEmpty || unknownMark.toList.isPrefixOf n.toList

end Property

/-- An empty section; its hash is that of its name. -/
def Section.named (name : String) : Section := ⟨nameHash name, name, []⟩

namespace Section

def push (s : Section) (p : Property) : Section := { s with properties := s.properties ++ [p] }

end Section

def lowerText (s : String) : String := .ofList (Text.lower s.toList)

theorem lowerText_eq_map {s : String} (h : ∀ c ∈ s.toList, c.toNat < 128) :
    (lowerText s).toList = s.toList.map Char.toLower := by
  rw [lowerText, String.toList_ofList, Text.lower, Text.lowerRest_ascii h]
  rfl

/-- Sections are ordered by their names in lower case; of two that differ only in case, the one
whose name is the larger text comes first. -/
def Section.order (a b : Section) : Ordering :=
  (compare (lowerText a.name) (lowerText b.name)).then (compare b.name a.name)

theorem Section.order_eq_lt_iff {a b : Section} : a.order b = .lt ↔
    lowerText a.name < lowerText b.name ∨
      lowerText a.name = lowerText b.name ∧ b.name < a.name := by
  have hlt : ∀ s t : String, compare s t = .lt ↔ s < t := fun _ _ ↦ compareOfLessAndEq_eq_lt
  rw [Section.order, Ordering.then_eq_lt, hlt, hlt, Std.compare_eq_iff_eq]

def sortSections (sections : List Section) : List Section :=
  sections.mergeSort fun a b ↦ (a.order b).isLE

namespace Tree

def empty : Tree := ⟨formatVersion, []⟩

def properties (t : Tree) : List Property := t.sections.flatMap Section.properties

def size (t : Tree) : Nat := t.properties.length

def section? (t : Tree) (name : String) : Option Section := t.sections.find? (·.name = name)

def find? (t : Tree) (hash : UInt32) : Option (String × Property) :=
  t.sections.findSome? fun s ↦ (s.properties.find? (·.hash = hash)).map fun p ↦ (s.name, p)

def withSection (t : Tree) (name : String) : Tree :=
  if t.sections.any (·.name = name) then t
  else { t with sections := sortSections (t.sections ++ [.named name]) }

/-- The tree with a section of that name, and the place of that section in it. -/
def findOrCreate (t : Tree) (name : String) : Tree × Nat :=
  let t := t.withSection name
  (t, (t.sections.findIdx? (·.name = name)).getD (t.sections.length - 1))

def pushAt (t : Tree) (i : Nat) (p : Property) : Tree :=
  { t with sections := t.sections.modify i (·.push p) }

/-- Appends a property to the first section of that name, if there is one. -/
def pushInto (t : Tree) (name : String) (p : Property) : Tree :=
  t.pushAt (t.sections.findIdx (·.name = name)) p

def add (t : Tree) (name : String) (p : Property) : Tree :=
  let (t, i) := t.findOrCreate name
  t.pushAt i p

def addNamed (t : Tree) (inSection name : String) (value : Value) (tag : Tag) : Tree :=
  t.add inSection ⟨pairHash inSection name, some name, value, tag⟩

/-- Removes the first property with the given hash; its section stays. -/
def erase (t : Tree) (hash : UInt32) : Tree :=
  { t with
    sections := t.sections.modify (t.sections.findIdx fun s ↦ s.properties.any (·.hash = hash))
      fun s ↦ { s with properties := s.properties.eraseP (·.hash = hash) } }

end Tree

end PropertyFile
