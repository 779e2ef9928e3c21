import PropertyFile.Bytes.Scan
import PropertyFile.Number.Binary
import PropertyFile.Text.Utf8
import PropertyFile.Tree.Basic

namespace PropertyFile.Inibin

inductive DecodeError where
  | empty
  | shortHeader
  | versionOne
  | version (n : UInt8)
  | truncated
  | stringOffset (offset size : Nat)
  | reservedBlock (block : Nat)
deriving DecidableEq, Repr

def tenth : Number.Single := ⟨0x3DCCCCCD⟩

def ofByte (b : UInt8) : Number.Single := (Number.Single.ofInt b.toNat).product tenth

def rawSection : String := "Unknown Section"

def single : Scan Number.Single := Number.Single.mk <$> Scan.word32

def scaledByte : Scan Number.Single := ofByte <$> Scan.byte

def fixedValue? : Tag → Option (Scan Value)
  | .int32 => some ((Value.int32 ·.toInt32) <$> Scan.word32)
  | .float => some (.float <$> single)
  | .scaled => some (.scaled <$> scaledByte)
  | .int16 => some ((Value.int16 ·.toInt16) <$> Scan.word16)
  | .byte => some (.byte <$> Scan.byte)
  | .vec2Scaled => some (.vec2 <$> scaledByte <*> scaledByte)
  | .vec3Scaled => some (.vec3 <$> scaledByte <*> scaledByte <*> scaledByte)
  | .vec4Scaled => some (.vec4 <$> scaledByte <*> scaledByte <*> scaledByte <*> scaledByte)
  | .vec2 => some (.vec2 <$> single <*> single)
  | .vec3 => some (.vec3 <$> single <*> single <*> single)
  | .vec4 => some (.vec4 <$> single <*> single <*> single <*> single)
  | .bool | .string | .table => none

def hashes : Scan (List UInt32) := do Reader.times (← Scan.nat 2) Scan.word32

def withValues (tag : Tag) (hashes : List UInt32) (values : List Value) : List Property :=
  hashes.zipWith (fun h v ↦ ⟨h, none, v, tag⟩) values

def fixedBlock (tag : Tag) (value : Scan Value) : Scan (List Property) := do
  let hs ← hashes
  return withValues tag hs (← Reader.times hs.length value)

def bits (b : UInt8) : List Bool := (List.range 8).map b.toNat.testBit

def boolBlock : Scan (List Property) := do
  let hs ← hashes
  let bytes ← Scan.take ((hs.length + 7) / 8)
  return withValues .bool hs ((bytes.flatMap bits).map .bool)

/-- Where the text that starts at `i` ends: before a zero byte, or with the area. -/
def textEnd (area : Array UInt8) (i : Nat) : Nat :=
  if h : i < area.size then
    if area[i] = 0 then i else textEnd area (i + 1)
  else i
termination_by area.size - i

def textAt (area : Array UInt8) (offset : Nat) : String :=
  Text.ofBytes (area.extract offset (textEnd area offset)).toList

/-- A string block: hashes, where each text starts, and the string area. -/
def stringBlock (size : Nat) : Scan (List UInt32 × List Nat × Array UInt8) := do
  let hs ← hashes
  let offsets ← Reader.times hs.length (Scan.nat 2)
  let area ← Scan.take size
  return (hs, offsets, area.toArray)

abbrev Decoder := Reader DecodeError

def strings (size : Nat) : Decoder (List Property) := do
  let (hs, offsets, area) ← (stringBlock size).orFail .truncated
  match offsets.find? (size < ·) with
  | some offset => throw (.stringOffset offset size)
  | none => return withValues .string hs (offsets.map fun o ↦ .string (textAt area o))

def block (size n : Nat) : Decoder (List Property) :=
  match Tag.ofBlock? n with
  | none => throw (.reservedBlock n)
  | some .bool => boolBlock.orFail .truncated
  | some tag =>
    match fixedValue? tag with
    | some value => (fixedBlock tag value).orFail .truncated
    | none => strings size

/-- The numbers of the blocks that the flags announce, in ascending order. -/
def present (flags : Nat) : List Nat := (List.range 16).filter flags.testBit

def blocks (size flags : Nat) : Decoder (List Property) :=
  List.flatten <$> (present flags).mapM (block size)

def treeOf (properties : List Property) : Tree :=
  ⟨formatVersion, if properties.isEmpty then [] else [⟨0, rawSection, properties⟩]⟩

/-- A version, the size of the string area, and sixteen flags that say which type blocks follow.
Bytes after the last block do not count. -/
def decode : List UInt8 → Except DecodeError Tree
  | [] => .error .empty
  | v :: rest =>
    if v = formatVersion then
      match (Prod.mk <$> Scan.nat 2 <*> Scan.nat 2 : Scan (Nat × Nat)) rest with
      | .error _ => .error .shortHeader
      | .ok ((size, flags), body) => (treeOf ·.1) <$> (blocks size flags).run body
    else if v = 1 then .error .versionOne
    else .error (.version v)

end PropertyFile.Inibin
