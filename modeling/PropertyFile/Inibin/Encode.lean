import PropertyFile.Bytes.Scan
import PropertyFile.Number.Binary
import PropertyFile.Text.Utf8
import PropertyFile.Tree.Basic

namespace PropertyFile.Inibin

inductive EncodeError where
  | version (n : UInt8)
  | noBlock (hash : UInt32) (tag : Tag)
  | mismatch (hash : UInt32) (tag : Tag)
  | stringsTooLarge
  | tooMany (count : Nat) (tag : Tag)
deriving DecidableEq, Repr

/-- The largest count or size that the format has room for. -/
def limit : Nat := 65535

structure Entry where
  property : Property
  offset : Nat
deriving Inhabited

def areaPart (p : Property) : List UInt8 :=
  match p.value with
  | .string s => Text.utf8 s ++ [0]
  | _ => []

def stringArea (ps : List Property) : List UInt8 := ps.flatMap areaPart

/-- Why a property cannot be written when the string area has grown to `size`. -/
def fault? (size : Nat) (p : Property) : Option EncodeError :=
  if p.tag = .table then some (.noBlock p.hash p.tag)
  else if !p.tag.accepts p.value then some (.mismatch p.hash p.tag)
  else if p.tag = .string ∧ limit < size then some .stringsTooLarge
  else none

/-- Gives each property its place in the string area; `done` is reversed. -/
def layOutFrom (size : Nat) (done : List Entry) : List Property → Except EncodeError (List Entry)
  | [] => if limit < size then .error .stringsTooLarge else .ok done.reverse
  | p :: ps =>
    match fault? size p with
    | some e => .error e
    | none => layOutFrom (size + (areaPart p).length) (⟨p, size⟩ :: done) ps

def layOut (ps : List Property) : Except EncodeError (List Entry) := layOutFrom 0 [] ps

def blockEntries (tag : Tag) (entries : List Entry) : List Entry :=
  (entries.filter (·.property.tag = tag)).mergeSort fun a b ↦ a.property.hash ≤ b.property.hash

def packByte (bits : List Bool) : UInt8 :=
  UInt8.ofNat (bits.foldr (fun b n ↦ b.toNat + 2 * n) 0)

def packFrom (done : List UInt8) : List Bool → List UInt8
  | [] => done.reverse
  | b :: bits => packFrom (packByte ((b :: bits).take 8) :: done) (bits.drop 7)
termination_by bits => bits.length
decreasing_by
  simp only [List.length_drop, List.length_cons]
  omega

def pack (bits : List Bool) : List UInt8 := packFrom [] bits

/-- The whole part of a number; 0 below that and for NaN, 255 for anything larger. -/
def wholeByte (x : Number.Single) : UInt8 :=
  match x.datum with
  | .nan => 0
  | .infinite negative => if negative then 0 else 255
  | .finite negative m e =>
    if negative then 0
    else
      let (n, d) := Number.scaleBy m 1 e
      UInt8.ofNat (min 255 (n / d))

def toByte (x : Number.Single) : UInt8 := wholeByte (x.product (.ofInt 10))

def singleBytes (x : Number.Single) : List UInt8 := leBytes 4 x.bits.toNat

def components (tag : Tag) (xs : List Number.Single) : List UInt8 :=
  match tag with
  | .vec2Scaled | .vec3Scaled | .vec4Scaled => xs.map toByte
  | _ => xs.flatMap singleBytes

def fixedBytes (tag : Tag) : Value → List UInt8
  | .int32 n => leBytes 4 n.toUInt32.toNat
  | .float x => singleBytes x
  | .scaled x => [toByte x]
  | .int16 n => leBytes 2 n.toUInt16.toNat
  | .byte n => [n]
  | .vec2 x y => components tag [x, y]
  | .vec3 x y z => components tag [x, y, z]
  | .vec4 x y z w => components tag [x, y, z, w]
  | .bool _ | .string _ | .table _ => []

/-- What follows the hashes of a block; the string area is not part of it. -/
def payload (tag : Tag) (entries : List Entry) : List UInt8 :=
  match tag with
  | .bool => pack (entries.map fun e ↦ match e.property.value with
    | .bool b => b
    | _ => false)
  | .string => entries.flatMap fun e ↦ leBytes 2 e.offset
  | tag => entries.flatMap fun e ↦ fixedBytes tag e.property.value

def blockBytes (tag : Tag) (entries : List Entry) : Except EncodeError (List UInt8) :=
  if limit < entries.length then .error (.tooMany entries.length tag)
  else .ok (leBytes 2 entries.length ++
    entries.flatMap (fun e ↦ leBytes 4 e.property.hash.toNat) ++ payload tag entries)

structure Written where
  bytes : List UInt8
  failure : Option EncodeError

/-- Writes one piece after the other, up to the first that fails. -/
def Written.ofPieces : List (Except EncodeError (List UInt8)) → Written
  | [] => ⟨[], none⟩
  | .error e :: _ => ⟨[], some e⟩
  | .ok bytes :: rest =>
    let w := ofPieces rest
    ⟨bytes ++ w.bytes, w.failure⟩

def typeBlocks (entries : List Entry) : List (Tag × List Entry) :=
  (Tag.blocks.map fun t ↦ (t, blockEntries t entries)).filter (!·.2.isEmpty)

def flags (blocks : List (Tag × List Entry)) : Nat :=
  blocks.foldr (fun b n ↦ Nat.pow 2 (b.1.block?.getD 0) + n) 0

def header (size flags : Nat) : List UInt8 := formatVersion :: (leBytes 2 size ++ leBytes 2 flags)

/-- Writes a tree. Nothing is written before every property is known to have a place. -/
def write (t : Tree) : Written :=
  if t.version ≠ formatVersion then ⟨[], some (.version t.version)⟩
  else
    let ps := t.properties
    match layOut ps with
    | .error e => ⟨[], some e⟩
    | .ok entries =>
      let area := stringArea ps
      let blocks := typeBlocks entries
      .ofPieces (.ok (header area.length (flags blocks)) ::
        (blocks.map fun b ↦ blockBytes b.1 b.2) ++ [.ok area])

def encode (t : Tree) : Except EncodeError (List UInt8) :=
  let w := write t
  match w.failure with
  | some e => .error e
  | none => .ok w.bytes

end PropertyFile.Inibin
