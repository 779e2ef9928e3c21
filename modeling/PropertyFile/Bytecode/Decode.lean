import PropertyFile.Bytecode.Chunk
import PropertyFile.Bytes.Scan
import PropertyFile.Text.Utf8

namespace PropertyFile.Bytecode

inductive DecodeError where
  | signature
  | version (n : UInt8)
  | layout (part : String) (value : UInt8)
  | truncated
  | constantKind (n : UInt8)
  | nesting (depth : Nat)
deriving DecidableEq, Repr

abbrev Decoder := Reader DecodeError

namespace Decoder

def byte : Decoder UInt8 := Scan.byte.orFail .truncated

def nat (width : Nat) : Decoder Nat := (Scan.nat width).orFail .truncated

def int : Decoder Int32 := (fun n ↦ (UInt32.ofNat n).toInt32) <$> nat 4

def counted {α : Type} (p : Decoder α) : Decoder (List α) := do Reader.times (← nat 4) p

/-- The last byte is dropped, whatever it is, and broken text is repaired. -/
def string : Decoder (Option String) := do
  let size ← nat 4
  if size = 0 then return none
  else
    let bytes ← (Scan.take size).orFail .truncated
    return some (Text.ofBytes bytes.dropLast)

def constant : Decoder Constant := do
  let kind ← byte
  if kind = 0 then return .nil
  else if kind = 1 then return .bool ((← byte) ≠ 0)
  else if kind = 3 then return .number ⟨UInt64.ofNat (← nat 8)⟩
  else if kind = 4 then return .string ((← string).getD "")
  else throw (.constantKind kind)

def localRecord : Decoder Local := do
  let name ← string
  let start ← int
  return ⟨name, start, ← int⟩

/-- A chunk that may hold prototypes `levels - 1` deep. -/
def chunk : (levels : Nat) → Decoder Chunk
  | 0 => throw (.nesting (maxNesting + 1))
  | levels + 1 => do
    let source ← string
    let firstLine ← int
    let lastLine ← int
    let upvalueCount ← byte
    let parameterCount ← byte
    let varargFlags ← byte
    let stackSize ← byte
    let code ← counted (UInt32.ofNat <$> nat 4)
    let constants ← counted constant
    let prototypes ← counted (chunk levels)
    let lines ← counted int
    let locals ← counted localRecord
    let upvalues ← counted string
    return { source, firstLine, lastLine, upvalueCount, parameterCount, varargFlags, stackSize,
             code, constants := constants.toArray, prototypes, lines, locals, upvalues }

def checkLayout : List (String × UInt8) → Decoder Unit
  | [] => return ()
  | (part, expected) :: rest => do
    let value ← byte
    if value = expected then checkLayout rest else throw (.layout part value)

def file : Decoder Chunk := do
  let start ← (Scan.take 4).orFail .signature
  if start ≠ signature then throw .signature
  let version ← byte
  if version ≠ languageVersion then throw (.version version)
  checkLayout layout
  chunk (maxNesting + 1)

end Decoder

def decode (bytes : List UInt8) : Except DecodeError Chunk := (·.1) <$> Decoder.file.run bytes

def DecodeError.message : DecodeError → String
  | signature => "Invalid signature: not a luaobj file"
  | version n => "Unsupported Lua version: " ++ "0x" ++ Text.hexDigits 2 n.toNat
  | layout part value => "Unsupported " ++ part ++ ": " ++ toString value.toNat
  | truncated => "Truncated data"
  | constantKind n => "Unknown constant type: " ++ toString n.toNat
  | nesting depth => "Prototypes nested " ++ toString depth ++ " levels deep"

end PropertyFile.Bytecode
