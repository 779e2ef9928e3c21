import PropertyFile.Document
import PropertyFile.Text.HiddenTable

namespace PropertyFile.CommandLine

open Text

def isHidden (c : Char) : Bool :=
  c.toNat < 0x20 || hiddenRanges.any fun r ↦ r.1 ≤ c.toNat && c.toNat ≤ r.2

def quoteChar (c : Char) : List Char :=
  if c = '"' || c = '\\' then ['\\', c]
  else if c.toNat = 0 then ['\\', '0']
  else if c = '\t' then ['\\', 't']
  else if c = '\n' then ['\\', 'n']
  else if c = '\r' then ['\\', 'r']
  else if isHidden c then ['\\', 'u', '\x7b'] ++ Nat.toDigits 16 c.toNat ++ ['\x7d']
  else [c]

def quote (s : String) : String := .ofList ('"' :: s.toList.flatMap quoteChar ++ ['"'])

def reportFields (kind : String) (fields : List (String × String)) : String :=
  kind ++ " \x7b " ++ ", ".intercalate (fields.map fun f ↦ f.1 ++ ": " ++ f.2) ++ " \x7d"

def reportOf (kind detail : String) : String := kind ++ "(" ++ detail ++ ")"

def system (code kind message : String) : String :=
  reportFields "Os" [("code", code), ("kind", kind), ("message", quote message)]

def causeReport : Cause → String
  | .notFound => system "2" "NotFound" "No such file or directory"
  | .notFolder => system "20" "NotADirectory" "Not a directory"
  | .isFolder => system "21" "IsADirectory" "Is a directory"
  | .nameTooLong => system "36" "InvalidFilename" "File name too long"
  | .zeroInName =>
    reportFields "Error" [("kind", "InvalidInput"), ("message", quote Cause.zeroInName.message)]
  | .notText =>
    reportFields "Error" [("kind", "InvalidData"), ("message", quote Cause.notText.message)]

def decodeKind : Inibin.DecodeError → String
  | .empty | .shortHeader | .stringOffset .. => "MalformedHeader"
  | .versionOne => "VersionOneUnsupported"
  | .version _ => "UnsupportedVersion"
  | .truncated => "TruncatedData"
  | .reservedBlock _ => "UnsupportedType"

def decodeReport (e : Inibin.DecodeError) : String :=
  match e with
  | .version n => reportOf (decodeKind e) (toString n.toNat)
  | .reservedBlock n => reportOf (decodeKind e) (toString n)
  | .versionOne | .truncated => decodeKind e
  | .empty | .shortHeader | .stringOffset .. =>
    reportOf (decodeKind e) (quote (e.headerFault?.getD ""))

def encodeKind : Inibin.EncodeError → String
  | .version _ => "UnsupportedVersion"
  | .noBlock .. => "NoBlockForType"
  | .mismatch .. => "EncodingTypeMismatch"
  | .stringsTooLarge | .tooMany .. => "TooLarge"

def encodeReport (e : Inibin.EncodeError) : String :=
  match e with
  | .version n => reportOf (encodeKind e) (toString n.toNat)
  | .noBlock hash tag | .mismatch hash tag =>
    reportFields (encodeKind e) [("hash", toString hash.toNat), ("ty", tag.name)]
  | .stringsTooLarge | .tooMany .. => reportOf (encodeKind e) (quote (e.excess?.getD ""))

def chunkKind : Bytecode.DecodeError → String
  | .signature => "InvalidSignature"
  | .version _ => "UnsupportedVersion"
  | .layout .. => "UnsupportedLayout"
  | .truncated => "TruncatedData"
  | .constantKind _ => "UnknownConstantType"
  | .nesting _ => "NestingTooDeep"

def chunkReport (e : Bytecode.DecodeError) : String :=
  match e with
  | .version n | .constantKind n => reportOf (chunkKind e) (toString n.toNat)
  | .layout part value =>
    reportFields (chunkKind e) [("field", quote part), ("value", toString value.toNat)]
  | .nesting depth => reportOf (chunkKind e) (toString depth)
  | .signature | .truncated => chunkKind e

def compileKind : Bytecode.CompileError → String
  | .tableTooDeep => "TableTooDeep"
  | .poolOverflow _ => "ConstantPoolOverflow"

def compileReport (e : Bytecode.CompileError) : String :=
  match e with
  | .tableTooDeep => compileKind e
  | .poolOverflow count => reportOf (compileKind e) (toString count)

def documentReport : Document.Error → String
  | .unknownKind path => reportOf "UnknownKind" (quote path)
  | .vocabulary path cause =>
    reportFields "Vocabulary" [("path", quote path), ("source", causeReport cause)]
  | .dictionary path cause =>
    reportOf "Dictionary"
      (reportFields "Io" [("path", quote path), ("source", causeReport cause)])
  | .access cause => reportOf "Io" (causeReport cause)
  | .inibinDecode e => reportOf "Inibin" (decodeReport e)
  | .inibinEncode e => reportOf "Inibin" (encodeReport e)
  | .chunk e => reportOf "LuaObj" (chunkReport e)
  | .compile e => reportOf "LuaObj" (compileReport e)

end PropertyFile.CommandLine
