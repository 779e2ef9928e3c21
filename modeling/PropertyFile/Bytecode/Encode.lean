import PropertyFile.Bytecode.Chunk
import PropertyFile.Bytes.Scan
import PropertyFile.Text.Utf8

namespace PropertyFile.Bytecode

def countBytes (n : Nat) : List UInt8 := leBytes 4 n

def intBytes (n : Int32) : List UInt8 := leBytes 4 n.toUInt32.toNat

def stringBytes : Option String → List UInt8
  | none => leBytes 4 0
  | some s =>
    let text := Text.utf8 s
    leBytes 4 (text.length + 1) ++ text ++ [0]

def Constant.bytes : Constant → List UInt8
  | nil => [0]
  | bool b => [1, if b then 1 else 0]
  | number x => 3 :: leBytes 8 x.bits.toNat
  | string s => 4 :: stringBytes (some s)

def Local.bytes (l : Local) : List UInt8 :=
  stringBytes l.name ++ intBytes l.start ++ intBytes l.stop

mutual

def Chunk.body : Chunk → List UInt8
  | ⟨source, firstLine, lastLine, upvalueCount, parameterCount, varargFlags, stackSize, code,
      constants, prototypes, lines, locals, upvalues⟩ =>
    stringBytes source ++ intBytes firstLine ++ intBytes lastLine ++
      [upvalueCount, parameterCount, varargFlags, stackSize] ++
      countBytes code.length ++ code.flatMap (fun w ↦ leBytes 4 w.toNat) ++
      countBytes constants.size ++ constants.toList.flatMap Constant.bytes ++
      countBytes prototypes.length ++ bodies prototypes ++
      countBytes lines.length ++ lines.flatMap intBytes ++
      countBytes locals.length ++ locals.flatMap Local.bytes ++
      countBytes upvalues.length ++ upvalues.flatMap stringBytes

def bodies : List Chunk → List UInt8
  | [] => []
  | c :: rest => c.body ++ bodies rest

end

def preamble : List UInt8 := signature ++ languageVersion :: layout.map (·.2)

def encode (c : Chunk) : List UInt8 := preamble ++ c.body

end PropertyFile.Bytecode
