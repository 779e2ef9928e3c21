import PropertyFile.Bytecode.Compile
import PropertyFile.Bytecode.Decode
import PropertyFile.Bytecode.Encode
import PropertyFile.Inibin.Message
import PropertyFile.Machine.Tree
import PropertyFile.Storage
import PropertyFile.Tree.Routing
import PropertyFile.Tree.Vocabulary

namespace PropertyFile

inductive Kind where
  | inibin
  | troybin
  | luaobj
deriving DecidableEq, Repr

def lastName? (path : String) : Option (List Char) :=
  match ((Text.fields (· = '/') path.toList).filter (· ≠ ['.'])).getLast? with
  | some ['.', '.'] => none
  | name => name

/-- What follows the last dot of a name, unless that dot comes first. -/
def extension? (name : List Char) : Option (List Char) :=
  let tail := name.reverse.takeWhile (· ≠ '.')
  if tail.length + 1 < name.length then some tail.reverse else none

def Kind.ofPath? (path : String) : Option Kind := do
  let ext ← extension? (← lastName? path)
  let ext := String.ofList (ext.map Number.asciiLower)
  if ext = "inibin" then some inibin
  else if ext = "troybin" then some troybin
  else if ext = "luaobj" then some luaobj
  else none

/-- Where names come from: rules for each kind of file, and words for sections named at run time. -/
structure Options where
  dictionary : Option String
  troybinDictionary : Option String
  vocabulary : Option String
  resolve : Bool
deriving DecidableEq, Repr

namespace Options

def default : Options :=
  ⟨some "inibin_dict.txt", some "troybin_dict.txt", some "troy_properties.txt", true⟩

def bare : Options := ⟨none, none, none, false⟩

def dictionaryFor (o : Options) : Kind → Option String
  | .inibin => o.dictionary
  | .troybin => o.troybinDictionary
  | .luaobj => none

end Options

structure Document where
  kind : Kind
  tree : Tree
  dictionary : Dictionary
  resolution : Option Resolution

namespace Document

inductive Error where
  | unknownKind (path : String)
  | vocabulary (path : String) (cause : Cause)
  | dictionary (path : String) (cause : Cause)
  | access (cause : Cause)
  | inibinDecode (e : Inibin.DecodeError)
  | inibinEncode (e : Inibin.EncodeError)
  | chunk (e : Bytecode.DecodeError)
  | compile (e : Bytecode.CompileError)
deriving DecidableEq, Repr

def Error.message : Error → String
  | unknownKind path => "Unrecognised file type: " ++ path
  | vocabulary path cause => "Cannot read vocabulary " ++ path ++ ": " ++ cause.message
  | dictionary path cause => "cannot read dictionary " ++ path ++ ": " ++ cause.message
  | access cause => "IO error: " ++ cause.message
  | inibinDecode e => e.message
  | inibinEncode e => e.message
  | chunk e => e.message
  | compile e => e.message

/-- The text of a file of names. A missing file is an empty one. -/
def namesText (s : Storage) (path : String) : Except Cause String :=
  match s.readText path with
  | .error .notFound => .ok ""
  | r => r

def loadDictionary (s : Storage) (o : Options) (kind : Kind) : Except Error Dictionary :=
  match o.dictionaryFor kind with
  | none => .ok .empty
  | some path =>
    match namesText s path with
    | .ok text => .ok (.ofRules text)
    | .error cause => .error (.dictionary path cause)

def resolveGroups (s : Storage) (o : Options) (t : Tree) :
    Except Error (Tree × Option Resolution) :=
  match o.vocabulary, o.resolve with
  | some path, true =>
    match namesText s path with
    | .ok text =>
      let (t, r) := (Vocabulary.ofWords (wordsOfText text)).resolve t
      .ok (t, some r)
    | .error cause => .error (.vocabulary path cause)
  | _, _ => .ok (t, none)

def decodeInibin (bytes : List UInt8) : Except Error Tree :=
  (Inibin.decode bytes).mapError .inibinDecode

def decodeChunk (bytes : List UInt8) : Except Error Tree :=
  match Bytecode.decode bytes with
  | .ok c => .ok (Machine.fresh.run c).tree
  | .error e => .error (.chunk e)

/-- Decodes a file of a kind. The names are loaded before the bytes are looked at. -/
def ofBytes (s : Storage) (o : Options) (kind : Kind) (bytes : List UInt8) :
    Except Error Document := do
  let d ← loadDictionary s o kind
  match kind with
  | .inibin => return ⟨kind, (← decodeInibin bytes).organize d, d, none⟩
  | .troybin =>
    let (t, r) ← resolveGroups s o ((← decodeInibin bytes).organize d)
    return ⟨kind, t, d, r⟩
  | .luaobj => return ⟨kind, ← decodeChunk bytes, d, none⟩

def load (s : Storage) (o : Options) (path : String) : Except Error Document :=
  match Kind.ofPath? path with
  | none => .error (.unknownKind path)
  | some kind =>
    match s.read path with
    | .ok bytes => ofBytes s o kind bytes
    | .error cause => .error (.access cause)

def ofTree (kind : Kind) (t : Tree) : Document := ⟨kind, t, .empty, none⟩

def addRaw (d : Document) (hash : UInt32) (value : Value) (tag : Tag) : Document :=
  { d with tree := d.tree.addRaw d.dictionary hash value tag }

/-- The bytes written for the document, and what stopped the writing. -/
def written (d : Document) : List UInt8 × Option Error :=
  match d.kind with
  | .inibin | .troybin =>
    let w := Inibin.write d.tree
    (w.bytes, w.failure.map .inibinEncode)
  | .luaobj =>
    match Bytecode.compile d.tree with
    | .ok c => (Bytecode.encode c, none)
    | .error e => ([], some (.compile e))

def toBytes (d : Document) : Except Error (List UInt8) :=
  match d.written with
  | (bytes, none) => .ok bytes
  | (_, some e) => .error e

/-- Writes the document to a file. If it cannot be encoded, the file holds what was written before
that showed. -/
def save (d : Document) (s : Storage) (path : String) : Storage × Except Error Unit :=
  match s.writable path with
  | .error cause => (s, .error (.access cause))
  | .ok place =>
    let (bytes, failure) := d.written
    (s.put place (.file bytes), match failure with
      | none => .ok ()
      | some e => .error e)

end Document

end PropertyFile
