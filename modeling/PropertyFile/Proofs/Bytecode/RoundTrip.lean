import PropertyFile.Bytecode.Decode
import PropertyFile.Bytecode.Encode
import PropertyFile.Proofs.Bytes.Reading
import PropertyFile.Proofs.Text.Utf8

namespace PropertyFile.Bytecode

open Reader

def LengthFits (n : Nat) : Prop := n < 4294967296

def TextFits (s : String) : Prop := LengthFits ((Text.utf8 s).length + 1)

def NameFits (name : Option String) : Prop := ∀ s, name = some s → TextFits s

def Constant.Fits : Constant → Prop
  | string s => TextFits s
  | _ => True

/-- A chunk whose lists and texts, and those of its prototypes, have lengths that fit. -/
inductive Chunk.Sized : Chunk → Prop
  | mk {c : Chunk} (source : NameFits c.source) (code : LengthFits c.code.length)
    (constants : LengthFits c.constants.size) (eachConstant : ∀ k ∈ c.constants.toList, k.Fits)
    (prototypes : LengthFits c.prototypes.length) (eachPrototype : ∀ p ∈ c.prototypes, Sized p)
    (lines : LengthFits c.lines.length)
    (locals : LengthFits c.locals.length) (eachLocal : ∀ l ∈ c.locals, NameFits l.name)
    (upvalues : LengthFits c.upvalues.length) (eachUpvalue : ∀ u ∈ c.upvalues, NameFits u) :
    Sized c

mutual

def Chunk.nesting : Chunk → Nat
  | ⟨_, _, _, _, _, _, _, _, _, prototypes, _, _, _⟩ => deepest prototypes

def deepest : List Chunk → Nat
  | [] => 0
  | p :: rest => max (p.nesting + 1) (deepest rest)

end

theorem deepest_le_iff {ps : List Chunk} {n : Nat} :
    deepest ps ≤ n ↔ ∀ p ∈ ps, p.nesting < n := by
  induction ps with
  | nil => simp only [deepest, Nat.zero_le, List.not_mem_nil, false_implies, implies_true]
  | cons p ps ih => simp only [deepest, Nat.max_le, ih, List.forall_mem_cons, Nat.lt_iff_add_one_le]

theorem nesting_le_iff {c : Chunk} {n : Nat} :
    c.nesting ≤ n ↔ ∀ p ∈ c.prototypes, p.nesting < n := by
  cases c
  rw [Chunk.nesting]
  exact deepest_le_iff

def countedBytes {α : Type} (spell : α → List UInt8) (l : List α) : List UInt8 :=
  countBytes l.length ++ l.flatMap spell

theorem bodies_eq_flatMap (ps : List Chunk) : bodies ps = ps.flatMap Chunk.body := by
  induction ps with
  | nil => rfl
  | cons p ps ih => rw [bodies, List.flatMap_cons, ih]

def headBytes (c : Chunk) : List UInt8 :=
  intBytes c.firstLine ++ (intBytes c.lastLine ++ ([c.upvalueCount] ++ ([c.parameterCount] ++
    ([c.varargFlags] ++ [c.stackSize]))))

theorem body_eq (c : Chunk) : c.body = stringBytes c.source ++ (headBytes c ++
    (countedBytes (fun w ↦ leBytes 4 w.toNat) c.code ++
      (countedBytes Constant.bytes c.constants.toList ++
        (countedBytes Chunk.body c.prototypes ++ (countedBytes intBytes c.lines ++
          (countedBytes Local.bytes c.locals ++ countedBytes stringBytes c.upvalues)))))) := by
  cases c
  simp only [Chunk.body, headBytes, countedBytes, bodies_eq_flatMap, Array.length_toList,
    List.append_assoc, List.cons_append, List.nil_append]

namespace Decoder

theorem reads_byte (b : UInt8) : Reads byte [b] b := Scan.reads_orFail (Scan.reads_byte b) _

theorem reads_nat {width n : Nat} (h : n < Nat.pow 256 width) :
    Reads (nat width) (leBytes width n) n :=
  Scan.reads_orFail (Scan.reads_nat h) _

theorem reads_length {n : Nat} (h : LengthFits n) : Reads (nat 4) (leBytes 4 n) n :=
  reads_nat (show n < Nat.pow 256 4 from h)

theorem reads_word (w : Word) : Reads (UInt32.ofNat <$> nat 4) (leBytes 4 w.toNat) w := by
  have h := (reads_length w.toNat_lt).map UInt32.ofNat
  rwa [UInt32.ofNat_toNat] at h

theorem reads_int (n : Int32) : Reads int (intBytes n) n :=
  (reads_word n.toUInt32).map UInt32.toInt32

theorem reads_counted {α : Type} {p : Decoder α} {spell : α → List UInt8} {l : List α}
    (hl : LengthFits l.length) (h : ∀ a ∈ l, Reads p (spell a) a) :
    Reads (counted p) (countedBytes spell l) l := by
  have ht := reads_times h
  rw [List.map_id'] at ht
  exact (reads_length hl).bind ht

theorem reads_string {name : Option String} (h : NameFits name) :
    Reads string (stringBytes name) name := by
  cases name with
  | none => exact (reads_length (show 0 < 4294967296 by decide)).bind (Reads.pure none)
  | some s =>
    have htake := Scan.reads_orFail (Scan.reads_take (Text.utf8 s ++ [0])) DecodeError.truncated
    have htext := htake.bind_pure fun bytes ↦ some (Text.ofBytes bytes.dropLast)
    rw [List.length_append, List.length_singleton, List.dropLast_concat, Text.ofBytes_utf8] at htext
    rw [stringBytes, List.append_assoc]
    refine (reads_length (h s rfl)).bind ?_
    rwa [if_neg (Nat.succ_ne_zero _)]

theorem reads_constant {k : Constant} (h : k.Fits) : Reads constant k.bytes k := by
  cases k with
  | nil => exact (reads_byte 0).bind (Reads.pure _)
  | bool b => cases b <;> exact (reads_byte 1).bind ((reads_byte _).bind_pure _)
  | number x =>
    have hx := (reads_nat (show x.bits.toNat < Nat.pow 256 8 from x.bits.toNat_lt)).bind_pure
      fun n ↦ Constant.number ⟨UInt64.ofNat n⟩
    rw [UInt64.ofNat_toNat] at hx
    exact (reads_byte 3).bind hx
  | string s =>
    have hs : Reads string (stringBytes (some s)) (some s) :=
      reads_string fun t ht ↦ Option.some.inj ht ▸ h
    exact (reads_byte 4).bind (hs.bind_pure fun t ↦ Constant.string (t.getD ""))

theorem reads_localRecord {l : Local} (h : NameFits l.name) : Reads localRecord l.bytes l := by
  rw [Local.bytes, List.append_assoc]
  exact (reads_string h).bind ((reads_int l.start).bind ((reads_int l.stop).bind_pure _))

theorem reads_chunk {c : Chunk} (h : c.Sized) (levels : Nat) (hn : c.nesting ≤ levels) :
    Reads (chunk (levels + 1)) c.body c := by
  induction h generalizing levels with
  | @mk c source code constants eachConstant prototypes eachPrototype lines locals eachLocal
      upvalues eachUpvalue ih =>
    have hprototype : ∀ p ∈ c.prototypes, Reads (chunk levels) p.body p := by
      intro p hp
      have hlt := nesting_le_iff.mp hn p hp
      obtain ⟨n, rfl⟩ := Nat.exists_eq_succ_of_ne_zero (Nat.ne_zero_of_lt hlt)
      exact ih p hp n (Nat.le_of_lt_succ hlt)
    have hupvalues : Reads (counted string) (countedBytes stringBytes c.upvalues) c.upvalues :=
      reads_counted upvalues fun u hu ↦ reads_string (eachUpvalue u hu)
    have hlast := hupvalues.bind_pure fun us ↦
      { c with constants := c.constants.toList.toArray, upvalues := us }
    rw [Array.toArray_toList] at hlast
    rw [body_eq, headBytes]
    simp only [List.append_assoc]
    refine (reads_string source).bind ((reads_int _).bind ((reads_int _).bind ((reads_byte _).bind
      ((reads_byte _).bind ((reads_byte _).bind ((reads_byte _).bind ?_))))))
    refine (reads_counted code fun w _ ↦ reads_word w).bind ?_
    refine (reads_counted constants fun k hk ↦ reads_constant (eachConstant k hk)).bind ?_
    refine (reads_counted prototypes hprototype).bind ?_
    refine (reads_counted lines fun n _ ↦ reads_int n).bind ?_
    refine (reads_counted locals fun l hl ↦ reads_localRecord (eachLocal l hl)).bind ?_
    rw [Array.toArray_toList]
    cases c
    exact hlast

/-- The reader fails inside the first prototype that lies too deep, wherever that is. -/
theorem fails_chunk {c : Chunk} (h : c.Sized) (levels : Nat) (hn : levels ≤ c.nesting) :
    Fails (chunk levels) c.body (.nesting (maxNesting + 1)) := by
  induction h generalizing levels with
  | @mk c source code constants eachConstant prototypes eachPrototype lines locals eachLocal
      upvalues eachUpvalue ih =>
    cases levels with
    | zero => exact fun rest ↦ rfl
    | succ n =>
      have heither : ∀ p ∈ c.prototypes, Reads (chunk n) p.body p ∨
          Fails (chunk n) p.body (.nesting (maxNesting + 1)) := by
        intro p hp
        by_cases hlt : p.nesting < n
        · obtain ⟨k, rfl⟩ := Nat.exists_eq_succ_of_ne_zero (Nat.ne_zero_of_lt hlt)
          exact .inl (reads_chunk (eachPrototype p hp) k (Nat.le_of_lt_succ hlt))
        · exact .inr (ih p hp n (Nat.not_lt.mp hlt))
      have hdeep : ∃ p ∈ c.prototypes, Fails (chunk n) p.body (.nesting (maxNesting + 1)) := by
        obtain ⟨p, hp, hle⟩ : ∃ p ∈ c.prototypes, n ≤ p.nesting := by
          by_contra hnone
          refine Nat.not_le.mpr hn (nesting_le_iff.mpr fun p hp ↦ ?_)
          exact Nat.not_le.mp fun hle ↦ hnone ⟨p, hp, hle⟩
        exact ⟨p, hp, ih p hp n hle⟩
      have hprototypes : Fails (counted (chunk n)) (countedBytes Chunk.body c.prototypes) _ :=
        (reads_length prototypes).bind_fails (fails_times heither hdeep)
      rw [body_eq, headBytes]
      simp only [List.append_assoc]
      refine (reads_string source).bind_fails ((reads_int _).bind_fails ((reads_int _).bind_fails
        ((reads_byte _).bind_fails ((reads_byte _).bind_fails ((reads_byte _).bind_fails
          ((reads_byte _).bind_fails ?_))))))
      refine (reads_counted code fun w _ ↦ reads_word w).bind_fails ?_
      refine (reads_counted constants fun k hk ↦ reads_constant (eachConstant k hk)).bind_fails ?_
      exact hprototypes.bind _ _

theorem reads_signature : Reads ((Scan.take 4).orFail DecodeError.signature) signature signature :=
  Scan.reads_orFail (Scan.reads_take signature) _

theorem reads_checkLayout (parts : List (String × UInt8)) :
    Reads (checkLayout parts) (parts.map (·.2)) () := by
  induction parts with
  | nil => exact Reads.pure ()
  | cons part parts ih =>
    refine (reads_byte part.2).bind (v := parts.map (·.2)) ?_
    rwa [if_pos rfl]

theorem file_preamble (bytes : List UInt8) :
    file (preamble ++ bytes) = chunk (maxNesting + 1) bytes := by
  rw [file, preamble, List.append_assoc, bind_apply_ok (reads_signature _),
    if_neg (not_not_intro rfl), List.cons_append, ← List.singleton_append]
  dsimp only
  rw [bind_apply_ok (reads_byte languageVersion _), if_neg (not_not_intro rfl)]
  exact bind_apply_ok (reads_checkLayout layout bytes) _

theorem reads_file {bytes : List UInt8} {c : Chunk}
    (h : Reads (chunk (maxNesting + 1)) bytes c) : Reads file (preamble ++ bytes) c := by
  intro rest
  rw [List.append_assoc, file_preamble, h rest]

end Decoder

theorem decode_append {bytes : List UInt8} {c : Chunk} (h : Reads Decoder.file bytes c)
    (x : List UInt8) : decode (bytes ++ x) = .ok c := by
  rw [decode, StateT.run, h x]
  rfl

theorem decode_encode_of_sized {c : Chunk} (h : c.Sized) (hn : c.nesting ≤ maxNesting) :
    decode (encode c) = .ok c := by
  have hdecode := decode_append (Decoder.reads_file (Decoder.reads_chunk h maxNesting hn)) []
  rwa [List.append_nil] at hdecode

/-- The limit is exact: with one level of prototypes more, the reader stops. -/
theorem decode_encode_append (c : Chunk) (h : c.Sized) (x : List UInt8) :
    (c.nesting ≤ maxNesting → decode (encode c ++ x) = .ok c) ∧
      (maxNesting < c.nesting →
        decode (encode c ++ x) = .error (.nesting (maxNesting + 1))) := by
  constructor
  · intro hn
    exact decode_append (Decoder.reads_file (Decoder.reads_chunk h maxNesting hn)) x
  · intro hn
    rw [decode, StateT.run, encode, List.append_assoc, Decoder.file_preamble,
      Decoder.fails_chunk h (maxNesting + 1) hn x]
    rfl

def tower : Nat → Chunk
  | 0 => { constants := #[.nil, .number .zero] }
  | n + 1 => { source := some "", constants := #[.string "a", .bool true],
               prototypes := [tower n], upvalues := [none, some ""] }

theorem nesting_tower (n : Nat) : (tower n).nesting = n := by
  induction n with
  | zero => rfl
  | succ n ih =>
    show max ((tower n).nesting + 1) 0 = n + 1
    rw [ih, Nat.max_zero]

theorem sized_tower (n : Nat) : (tower n).Sized := by
  induction n with
  | zero => constructor <;> simp [tower, LengthFits, NameFits, Constant.Fits]
  | succ n ih =>
    constructor <;> simp [tower, LengthFits, NameFits, TextFits, Constant.Fits, ih] <;> decide

theorem decode_encode_tower :
    decode (encode (tower 200) ++ [7]) = .ok (tower 200) ∧
      decode (encode (tower 201)) = .error (.nesting 201) := by
  constructor
  · exact (decode_encode_append (tower 200) (sized_tower 200) [7]).1 (nesting_tower 200).le
  · have h := (decode_encode_append (tower 201) (sized_tower 201) []).2
      (show 200 < (tower 201).nesting by rw [nesting_tower]; decide)
    rwa [List.append_nil] at h

end PropertyFile.Bytecode
