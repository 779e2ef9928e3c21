import PropertyFile.Proofs.Bytecode.RoundTrip

namespace PropertyFile.Bytecode

open Reader

/-- A part of a chunk's bytes that has other spellings than the writer's. -/
inductive Field where
  | text (bytes : List UInt8)
  | textConstant (bytes : List UInt8)
  | flag (b : UInt8)
deriving DecidableEq, Repr

def Terminated (bytes : List UInt8) : Prop := ∃ s, bytes = Text.utf8 s ++ [0]

def Field.Canonical : Field → Prop
  | text bytes => bytes = [] ∨ Terminated bytes
  | textConstant bytes => Terminated bytes
  | flag b => b = 0 ∨ b = 1

/-- A reader that lists fields and looks into none of them. -/
abbrev Lister := Decoder (List Field)

namespace Lister

def skip (n : Nat) : Lister := (fun _ ↦ []) <$> (Scan.take n).orFail .truncated

def sized : Decoder (List UInt8) := do (Scan.take (← Decoder.nat 4)).orFail .truncated

def text : Lister := (fun bytes ↦ [.text bytes]) <$> sized

def both (q q' : Lister) : Lister := do
  let fields ← q
  return fields ++ (← q')

def inOrder (qs : List Lister) : Lister := qs.foldr both (pure [])

def each (q : Lister) : Lister := do List.flatten <$> Reader.times (← Decoder.nat 4) q

def constantOf (kind : UInt8) : Lister :=
  if kind = 0 then return []
  else if kind = 1 then (fun b ↦ [.flag b]) <$> Decoder.byte
  else if kind = 3 then skip 8
  else if kind = 4 then (fun bytes ↦ [.textConstant bytes]) <$> sized
  else throw (.constantKind kind)

def constant : Lister := do constantOf (← Decoder.byte)

def chunk : (levels : Nat) → Lister
  | 0 => throw (.nesting (maxNesting + 1))
  | levels + 1 => inOrder
    [text, skip 4, skip 4, skip 1, skip 1, skip 1, skip 1, each (skip 4), each constant,
      each (chunk levels), each (skip 4), each (inOrder [text, skip 4, skip 4]), each text]

def file : Lister := both (skip preamble.length) (chunk (maxNesting + 1))

end Lister

/-- Bytes that hold a chunk and nothing else, with all fields canonical. -/
def Canonical (bytes : List UInt8) : Prop :=
  ∃ fields, Lister.file bytes = .ok (fields, []) ∧ ∀ f ∈ fields, f.Canonical

/-- `p` reads `a` from `used`, and also from `spelt`, which is `used` just when the fields that `q`
lists are canonical. -/
structure Traced {α : Type} (p : Decoder α) (q : Lister) (spelt used : List UInt8) (a : α) :
    Prop where
  reads : Reads p used a
  rereads : Reads p spelt a
  lists : ∃ fields, Reads q used fields ∧ ((∀ f ∈ fields, f.Canonical) ↔ used = spelt)

/-- Whatever `p` reads from a string of fewer bytes than 2 to the 30th is traced by `q`. -/
def Faithful {α : Type} (p : Decoder α) (q : Lister) (spell : α → List UInt8) : Prop :=
  ∀ s a rest, s.length < 1073741824 → p s = .ok (a, rest) →
    ∃ used, s = used ++ rest ∧ Traced p q (spell a) used a

section

variable {α β : Type} {p : Decoder α} {f : α → Decoder β} {q q' : Lister}
  {u u' v v' : List UInt8} {a : α} {b : β}

/-- The first reader tells where the first part ends, in what was read and in what is spelled. -/
theorem Traced.bind (hp : Traced p q u' u a) (hf : Traced (f a) q' v' v b) :
    Traced (p >>= f) (Lister.both q q') (u' ++ v') (u ++ v) b where
  reads := hp.reads.bind hf.reads
  rereads := hp.rereads.bind hf.rereads
  lists := by
    obtain ⟨fields, hq, hu⟩ := hp.lists
    obtain ⟨fields', hq', hv⟩ := hf.lists
    refine ⟨fields ++ fields', hq.bind (hq'.bind_pure _), ?_⟩
    rw [List.forall_mem_append, hu, hv]
    constructor
    · rintro ⟨rfl, rfl⟩
      rfl
    · intro huv
      have h := hp.reads v
      rw [huv, hp.rereads v', Except.ok.injEq, Prod.mk.injEq] at h
      obtain rfl := h.2
      exact ⟨List.append_cancel_right huv, rfl⟩

theorem Traced.after {g : α → Lister} (hp : Reads p u a) (hf : Traced (f a) (g a) v' v b) :
    Traced (p >>= f) (p >>= g) (u ++ v') (u ++ v) b where
  reads := hp.bind hf.reads
  rereads := hp.bind hf.rereads
  lists := by
    obtain ⟨fields, hq, hv⟩ := hf.lists
    exact ⟨fields, hp.bind hq, by rw [hv, List.append_cancel_left_eq]⟩

theorem Traced.pure (a : α) : Traced (Pure.pure a) (Pure.pure []) [] [] a where
  reads := Reads.pure a
  rereads := Reads.pure a
  lists := ⟨[], Reads.pure [], iff_of_true (List.forall_mem_nil _) rfl⟩

theorem Traced.map (h : Traced p q u' u a) (g : α → β) : Traced (g <$> p) q u' u (g a) where
  reads := h.reads.map g
  rereads := h.rereads.map g
  lists := h.lists

end

namespace Decoder

variable {α β : Type} {p : Decoder α} {p' : Decoder β} {q q' : Lister}
  {spell : α → List UInt8} {spell' : β → List UInt8}

def pair (p : Decoder α) (p' : Decoder β) : Decoder (α × β) := do
  let a ← p
  return (a, ← p')

theorem faithful_pure {a : α} (ha : spell a = []) : Faithful (pure a) (pure []) spell := by
  intro s b rest _ h
  obtain ⟨rfl, rfl⟩ := pure_eq_ok.mp h
  refine ⟨[], rfl, ?_⟩
  rw [ha]
  exact Traced.pure b

theorem faithful_map (h : Faithful p q spell) {f : α → β} (hs : ∀ a, spell' (f a) = spell a) :
    Faithful (f <$> p) q spell' := by
  intro s b rest hlen hb
  rw [map_eq_bind, bind_eq_ok] at hb
  obtain ⟨a, mid, ha, hb⟩ := hb
  obtain ⟨rfl, rfl⟩ := pure_eq_ok.mp hb
  obtain ⟨used, rfl, htraced⟩ := h s a rest hlen ha
  refine ⟨used, rfl, ?_⟩
  rw [hs]
  exact htraced.map f

theorem faithful_pair (h : Faithful p q spell) (h' : Faithful p' q' spell') :
    Faithful (pair p p') (Lister.both q q') fun ab ↦ spell ab.1 ++ spell' ab.2 := by
  intro s ab rest hlen hab
  rw [pair, bind_eq_ok] at hab
  obtain ⟨a, mid, ha, hab⟩ := hab
  rw [bind_eq_ok] at hab
  obtain ⟨b, end', hb, hab⟩ := hab
  obtain ⟨rfl, rfl⟩ := pure_eq_ok.mp hab
  obtain ⟨u, rfl, hu⟩ := h s a mid hlen ha
  rw [List.length_append] at hlen
  obtain ⟨v, rfl, hv⟩ := h' mid b rest (by omega) hb
  refine ⟨u ++ v, (List.append_assoc u v rest).symm, hu.bind ?_⟩
  rw [← map_eq_bind]
  exact hv.map _

theorem faithful_times (h : Faithful p q spell) (n : Nat) :
    Faithful (times n p) (List.flatten <$> times n q) (·.flatMap spell) := by
  induction n with
  | zero => exact faithful_pure rfl
  | succ n ih =>
    have hp : times (n + 1) p = (fun ab ↦ ab.1 :: ab.2) <$> pair p (times n p) := by
      simp only [times_succ, pair, map_eq_bind, bind_assoc, pure_bind]
    have hq : List.flatten <$> times (n + 1) q =
        Lister.both q (List.flatten <$> times n q) := by
      simp only [times_succ, Lister.both, map_eq_bind, bind_assoc, pure_bind, List.flatten_cons]
    rw [hp, hq]
    exact faithful_map (faithful_pair h ih) fun ab ↦ List.flatMap_cons

theorem nat_eq_ok {width n : Nat} {s rest : List UInt8} (h : nat width s = .ok (n, rest)) :
    s = leBytes width n ++ rest ∧ n < Nat.pow 256 width :=
  Scan.nat_eq_ok (Scan.orFail_eq_ok.mp h)

theorem byte_eq_ok {b : UInt8} {s rest : List UInt8} (h : byte s = .ok (b, rest)) :
    s = b :: rest := by
  have h := Scan.orFail_eq_ok.mp h
  cases s with
  | nil => cases h
  | cons b' s =>
    injection h with h
    obtain ⟨rfl, rfl⟩ := Prod.mk.inj h
    rfl

theorem faithful_counted (h : Faithful p q spell) :
    Faithful (counted p) (Lister.each q) (countedBytes spell) := by
  intro s l rest hlen hl
  rw [counted, bind_eq_ok] at hl
  obtain ⟨n, mid, hn, hl⟩ := hl
  obtain ⟨rfl, hlt⟩ := nat_eq_ok hn
  rw [List.length_append] at hlen
  obtain ⟨used, rfl, htraced⟩ := faithful_times h n mid l rest (by omega) hl
  obtain ⟨rfl, -⟩ := ((yields_any p).times n) _ l rest hl
  exact ⟨leBytes 4 l.length ++ used, (List.append_assoc _ used rest).symm,
    Traced.after (reads_nat hlt) htraced⟩

theorem reads_skip {bytes : List UInt8} {n : Nat} (h : bytes.length = n) :
    Reads (Lister.skip n) bytes [] := by
  subst h
  exact (Scan.reads_orFail (Scan.reads_take bytes) _).map _

theorem faithful_fixed {n : Nat}
    (h : ∀ s a rest, p s = .ok (a, rest) → s = spell a ++ rest ∧ (spell a).length = n)
    (hr : ∀ a, Reads p (spell a) a) : Faithful p (Lister.skip n) spell := by
  intro s a rest _ hs
  obtain ⟨rfl, rfl⟩ := h s a rest hs
  exact ⟨spell a, rfl, hr a, hr a, [], reads_skip rfl, iff_of_true (List.forall_mem_nil _) rfl⟩

theorem faithful_byte : Faithful byte (Lister.skip 1) fun b ↦ [b] :=
  faithful_fixed (fun _ _ _ h ↦ ⟨byte_eq_ok h, rfl⟩) reads_byte

theorem faithful_word : Faithful (UInt32.ofNat <$> nat 4) (Lister.skip 4)
    fun w ↦ leBytes 4 w.toNat := by
  refine faithful_fixed (fun s w rest h ↦ ⟨?_, length_leBytes 4 _⟩) reads_word
  rw [map_eq_bind, bind_eq_ok] at h
  obtain ⟨n, mid, hn, h⟩ := h
  obtain ⟨rfl, rfl⟩ := pure_eq_ok.mp h
  obtain ⟨rfl, hlt⟩ := nat_eq_ok hn
  rw [UInt32.toNat_ofNat_of_lt' hlt]

theorem faithful_int : Faithful int (Lister.skip 4) intBytes := by
  have hint : int = UInt32.toInt32 <$> (UInt32.ofNat <$> nat 4) := by
    rw [int, Functor.map_map]
  rw [hint]
  exact faithful_map faithful_word fun _ ↦ rfl

def textOf (bytes : List UInt8) : Option String :=
  if bytes = [] then none else some (Text.ofBytes bytes.dropLast)

theorem reads_textOf {bytes : List UInt8} (h : LengthFits bytes.length) :
    Reads string (leBytes 4 bytes.length ++ bytes) (textOf bytes) := by
  refine (reads_length h).bind ?_
  by_cases hb : bytes = []
  · subst hb
    exact Reads.pure none
  · rw [if_neg (fun h ↦ hb (List.eq_nil_of_length_eq_zero h)), textOf, if_neg hb]
    exact (Scan.reads_orFail (Scan.reads_take bytes) _).bind_pure _

theorem reads_sized {bytes : List UInt8} (h : LengthFits bytes.length) :
    Reads Lister.sized (leBytes 4 bytes.length ++ bytes) bytes :=
  (reads_length h).bind (Scan.reads_orFail (Scan.reads_take bytes) _)

theorem string_eq_ok {name : Option String} {s rest : List UInt8}
    (h : string s = .ok (name, rest)) : ∃ bytes, s = leBytes 4 bytes.length ++ bytes ++ rest ∧
      LengthFits bytes.length ∧ name = textOf bytes := by
  rw [string, bind_eq_ok] at h
  obtain ⟨size, mid, hsize, h⟩ := h
  obtain ⟨rfl, hlt⟩ := nat_eq_ok hsize
  split at h
  · next hzero =>
    obtain ⟨rfl, rfl⟩ := pure_eq_ok.mp h
    subst hzero
    exact ⟨[], rfl, hlt, rfl⟩
  · next hpos =>
    rw [bind_eq_ok] at h
    obtain ⟨bytes, mid', htake, h⟩ := h
    obtain ⟨rfl, rfl⟩ := pure_eq_ok.mp h
    obtain ⟨rfl, rfl⟩ := Scan.take_eq_ok (Scan.orFail_eq_ok.mp htake)
    refine ⟨bytes, (List.append_assoc _ bytes rest).symm, hlt, ?_⟩
    rw [textOf, if_neg (fun hb ↦ hpos (List.length_eq_zero_iff.mpr hb))]

theorem stringBytes_some (s : String) :
    stringBytes (some s) = leBytes 4 ((Text.utf8 s).length + 1) ++ (Text.utf8 s ++ [0]) :=
  List.append_assoc _ _ _

/-- The only loss is in a text that is broken or badly ended. -/
theorem terminated_iff (bytes : List UInt8) : Terminated bytes ↔
    leBytes 4 bytes.length ++ bytes = stringBytes (some (Text.ofBytes bytes.dropLast)) := by
  rw [stringBytes_some]
  constructor
  · rintro ⟨s, rfl⟩
    rw [List.dropLast_concat, Text.ofBytes_utf8, List.length_append, List.length_singleton]
  · intro h
    have hlen (n : Nat) : (leBytes 4 bytes.length).length = (leBytes 4 n).length := by
      rw [length_leBytes, length_leBytes]
    exact ⟨_, (List.append_inj h (hlen _)).2⟩

theorem textFits_ofBytes {bytes : List UInt8} (h : bytes.length < 1073741824) :
    TextFits (Text.ofBytes bytes.dropLast) := by
  have hlen := Text.length_utf8_ofBytes bytes.dropLast
  rw [List.length_dropLast] at hlen
  show _ < 4294967296
  omega

theorem faithful_string : Faithful string Lister.text stringBytes := by
  intro s name rest hlen h
  obtain ⟨bytes, rfl, hfits, rfl⟩ := string_eq_ok h
  simp only [List.length_append] at hlen
  refine ⟨leBytes 4 bytes.length ++ bytes, rfl, reads_textOf hfits, ?_, [.text bytes],
    (reads_sized hfits).map _, ?_⟩
  · refine reads_string fun t ht ↦ ?_
    rw [textOf] at ht
    split at ht
    · cases ht
    · obtain rfl := Option.some.inj ht
      exact textFits_ofBytes (by omega)
  · rw [List.forall_mem_singleton, Field.Canonical, terminated_iff, textOf]
    split
    · next hb =>
      subst hb
      exact iff_of_true (.inl rfl) rfl
    · next hb => rw [or_iff_right hb]

theorem traced_flag (b : UInt8) :
    Traced (do return Constant.bool ((← byte) ≠ 0)) ((fun b ↦ [.flag b]) <$> byte)
      [if decide (b ≠ 0) then 1 else 0] [b] (.bool (b ≠ 0)) where
  reads := (reads_byte b).bind_pure _
  rereads := by
    have h := (reads_byte (if decide (b ≠ 0) then 1 else 0)).bind_pure
      fun b ↦ Constant.bool (b ≠ 0)
    by_cases hb : b = 0 <;> simpa [hb] using h
  lists := by
    refine ⟨[.flag b], (reads_byte b).map _, ?_⟩
    rw [List.forall_mem_singleton, Field.Canonical]
    by_cases hb : b = 0 <;> simp [hb]

theorem traced_textConstant {bytes : List UInt8} (hfits : LengthFits bytes.length)
    (hlen : bytes.length < 1073741824) :
    Traced (do return Constant.string ((← string).getD ""))
      ((fun bytes ↦ [.textConstant bytes]) <$> Lister.sized)
      (stringBytes (some ((textOf bytes).getD ""))) (leBytes 4 bytes.length ++ bytes)
      (.string ((textOf bytes).getD "")) := by
  have htext : (textOf bytes).getD "" = Text.ofBytes bytes.dropLast := by
    by_cases hb : bytes = []
    · subst hb
      exact (Text.ofBytes_utf8 "").symm
    · rw [textOf, if_neg hb, Option.getD_some]
  have hs : Reads string _ (some (Text.ofBytes bytes.dropLast)) :=
    reads_string fun t ht ↦ Option.some.inj ht ▸ textFits_ofBytes hlen
  refine ⟨(reads_textOf hfits).bind_pure fun t ↦ Constant.string (t.getD ""), ?_,
    [.textConstant bytes], (reads_sized hfits).map _, ?_⟩
  · rw [htext]
    exact hs.bind_pure fun t ↦ Constant.string (t.getD "")
  · rw [List.forall_mem_singleton, Field.Canonical, terminated_iff, htext]

theorem faithful_constant : Faithful constant Lister.constant Constant.bytes := by
  intro s k rest hlen h
  rw [constant, bind_eq_ok] at h
  obtain ⟨kind, mid, hkind, h⟩ := h
  obtain rfl := byte_eq_ok hkind
  rw [List.length_cons] at hlen
  split at h
  · next hzero =>
    obtain ⟨rfl, rfl⟩ := pure_eq_ok.mp h
    subst hzero
    exact ⟨[0], rfl, Traced.after (reads_byte 0) (Traced.pure _)⟩
  split at h
  · next hone =>
    rw [bind_eq_ok] at h
    obtain ⟨b, mid, hb, h⟩ := h
    obtain rfl := byte_eq_ok hb
    obtain ⟨rfl, rfl⟩ := pure_eq_ok.mp h
    subst hone
    exact ⟨[1, b], rfl, Traced.after (reads_byte 1) (traced_flag b)⟩
  split at h
  · next hthree =>
    rw [bind_eq_ok] at h
    obtain ⟨n, mid, hn, h⟩ := h
    obtain ⟨rfl, hlt⟩ := nat_eq_ok hn
    obtain ⟨rfl, rfl⟩ := pure_eq_ok.mp h
    subst hthree
    have hbits : (UInt64.ofNat n).toNat = n := UInt64.toNat_ofNat_of_lt' hlt
    have hnumber := (reads_nat hlt).bind_pure fun n ↦ Constant.number ⟨UInt64.ofNat n⟩
    refine ⟨3 :: leBytes 8 n, rfl, ?_⟩
    rw [Constant.bytes, hbits]
    exact Traced.after (reads_byte 3)
      ⟨hnumber, hnumber, [], reads_skip (length_leBytes 8 n),
        iff_of_true (List.forall_mem_nil _) rfl⟩
  split at h
  · next hfour =>
    rw [bind_eq_ok] at h
    obtain ⟨name, mid, hname, h⟩ := h
    obtain ⟨bytes, rfl, hfits, rfl⟩ := string_eq_ok hname
    obtain ⟨rfl, rfl⟩ := pure_eq_ok.mp h
    subst hfour
    simp only [List.length_append] at hlen
    exact ⟨4 :: (leBytes 4 bytes.length ++ bytes), rfl,
      Traced.after (reads_byte 4) (traced_textConstant hfits (by omega))⟩
  · cases h

theorem faithful_unit : Faithful (pure ()) (pure []) fun _ ↦ [] := faithful_pure rfl

theorem faithful_localRecord :
    Faithful localRecord (Lister.inOrder [.text, .skip 4, .skip 4]) Local.bytes := by
  have hp : localRecord = (fun (name, start, stop, _) ↦ ⟨name, start, stop⟩) <$>
      pair string (pair int (pair int (pure ()))) := by
    simp only [localRecord, pair, map_eq_bind, bind_assoc, pure_bind]
  rw [hp]
  refine faithful_map (faithful_pair faithful_string (faithful_pair faithful_int
    (faithful_pair faithful_int faithful_unit))) fun (name, start, stop, _) ↦ ?_
  simp only [Local.bytes, List.append_assoc, List.append_nil]

theorem chunk_succ (levels : Nat) : chunk (levels + 1) =
    (fun (source, firstLine, lastLine, upvalueCount, parameterCount, varargFlags, stackSize, code,
        constants, prototypes, lines, locals, upvalues, _) ↦
      { source, firstLine, lastLine, upvalueCount, parameterCount, varargFlags, stackSize, code,
        constants := constants.toArray, prototypes, lines, locals, upvalues }) <$>
      pair string (pair int (pair int (pair byte (pair byte (pair byte (pair byte
        (pair (counted (UInt32.ofNat <$> nat 4)) (pair (counted constant)
          (pair (counted (chunk levels)) (pair (counted int) (pair (counted localRecord)
            (pair (counted string) (pure ()))))))))))))) := by
  simp only [chunk, pair, map_eq_bind, bind_assoc, pure_bind]

theorem faithful_chunk (levels : Nat) :
    Faithful (chunk levels) (Lister.chunk levels) Chunk.body := by
  induction levels with
  | zero => intro s c rest _ h; cases h
  | succ levels ih =>
    rw [chunk_succ]
    refine faithful_map (faithful_pair faithful_string (faithful_pair faithful_int (faithful_pair
      faithful_int (faithful_pair faithful_byte (faithful_pair faithful_byte (faithful_pair
      faithful_byte (faithful_pair faithful_byte (faithful_pair (faithful_counted faithful_word)
      (faithful_pair (faithful_counted faithful_constant) (faithful_pair (faithful_counted ih)
      (faithful_pair (faithful_counted faithful_int) (faithful_pair (faithful_counted
      faithful_localRecord) (faithful_pair (faithful_counted faithful_string)
      faithful_unit))))))))))))) fun _ ↦ ?_
    simp only [body_eq, headBytes, List.append_assoc, List.append_nil]

theorem checkLayout_eq_ok {parts : List (String × UInt8)} {s rest : List UInt8}
    (h : checkLayout parts s = .ok ((), rest)) : s = parts.map (·.2) ++ rest := by
  induction parts generalizing s with
  | nil => exact (pure_eq_ok.mp h).2.symm
  | cons part parts ih =>
    rw [checkLayout, bind_eq_ok] at h
    obtain ⟨value, mid, hvalue, h⟩ := h
    obtain rfl := byte_eq_ok hvalue
    split at h
    · next heq =>
      rw [ih h, heq]
      rfl
    · cases h

theorem file_eq_ok {c : Chunk} {s rest : List UInt8} (h : file s = .ok (c, rest)) :
    ∃ mid, s = preamble ++ mid ∧ chunk (maxNesting + 1) mid = .ok (c, rest) := by
  rw [file, bind_eq_ok] at h
  obtain ⟨start, mid, hstart, h⟩ := h
  obtain ⟨rfl, -⟩ := Scan.take_eq_ok (Scan.orFail_eq_ok.mp hstart)
  split at h
  · cases h
  next hsignature =>
  obtain rfl := not_not.mp hsignature
  dsimp only at h
  rw [bind_eq_ok] at h
  obtain ⟨version, mid, hversion, h⟩ := h
  obtain rfl := byte_eq_ok hversion
  split at h
  · cases h
  next hlanguage =>
  obtain rfl := not_not.mp hlanguage
  rw [bind_eq_ok] at h
  obtain ⟨_, mid, hlayout, h⟩ := h
  obtain rfl := checkLayout_eq_ok hlayout
  exact ⟨mid, rfl, h⟩

theorem faithful_file : Faithful file Lister.file encode := by
  intro s c rest hlen h
  obtain ⟨mid, rfl, hchunk⟩ := file_eq_ok h
  rw [List.length_append] at hlen
  obtain ⟨used, rfl, htraced⟩ := faithful_chunk _ mid c rest (by omega) hchunk
  refine ⟨preamble ++ used, (List.append_assoc _ used rest).symm, reads_file htraced.reads,
    reads_file htraced.rereads, ?_⟩
  obtain ⟨fields, hfields, hcanonical⟩ := htraced.lists
  refine ⟨fields, (reads_skip rfl).bind (hfields.bind_pure _), ?_⟩
  rw [hcanonical, encode, List.append_cancel_left_eq]

end Decoder

theorem decode_eq_ok {bytes : List UInt8} {c : Chunk} :
    decode bytes = .ok c ↔ ∃ rest, Decoder.file bytes = .ok (c, rest) := by
  have hmap : decode bytes = (·.1) <$> Decoder.file bytes := rfl
  rw [hmap]
  constructor
  · intro h
    cases hfile : Decoder.file bytes with
    | error e =>
      rw [hfile] at h
      cases h
    | ok r =>
      rw [hfile] at h
      obtain rfl := Except.ok.inj h
      exact ⟨r.2, rfl⟩
  · rintro ⟨rest, hfile⟩
    rw [hfile]
    rfl

theorem canonical_iff {bytes : List UInt8} {fields : List Field}
    (h : Reads Lister.file bytes fields) : Canonical bytes ↔ ∀ f ∈ fields, f.Canonical := by
  have hfile := h []
  rw [List.append_nil] at hfile
  constructor
  · rintro ⟨fields', hfields, hcanonical⟩
    rw [hfile] at hfields
    injection hfields with hfields
    rwa [(Prod.mk.inj hfields).1]
  · exact fun hcanonical ↦ ⟨fields, hfile, hcanonical⟩

/-- A chunk is spelled as it was read just when that was canonical, and it is read again from its
spelling even if it was not. -/
theorem encode_decode (bytes : List UInt8) (hlen : bytes.length < 1073741824) (c : Chunk)
    (h : decode bytes = .ok c) :
    ∃ used rest, bytes = used ++ rest ∧ Decoder.file bytes = .ok (c, rest) ∧
      decode (encode c) = .ok c ∧ (encode c = used ↔ Canonical used) := by
  obtain ⟨rest, hfile⟩ := decode_eq_ok.mp h
  obtain ⟨used, rfl, htraced⟩ := Decoder.faithful_file bytes c rest hlen hfile
  obtain ⟨fields, hfields, hcanonical⟩ := htraced.lists
  refine ⟨used, rest, rfl, hfile, ?_, ?_⟩
  · have hagain := htraced.rereads []
    rw [List.append_nil] at hagain
    exact decode_eq_ok.mpr ⟨[], hagain⟩
  · rw [canonical_iff hfields, hcanonical, eq_comm]

def flagBytes (b : UInt8) : List UInt8 :=
  preamble ++ List.replicate 20 0 ++ [1, 0, 0, 0, 1, b] ++ List.replicate 16 0

def flagChunk : Chunk := { constants := #[.bool true] }

theorem encode_decode_flag : decode (flagBytes 7 ++ [9]) = .ok flagChunk ∧
    decode (encode flagChunk) = .ok flagChunk ∧ ¬ Canonical (flagBytes 7) := by
  have hdecode : decode (flagBytes 7 ++ [9]) = .ok flagChunk := rfl
  have hrest : Decoder.file (flagBytes 7 ++ [9]) = .ok (flagChunk, [9]) := rfl
  obtain ⟨used, rest, hsplit, hfile, hagain, hcanonical⟩ :=
    encode_decode (flagBytes 7 ++ [9]) (by decide) flagChunk hdecode
  rw [hrest] at hfile
  injection hfile with hfile
  obtain rfl := (Prod.mk.inj hfile).2
  obtain rfl := List.append_cancel_right hsplit
  refine ⟨hdecode, hagain, fun h ↦ ?_⟩
  exact absurd (hcanonical.mpr h) (by decide)

end PropertyFile.Bytecode
