import PropertyFile.Proofs.Bytecode.RoundTrip
import PropertyFile.Proofs.Bytes.Taking

namespace PropertyFile.Bytecode

open Reader

namespace Decoder

variable {α : Type}

theorem exact_byte : Exact byte .truncated := Scan.exact_orFail Scan.exact_byte _

theorem exact_nat (width : Nat) : Exact (nat width) .truncated :=
  Scan.exact_orFail (Scan.exact_nat width) _

theorem exact_int : Exact int .truncated := (exact_nat 4).map _

theorem exact_counted {p : Decoder α} (hp : Exact p .truncated) : Exact (counted p) .truncated :=
  (exact_nat 4).bind fun n ↦ hp.times n

theorem exact_string : Exact string .truncated := by
  refine (exact_nat 4).bind fun size ↦ ?_
  split
  · exact Exact.pure none
  · exact (Scan.exact_orFail (Scan.exact_take size) _).bind fun bytes ↦ Exact.pure _

theorem exact_constant : Exact constant .truncated := by
  refine exact_byte.bind fun kind ↦ ?_
  split
  · exact Exact.pure _
  · split
    · exact exact_byte.bind fun b ↦ Exact.pure _
    · split
      · exact (exact_nat 8).bind fun bits ↦ Exact.pure _
      · split
        · exact exact_string.bind fun text ↦ Exact.pure _
        · exact Exact.fail _

theorem exact_localRecord : Exact localRecord .truncated :=
  exact_string.bind fun _ ↦ exact_int.bind fun _ ↦ exact_int.bind fun _ ↦ Exact.pure _

/-- Prototypes that lie too deep are not read at all, so they take nothing. -/
theorem exact_chunk (levels : Nat) : Exact (chunk levels) .truncated := by
  induction levels with
  | zero => exact Exact.fail _
  | succ n ih =>
    refine exact_string.bind fun source ↦ exact_int.bind fun firstLine ↦
      exact_int.bind fun lastLine ↦ exact_byte.bind fun upvalueCount ↦
        exact_byte.bind fun parameterCount ↦ exact_byte.bind fun varargFlags ↦
          exact_byte.bind fun stackSize ↦ ?_
    refine (exact_counted ((exact_nat 4).map _)).bind fun code ↦
      (exact_counted exact_constant).bind fun constants ↦
        (exact_counted ih).bind fun prototypes ↦ (exact_counted exact_int).bind fun lines ↦
          (exact_counted exact_localRecord).bind fun locals ↦
            (exact_counted exact_string).bind fun upvalues ↦ ?_
    exact Exact.pure _

theorem exact_checkLayout (parts : List (String × UInt8)) :
    Exact (checkLayout parts) .truncated := by
  induction parts with
  | nil => exact Exact.pure ()
  | cons part parts ih =>
    refine exact_byte.bind fun value ↦ ?_
    split
    · exact ih
    · exact Exact.fail _

def afterSignature : Decoder Chunk := do
  let version ← byte
  if version ≠ languageVersion then throw (.version version)
  checkLayout layout
  chunk (maxNesting + 1)

theorem exact_afterSignature : Exact afterSignature .truncated := by
  have hbody : Exact (do checkLayout layout; chunk (maxNesting + 1)) .truncated :=
    (exact_checkLayout layout).bind fun _ ↦ exact_chunk _
  refine exact_byte.bind fun version ↦ ?_
  split
  · exact (Exact.fail _).bind fun _ ↦ hbody
  · exact hbody

theorem file_signature (s : List UInt8) : file (signature ++ s) = afterSignature s := by
  rw [file, bind_apply_ok (reads_signature s), if_neg (not_not_intro rfl)]
  rfl

theorem file_of_short {s : List UInt8} (h : s.length < 4) : file s = .error .signature := by
  refine bind_apply_error (Scan.orFail_of_error ?_ _) _
  rw [Scan.take_eq, if_neg (Nat.not_le.mpr h)]

theorem file_cut_short {s x y : List UInt8} {c : Chunk} (h : afterSignature s = .ok (c, []))
    (hs : signature ++ s = x ++ y) (hy : y ≠ []) :
    file x = .error (if x.length < 4 then .signature else .truncated) := by
  by_cases hx : x.length < 4
  · rw [if_pos hx, file_of_short hx]
  · have hsignature : signature <+: x := by
      refine List.prefix_of_prefix_length_le ⟨s, hs⟩ (List.prefix_append x y) ?_
      exact Nat.not_lt.mp hx
    obtain ⟨w, rfl⟩ := hsignature
    rw [List.append_assoc] at hs
    rw [if_neg hx, file_signature,
      exact_afterSignature.cut_short h (List.append_cancel_left hs) hy]

end Decoder

theorem preamble_append (bytes : List UInt8) :
    preamble ++ bytes = signature ++ (languageVersion :: layout.map (·.2) ++ bytes) :=
  List.append_assoc _ _ _

/-- A chunk that can be read back cannot be read from a part of its bytes that lacks any at the end.
-/
theorem decode_truncated (c : Chunk) (h : c.Sized) (hn : c.nesting ≤ maxNesting) (x y : List UInt8)
    (hx : encode c = x ++ y) (hy : y ≠ []) :
    decode x = .error (if x.length < 4 then .signature else .truncated) := by
  have hfile := Decoder.reads_file (Decoder.reads_chunk h maxNesting hn) []
  rw [List.append_nil, preamble_append, Decoder.file_signature] at hfile
  rw [encode, preamble_append] at hx
  rw [decode, StateT.run, Decoder.file_cut_short hfile hx hy]
  rfl

theorem tower_truncated : (tower 200).Sized ∧ (tower 200).nesting ≤ maxNesting ∧
    decode (encode (tower 200)).dropLast = .error .truncated ∧
    decode [0x1B, 0x4C, 0x75] = .error .signature := by
  have hn : (tower 200).nesting ≤ maxNesting := (nesting_tower 200).le
  have hlength : 12 ≤ (encode (tower 200)).length := by
    rw [encode, List.length_append, show preamble.length = 12 from rfl]
    exact Nat.le_add_right 12 _
  have hne : encode (tower 200) ≠ [] := List.ne_nil_of_length_pos (by omega)
  have hlast := decode_truncated (tower 200) (sized_tower 200) hn _ _
    (List.dropLast_append_getLast hne).symm (List.cons_ne_nil _ _)
  have hcut : ∀ c : Chunk, encode c = [0x1B, 0x4C, 0x75] ++ (0x61 :: languageVersion ::
      layout.map (·.2) ++ c.body) := fun c ↦ rfl
  have hshort := decode_truncated (tower 200) (sized_tower 200) hn _ _ (hcut _)
    (List.cons_ne_nil _ _)
  rw [if_neg (by rw [List.length_dropLast]; omega)] at hlast
  exact ⟨sized_tower 200, hn, hlast, hshort⟩

end PropertyFile.Bytecode
