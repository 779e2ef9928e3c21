import PropertyFile.Proofs.Bytes.Reading
import PropertyFile.Proofs.StableSort
import PropertyFile.Proofs.Text.Utf8
import PropertyFile.Inibin.Decode
import PropertyFile.Inibin.Encode

namespace PropertyFile.Inibin

open Number Reader

def storedComponent : Tag → Single → Single
  | .vec2Scaled, x | .vec3Scaled, x | .vec4Scaled, x => ofByte (toByte x)
  | _, x => x

def storedValue (tag : Tag) : Value → Value
  | .scaled x => .scaled (ofByte (toByte x))
  | .vec2 x y => .vec2 (storedComponent tag x) (storedComponent tag y)
  | .vec3 x y z => .vec3 (storedComponent tag x) (storedComponent tag y) (storedComponent tag z)
  | .vec4 x y z w =>
    .vec4 (storedComponent tag x) (storedComponent tag y) (storedComponent tag z)
      (storedComponent tag w)
  | .string s => .string (Text.beforeZero s)
  | v => v

/-- A property as it is read back, without its name. -/
def stored (p : Property) : Property := ⟨p.hash, none, storedValue p.tag p.value, p.tag⟩

def byHash (a b : Property) : Bool := decide (a.hash ≤ b.hash)

/-- The properties block by block; in a block those with one hash keep their order. -/
def inBlocks (ps : List Property) : List Property :=
  Tag.blocks.flatMap fun t ↦ (ps.filter (·.tag = t)).mergeSort byHash

theorem byHash_preorder : StableSort.TotalPreorder byHash where
  trans a b c hab hbc := by
    simp only [byHash, decide_eq_true_eq] at hab hbc ⊢
    exact UInt32.le_trans hab hbc
  total a b := by
    simp only [byHash, Bool.or_eq_true, decide_eq_true_eq]
    exact UInt32.le_total a.hash b.hash

theorem tied_byHash (a b : Property) :
    StableSort.tied byHash a b = decide (b.hash = a.hash) := by
  simp only [StableSort.tied, byHash, ← Bool.decide_and, decide_eq_decide]
  exact ⟨fun h ↦ UInt32.le_antisymm h.2 h.1, fun h ↦ by
    rw [h]
    exact ⟨UInt32.le_refl _, UInt32.le_refl _⟩⟩

/-- The order in blocks depends on nothing but the runs of one tag and hash. -/
theorem inBlocks_congr {ps qs : List Property}
    (h : ∀ t h, ps.filter (fun p ↦ p.tag = t ∧ p.hash = h) =
      qs.filter fun p ↦ p.tag = t ∧ p.hash = h) : inBlocks ps = inBlocks qs := by
  refine List.flatMap_congr fun t _ ↦ StableSort.mergeSort_congr byHash_preorder fun a ↦ ?_
  have hrun := h t a.hash
  simp only [List.filter_filter, tied_byHash]
  simpa only [Bool.decide_and, Bool.and_comm] using hrun

theorem inBlocks_map (f : Property → Property) (hh : ∀ p, (f p).hash = p.hash)
    (ht : ∀ p, (f p).tag = p.tag) (ps : List Property) :
    inBlocks (ps.map f) = (inBlocks ps).map f := by
  rw [inBlocks, inBlocks, List.map_flatMap]
  refine List.flatMap_congr fun t _ ↦ ?_
  have hfilter : (ps.map f).filter (fun p ↦ decide (p.tag = t)) =
      (ps.filter fun p ↦ decide (p.tag = t)).map f := by
    rw [List.filter_map]
    simp only [Function.comp_def, ht]
  rw [hfilter]
  exact (List.map_mergeSort fun a _ b _ ↦ by simp only [byHash, hh]).symm

theorem reads_single (x : Single) : Reads single (singleBytes x) x :=
  (Scan.reads_word32 x.bits).map Single.mk

theorem reads_scaledByte (x : Single) : Reads scaledByte [toByte x] (ofByte (toByte x)) :=
  (Scan.reads_byte (toByte x)).map ofByte

theorem reads_fixedValue {tag : Tag} {v : Value} {value : Scan Value} (ha : tag.accepts v = true)
    (hv : fixedValue? tag = some value) :
    Reads value (fixedBytes tag v) (storedValue tag v) := by
  cases tag <;> simp only [fixedValue?, Option.some.injEq, reduceCtorEq] at hv <;> subst hv <;>
    cases v <;> simp only [Tag.accepts, Bool.false_eq_true] at ha
  case int32.int32 n => exact (Scan.reads_word32 n.toUInt32).map (Value.int32 ·.toInt32)
  case float.float x => exact (reads_single x).map Value.float
  case scaled.scaled x => exact (reads_scaledByte x).map Value.scaled
  case int16.int16 n => exact (Scan.reads_word16 n.toUInt16).map (Value.int16 ·.toInt16)
  case byte.byte n => exact (Scan.reads_byte n).map Value.byte
  case vec3Scaled.vec3 x y z =>
    exact (((reads_scaledByte x).map Value.vec3).seq (reads_scaledByte y)).seq (reads_scaledByte z)
  case vec3.vec3 x y z =>
    have h := (((reads_single x).map Value.vec3).seq (reads_single y)).seq (reads_single z)
    simpa only [fixedBytes, storedValue, storedComponent, components, List.flatMap_cons,
      List.flatMap_nil, List.append_nil, List.append_assoc] using h
  case vec2Scaled.vec2 x y =>
    exact ((reads_scaledByte x).map Value.vec2).seq (reads_scaledByte y)
  case vec2.vec2 x y =>
    have h := ((reads_single x).map Value.vec2).seq (reads_single y)
    simpa only [fixedBytes, storedValue, storedComponent, components, List.flatMap_cons,
      List.flatMap_nil, List.append_nil] using h
  case vec4Scaled.vec4 x y z w =>
    exact ((((reads_scaledByte x).map Value.vec4).seq (reads_scaledByte y)).seq
      (reads_scaledByte z)).seq (reads_scaledByte w)
  case vec4.vec4 x y z w =>
    have h := ((((reads_single x).map Value.vec4).seq (reads_single y)).seq (reads_single z)).seq
      (reads_single w)
    simpa only [fixedBytes, storedValue, storedComponent, components, List.flatMap_cons,
      List.flatMap_nil, List.append_nil, List.append_assoc] using h

end PropertyFile.Inibin
