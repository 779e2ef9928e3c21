import PropertyFile.Proofs.Inibin.BlockOrder
import PropertyFile.Proofs.Inibin.Decoded

namespace PropertyFile.Inibin

open Number Reader

def text? (p : Property) : Option (UInt32 × String) :=
  match p.value with
  | .string s => some (p.hash, s)
  | _ => none

/-- The texts in the order of the properties, each with the hash of its property. -/
def texts (ps : List Property) : List (UInt32 × String) := ps.filterMap text?

def textBytes (ts : List (UInt32 × String)) : List UInt8 := ts.flatMap fun t ↦ Text.utf8 t.2 ++ [0]

/-- Where each text starts, by the hash of its property, if the first of them starts at `size`. -/
def places (size : Nat) : List (UInt32 × String) → List (UInt32 × Nat)
  | [] => []
  | t :: ts => (t.1, size) :: places (size + (Text.utf8 t.2 ++ [0]).length) ts

variable {ps qs : List Property}

theorem texts_cons (p : Property) (ps : List Property) :
    texts (p :: ps) = (text? p).toList ++ texts ps := by
  rw [texts, List.filterMap_cons]
  cases text? p <;> rfl

theorem areaPart_eq (p : Property) : areaPart p = textBytes (text? p).toList := by
  rw [areaPart, text?]
  cases p.value <;> simp only [textBytes, Option.toList_some, Option.toList_none,
    List.flatMap_singleton, List.flatMap_nil]

theorem stringArea_eq (ps : List Property) : stringArea ps = textBytes (texts ps) := by
  induction ps with
  | nil => rfl
  | cons p ps ih =>
    rw [stringArea, List.flatMap_cons, texts_cons, textBytes, List.flatMap_append, areaPart_eq]
    exact congrArg _ ih

theorem text?_of_fits {p : Property} (h : Fits p) :
    (p.tag = .string ∧ ∃ s, text? p = some (p.hash, s)) ∨ p.tag ≠ .string ∧ text? p = none := by
  by_cases ht : p.tag = .string
  · obtain ⟨s, hs⟩ := string_of_fits ht h
    exact .inl ⟨ht, s, by rw [text?, hs]⟩
  · refine .inr ⟨ht, ?_⟩
    have ha := h.2
    cases hv : p.value with
    | string s =>
      rw [hv] at ha
      cases htag : p.tag <;> simp only [htag, Tag.accepts, Bool.false_eq_true] at ha
      exact absurd htag ht
    | _ => rw [text?, hv]

theorem places_placed (h : ∀ p ∈ ps, Fits p) (size : Nat) :
    ((placed size ps).filter (·.property.tag = .string)).map (fun e ↦ (e.property.hash, e.offset)) =
      places size (texts ps) := by
  induction ps generalizing size with
  | nil => rfl
  | cons p ps ih =>
    obtain ⟨hp, hps⟩ := List.forall_mem_cons.mp h
    rw [placed, texts_cons, areaPart_eq]
    rcases text?_of_fits hp with ⟨ht, s, hs⟩ | ⟨ht, hs⟩
    · rw [List.filter_cons_of_pos (by simpa using ht), List.map_cons, ih hps, hs]
      simp only [Option.toList_some, textBytes, List.flatMap_singleton, List.singleton_append,
        places]
    · rw [List.filter_cons_of_neg (by simpa using ht), ih hps, hs]
      rfl

theorem textBytes_cons (t : UInt32 × String) (ts : List (UInt32 × String)) :
    textBytes (t :: ts) = (Text.utf8 t.2 ++ [0]) ++ textBytes ts := List.flatMap_cons

theorem mem_places {size : Nat} {ts : List (UInt32 × String)} {x : UInt32 × Nat}
    (h : x ∈ places size ts) : size ≤ x.2 ∧ x.2 < size + (textBytes ts).length := by
  induction ts generalizing size with
  | nil => cases h
  | cons t ts ih =>
    rw [textBytes_cons, List.length_append]
    have hpos : 0 < (Text.utf8 t.2 ++ [0]).length := List.length_pos_of_ne_nil (by simp)
    rcases List.mem_cons.mp h with rfl | h
    · dsimp only
      omega
    · have hx := ih h
      omega

theorem pairwise_places (size : Nat) (ts : List (UInt32 × String)) :
    (places size ts).Pairwise fun x y ↦ x.2 < y.2 := by
  induction ts generalizing size with
  | nil => exact List.Pairwise.nil
  | cons t ts ih =>
    refine List.Pairwise.cons (fun y hy ↦ ?_) (ih _)
    have hle := (mem_places hy).1
    rw [List.length_append, List.length_singleton] at hle
    dsimp only
    omega

/-- The texts are known by where they are and by what they are together. -/
theorem texts_of_places {size size' : Nat} {ts us : List (UInt32 × String)}
    (hplaces : places size ts = places size' us) (hbytes : textBytes ts = textBytes us) :
    ts = us := by
  induction ts generalizing size size' us with
  | nil =>
    cases us with
    | nil => rfl
    | cons u us => cases hplaces
  | cons t ts ih =>
    cases us with
    | nil => cases hplaces
    | cons u us =>
      obtain ⟨hhead, htail⟩ := List.cons.inj hplaces
      obtain ⟨hhash, rfl⟩ := Prod.mk.inj hhead
      rw [textBytes_cons, textBytes_cons] at hbytes
      -- The first text ends where the second one starts, or with the bytes.
      have hlen : (Text.utf8 t.2 ++ [0]).length = (Text.utf8 u.2 ++ [0]).length := by
        cases ts with
        | nil =>
          cases us with
          | nil => simpa only [textBytes, List.flatMap_nil, List.append_nil] using
              congrArg List.length hbytes
          | cons v us => cases htail
        | cons v ts =>
          cases us with
          | nil => cases htail
          | cons w us =>
            have hnext := (Prod.mk.inj (List.cons.inj htail).1).2
            omega
      obtain ⟨htext, hrest⟩ := List.append_inj hbytes hlen
      have hutf8 := congrArg Text.ofBytes (List.append_cancel_right htext)
      rw [Text.ofBytes_utf8, Text.ofBytes_utf8] at hutf8
      rw [ih htail hrest, Prod.ext hhash hutf8]

/-- Properties that come back as the same data. -/
def SameData (ps qs : List Property) : Prop :=
  ∀ tag hash, (ps.filter fun p ↦ p.tag = tag ∧ p.hash = hash).map stored =
    (qs.filter fun p ↦ p.tag = tag ∧ p.hash = hash).map stored

def keptBlock (tag : Tag) (ps : List Property) : List Property :=
  ((ps.filter (·.tag = tag)).mergeSort byHash).map stored

theorem SameData.keptBlock_eq (h : SameData ps qs) (tag : Tag) :
    keptBlock tag ps = keptBlock tag qs := by
  have hsort (l : List Property) : (l.mergeSort byHash).map stored =
      (l.map stored).mergeSort byHash := List.map_mergeSort fun _ _ _ _ ↦ rfl
  rw [keptBlock, keptBlock, hsort, hsort]
  refine StableSort.mergeSort_congr byHash_preorder fun a ↦ ?_
  have hrun (l : List Property) : ((l.filter (·.tag = tag)).map stored).filter
      (StableSort.tied byHash a) = (l.filter fun p ↦ p.tag = tag ∧ p.hash = a.hash).map stored := by
    rw [List.filter_map, List.filter_filter, funext (tied_byHash a)]
    congr 1
    refine List.filter_congr fun p _ ↦ ?_
    rw [Bool.decide_and, Bool.and_comm]
    rfl
  rw [hrun, hrun, h]

theorem components_stored (tag : Tag) (xs : List Single) :
    components tag (xs.map (storedComponent tag)) = components tag xs := by
  cases tag with
  | vec2Scaled | vec3Scaled | vec4Scaled =>
    simp only [components, storedComponent, List.map_map, Function.comp_def, toByte_ofByte]
  | _ => exact congrArg _ (List.map_id' xs)

theorem fixedBytes_stored (tag : Tag) (v : Value) :
    fixedBytes tag (storedValue tag v) = fixedBytes tag v := by
  cases v with
  | scaled x => exact congrArg (fun b ↦ [b]) (toByte_ofByte (toByte x))
  | vec2 x y => exact components_stored tag [x, y]
  | vec3 x y z => exact components_stored tag [x, y, z]
  | vec4 x y z w => exact components_stored tag [x, y, z, w]
  | _ => rfl

def keptPayload (tag : Tag) (kept : List Property) : List UInt8 :=
  match tag with
  | .bool => pack (kept.map fun p ↦ match p.value with
    | .bool b => b
    | _ => false)
  | tag => kept.flatMap fun p ↦ fixedBytes tag p.value

theorem payload_eq {tag : Tag} (ht : tag ≠ .string) {entries : List Entry}
    (he : ∀ e ∈ entries, e.property.tag = tag) :
    payload tag entries = keptPayload tag ((entries.map Entry.property).map stored) := by
  have hfixed : (entries.flatMap fun e ↦ fixedBytes tag e.property.value) =
      ((entries.map Entry.property).map stored).flatMap fun p ↦ fixedBytes tag p.value := by
    rw [List.flatMap_map, List.flatMap_map]
    refine List.flatMap_congr fun e hmem ↦ ?_
    rw [stored, he e hmem, fixedBytes_stored]
  cases tag with
  | string => exact absurd rfl ht
  | bool =>
    rw [payload, keptPayload, List.map_map, List.map_map]
    congr 1
    refine List.map_congr_left fun e _ ↦ ?_
    obtain ⟨⟨hash, name, value, tag⟩, offset⟩ := e
    cases value <;> rfl
  | _ => exact hfixed

theorem map_stored_blockEntries (tag : Tag) (ps : List Property) :
    ((blockEntries tag (placed 0 ps)).map Entry.property).map stored = keptBlock tag ps := by
  rw [map_property_blockEntries, keptBlock]

theorem flatMap_hashes (tag : Tag) (ps : List Property) :
    ((blockEntries tag (placed 0 ps)).flatMap fun e ↦ leBytes 4 e.property.hash.toNat) =
      (keptBlock tag ps).flatMap fun p ↦ leBytes 4 p.hash.toNat := by
  rw [← map_stored_blockEntries, List.flatMap_map, List.flatMap_map]
  rfl

theorem isEmpty_blockEntries (tag : Tag) (ps : List Property) :
    (blockEntries tag (placed 0 ps)).isEmpty = (keptBlock tag ps).isEmpty := by
  rw [← map_stored_blockEntries, List.isEmpty_map, List.isEmpty_map]

theorem length_keptBlock (tag : Tag) (ps : List Property) :
    (keptBlock tag ps).length = (blockEntries tag (placed 0 ps)).length := by
  rw [← map_stored_blockEntries, List.length_map, List.length_map]

def keptHead (kept : List Property) : List UInt8 :=
  leBytes 2 kept.length ++ kept.flatMap fun p ↦ leBytes 4 p.hash.toNat

theorem blockSpelling_eq (tag : Tag) (ps : List Property) :
    blockSpelling tag (blockEntries tag (placed 0 ps)) =
      keptHead (keptBlock tag ps) ++ payload tag (blockEntries tag (placed 0 ps)) := by
  rw [blockSpelling, flatMap_hashes, keptHead, length_keptBlock]

def placeBytes (ps : List Property) : List UInt8 :=
  payload .string (blockEntries .string (placed 0 ps))

def keptTags (kept : Tag → List Property) (tags : List Tag) : List Tag :=
  tags.filter fun t ↦ !(kept t).isEmpty

def keptFlags (kept : Tag → List Property) : Nat :=
  (keptTags kept Tag.blocks).foldr (fun t n ↦ Nat.pow 2 (t.block?.getD 0) + n) 0

/-- Every byte of the file that depends on the data alone: all but the version, the size of the
texts, and the places and the texts at the end. -/
def keptBytes (kept : Tag → List Property) : List UInt8 :=
  leBytes 2 (keptFlags kept) ++ ((keptTags kept Tag.blocks.dropLast).flatMap fun t ↦
    keptHead (kept t) ++ keptPayload t (kept t)) ++
      if (kept .string).isEmpty then [] else keptHead (kept .string)

theorem typeBlocks_placed (ps : List Property) : typeBlocks (placed 0 ps) =
    (keptTags (keptBlock · ps) Tag.blocks).map fun t ↦ (t, blockEntries t (placed 0 ps)) := by
  rw [typeBlocks, List.filter_map, keptTags]
  congr 1
  refine List.filter_congr fun t _ ↦ ?_
  rw [Function.comp_apply, isEmpty_blockEntries]

theorem flags_placed (ps : List Property) :
    flags (typeBlocks (placed 0 ps)) = keptFlags (keptBlock · ps) := by
  rw [typeBlocks_placed, flags, List.foldr_map, keptFlags]

theorem flatMap_front (ps : List Property) :
    ((keptTags (keptBlock · ps) Tag.blocks.dropLast).flatMap fun t ↦
        blockSpelling t (blockEntries t (placed 0 ps))) =
      (keptTags (keptBlock · ps) Tag.blocks.dropLast).flatMap fun t ↦
        keptHead (keptBlock t ps) ++ keptPayload t (keptBlock t ps) := by
  refine List.flatMap_congr fun t ht ↦ ?_
  have hfront : ∀ t ∈ Tag.blocks.dropLast, t ≠ .string := by decide
  rw [blockSpelling_eq, payload_eq (hfront t (List.mem_filter.mp ht).1) fun e he ↦
    (mem_of_mem_blockEntries he).2, map_stored_blockEntries]

theorem flatMap_last (ps : List Property) :
    ((keptTags (keptBlock · ps) [.string]).flatMap fun t ↦
        blockSpelling t (blockEntries t (placed 0 ps))) =
      (if (keptBlock .string ps).isEmpty then [] else keptHead (keptBlock .string ps)) ++
        placeBytes ps := by
  cases hempty : (keptBlock .string ps).isEmpty with
  | true =>
    rw [← isEmpty_blockEntries, List.isEmpty_iff] at hempty
    rw [keptTags, List.filter_cons_of_neg (by simp [← isEmpty_blockEntries, hempty]), placeBytes,
      hempty]
    rfl
  | false =>
    rw [keptTags, List.filter_cons_of_pos (by simp [hempty]), List.filter_nil,
      List.flatMap_singleton, blockSpelling_eq]
    rfl

theorem packed_split (ps : List Property) : packed ps = formatVersion ::
    (leBytes 2 (stringArea ps).length ++
      (keptBytes (keptBlock · ps) ++ (placeBytes ps ++ stringArea ps))) := by
  have hblocks : Tag.blocks = Tag.blocks.dropLast ++ [.string] := by decide
  have hspelled : ((typeBlocks (placed 0 ps)).flatMap fun b ↦ blockSpelling b.1 b.2) =
      ((keptTags (keptBlock · ps) Tag.blocks.dropLast).flatMap fun t ↦
        blockSpelling t (blockEntries t (placed 0 ps))) ++
      ((keptTags (keptBlock · ps) [.string]).flatMap fun t ↦
        blockSpelling t (blockEntries t (placed 0 ps))) := by
    rw [typeBlocks_placed, List.flatMap_map, ← List.flatMap_append, keptTags, keptTags, keptTags,
      ← List.filter_append, ← hblocks]
  simp only [packed_eq, flags_placed, hspelled, flatMap_front, flatMap_last, keptBytes,
    List.append_assoc]

theorem length_placeBytes (ps : List Property) :
    (placeBytes ps).length = 2 * (keptBlock .string ps).length := by
  have hwidth (l : List Entry) : (l.flatMap fun e ↦ leBytes 2 e.offset).length = 2 * l.length := by
    induction l with
    | nil => rfl
    | cons e l ih =>
      rw [List.flatMap_cons, List.length_append, length_leBytes, ih, List.length_cons]
      omega
  rw [length_keptBlock]
  exact hwidth _

def sortedPlaces (ts : List (UInt32 × String)) : List (UInt32 × Nat) :=
  (places 0 ts).mergeSort fun x y ↦ x.1 ≤ y.1

theorem sortedPlaces_texts (h : ∀ p ∈ ps, Fits p) : sortedPlaces (texts ps) =
    (blockEntries .string (placed 0 ps)).map fun e ↦ (e.property.hash, e.offset) := by
  rw [sortedPlaces, ← places_placed h, blockEntries, eq_comm]
  exact List.map_mergeSort fun _ _ _ _ ↦ rfl

theorem placeBytes_eq (h : ∀ p ∈ ps, Fits p) :
    placeBytes ps = (sortedPlaces (texts ps)).flatMap fun x ↦ leBytes 2 x.2 := by
  rw [sortedPlaces_texts h, List.flatMap_map]
  rfl

theorem map_fst_sortedPlaces (h : ∀ p ∈ ps, Fits p) :
    (sortedPlaces (texts ps)).map Prod.fst = (keptBlock .string ps).map Property.hash := by
  rw [sortedPlaces_texts h, ← map_stored_blockEntries]
  simp only [List.map_map]
  rfl

theorem reads_sortedPlaces (h : ∀ p ∈ ps, Fits p) (hl : (stringArea ps).length ≤ limit) :
    Reads (times (keptBlock .string ps).length (Scan.nat 2)) (placeBytes ps)
      ((sortedPlaces (texts ps)).map Prod.snd) := by
  have hlength : (keptBlock .string ps).length = (sortedPlaces (texts ps)).length := by
    rw [← List.length_map Prod.fst, map_fst_sortedPlaces h, List.length_map]
  rw [placeBytes_eq h, hlength]
  refine reads_times fun x hx ↦ Scan.reads_nat ?_
  have hplace := (mem_places (List.mem_mergeSort.mp hx)).2
  rw [Nat.zero_add, ← stringArea_eq] at hplace
  exact hplace.trans (Nat.lt_succ_of_le hl)

theorem places_of_sortedPlaces {ts us : List (UInt32 × String)}
    (h : sortedPlaces ts = sortedPlaces us) : places 0 ts = places 0 us := by
  have ht : (sortedPlaces ts).Perm (places 0 ts) := List.mergeSort_perm _ _
  have hu : (sortedPlaces us).Perm (places 0 us) := List.mergeSort_perm _ _
  rw [h] at ht
  refine (ht.symm.trans hu).eq_of_pairwise (fun x y _ _ hxy hyx ↦ ?_) (pairwise_places 0 ts)
    (pairwise_places 0 us)
  exact absurd hyx (Nat.lt_asymm hxy)

theorem eq_of_map_fst_snd {α β : Type} {l m : List (α × β)} (hfst : l.map Prod.fst = m.map Prod.fst)
    (hsnd : l.map Prod.snd = m.map Prod.snd) : l = m := by
  rw [← List.zip_unzip l, ← List.zip_unzip m, List.unzip_eq_map, List.unzip_eq_map, hfst, hsnd]

/-- The same data is packed the same way just when the texts come in the same order. -/
theorem packed_eq_iff (hps : ∀ p ∈ ps, Fits p) (hqs : ∀ q ∈ qs, Fits q)
    (hpl : (stringArea ps).length ≤ limit) (hql : (stringArea qs).length ≤ limit)
    (h : SameData ps qs) : packed ps = packed qs ↔ texts ps = texts qs := by
  have hkept : (keptBlock · ps) = (keptBlock · qs) := funext h.keptBlock_eq
  rw [packed_split, packed_split, hkept]
  constructor
  · intro hpacked
    have hend := (List.append_inj (List.cons.inj hpacked).2
      (by rw [length_leBytes, length_leBytes])).2
    obtain ⟨hplaces, harea⟩ := List.append_inj (List.append_cancel_left hend)
      (by rw [length_placeBytes, length_placeBytes, h.keptBlock_eq])
    have hread := reads_sortedPlaces hps hpl []
    rw [h.keptBlock_eq, hplaces, reads_sortedPlaces hqs hql []] at hread
    have hsnd := (Prod.mk.inj (Except.ok.inj hread)).1
    have hfst : (sortedPlaces (texts ps)).map Prod.fst =
        (sortedPlaces (texts qs)).map Prod.fst := by
      rw [map_fst_sortedPlaces hps, map_fst_sortedPlaces hqs, h.keptBlock_eq]
    rw [stringArea_eq, stringArea_eq] at harea
    exact texts_of_places (places_of_sortedPlaces (eq_of_map_fst_snd hfst hsnd.symm)) harea
  · intro htexts
    rw [stringArea_eq, stringArea_eq, placeBytes_eq hps, placeBytes_eq hqs, htexts]

theorem texts_filter (h : ∀ p ∈ ps, Fits p) (hash : UInt32) :
    (texts ps).filter (·.1 = hash) =
      texts (ps.filter fun p ↦ p.tag = .string ∧ p.hash = hash) := by
  induction ps with
  | nil => rfl
  | cons p ps ih =>
    obtain ⟨hp, hps⟩ := List.forall_mem_cons.mp h
    rw [texts_cons, List.filter_append, ih hps]
    rcases text?_of_fits hp with ⟨ht, s, hs⟩ | ⟨ht, hs⟩
    · by_cases hh : p.hash = hash <;> simp [texts_cons, hs, ht, hh]
    · simp [hs, ht]

theorem texts_map_stored (ps : List Property) :
    texts (ps.map stored) = (texts ps).map fun t ↦ (t.1, Text.beforeZero t.2) := by
  rw [texts, texts, List.filterMap_map, List.map_filterMap]
  refine List.filterMap_congr fun p _ ↦ ?_
  obtain ⟨hash, name, value, tag⟩ := p
  cases value <;> rfl

def ZeroFree (ts : List (UInt32 × String)) : Prop := ∀ t ∈ ts, '\x00' ∉ t.2.toList

theorem ZeroFree.map_beforeZero {ts : List (UInt32 × String)} (h : ZeroFree ts) :
    ts.map (fun t ↦ (t.1, Text.beforeZero t.2)) = ts := by
  refine (List.map_congr_left fun t ht ↦ ?_).trans (List.map_id ts)
  rw [Text.beforeZero_eq_self (h t ht)]
  rfl

theorem SameData.texts_filter_eq (h : SameData ps qs) (hps : ∀ p ∈ ps, Fits p)
    (hqs : ∀ q ∈ qs, Fits q) (hpz : ZeroFree (texts ps)) (hqz : ZeroFree (texts qs))
    (hash : UInt32) : (texts ps).filter (·.1 = hash) = (texts qs).filter (·.1 = hash) := by
  have hrun := congrArg texts (h .string hash)
  rw [texts_map_stored, texts_map_stored, ← texts_filter hps, ← texts_filter hqs] at hrun
  have hfree {ts : List (UInt32 × String)} (hz : ZeroFree ts) :
      ZeroFree (ts.filter (·.1 = hash)) := fun t ht ↦ hz t (List.mem_filter.mp ht).1
  rwa [(hfree hpz).map_beforeZero, (hfree hqz).map_beforeZero] at hrun

/-- If one list has its texts sorted by hash, in any order of hashes, and as they come back, then
the other one has the same texts just when it has them sorted and as they come back too. -/
theorem texts_eq_iff {le : UInt32 → UInt32 → Bool} (hle : StableSort.TotalPreorder le)
    (htied : ∀ h k, StableSort.tied le h k = decide (k = h)) (h : SameData ps qs)
    (hps : ∀ p ∈ ps, Fits p) (hqs : ∀ q ∈ qs, Fits q) (hqz : ZeroFree (texts qs))
    (hsorted : (texts qs).Pairwise fun t u ↦ le t.1 u.1 = true) :
    texts ps = texts qs ↔
      ZeroFree (texts ps) ∧ (texts ps).Pairwise fun t u ↦ le t.1 u.1 = true := by
  constructor
  · intro heq
    rw [heq]
    exact ⟨hqz, hsorted⟩
  · rintro ⟨hpz, hpsorted⟩
    have hpairs : StableSort.TotalPreorder fun t u : UInt32 × String ↦ le t.1 u.1 :=
      ⟨fun t u v ↦ hle.trans t.1 u.1 v.1, fun t u ↦ hle.total t.1 u.1⟩
    refine StableSort.eq_of_runs hpairs hpsorted hsorted fun t ↦ ?_
    have hrun : StableSort.tied (fun t u : UInt32 × String ↦ le t.1 u.1) t =
        fun u ↦ decide (u.1 = t.1) := funext fun u ↦ htied t.1 u.1
    rw [hrun]
    exact h.texts_filter_eq hps hqs hpz hqz t.1

end PropertyFile.Inibin
