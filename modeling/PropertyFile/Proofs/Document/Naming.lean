import PropertyFile.Document
import PropertyFile.Proofs.Inibin.Alike

namespace PropertyFile.Document

open Inibin

variable {s : Storage} {o : Options} {kind : Kind} {bytes : List UInt8} {t : Tree} {d : Document}

theorem toBytes_eq (hk : d.kind ≠ .luaobj) :
    d.toBytes = (encode d.tree).mapError .inibinEncode := by
  rw [toBytes, written, encode]
  cases h : d.kind with
  | luaobj => exact absurd h hk
  | inibin => cases hf : (write d.tree).failure <;> simp only [hf] <;> rfl
  | troybin => cases hf : (write d.tree).failure <;> simp only [hf] <;> rfl

theorem alike_resolveGroups {dict : Dictionary} {r : Option Resolution} {t' : Tree}
    (h : Placed dict t) (hr : resolveGroups s o t = .ok (t', r)) :
    t'.version = formatVersion ∧ Alike t'.properties t.properties := by
  rw [resolveGroups] at hr
  split at hr
  · split at hr
    · next text _ =>
      injection hr with hr
      obtain ⟨rfl, -⟩ := Prod.mk.inj hr
      exact ⟨(Vocabulary.version_resolve _ t).trans h.version, Vocabulary.alike_resolve _ h⟩
    · cases hr
  · injection hr with hr
    obtain ⟨rfl, -⟩ := Prod.mk.inj hr
    exact ⟨h.version, fun _ ↦ rfl⟩

theorem decodeInibin_ok (h : decode bytes = .ok t) : decodeInibin bytes = .ok t := by
  rw [decodeInibin, h]
  rfl

theorem alike_ofBytes (ht : decode bytes = .ok t) (hv : t.version = formatVersion)
    (hk : kind ≠ .luaobj) (hd : ofBytes s o kind bytes = .ok d) :
    d.kind = kind ∧ d.tree.version = formatVersion ∧ Alike d.tree.properties t.properties := by
  rw [ofBytes] at hd
  cases hl : loadDictionary s o kind with
  | error e =>
    rw [hl] at hd
    cases hd
  | ok dict =>
    rw [hl] at hd
    simp only [bind, Except.bind, decodeInibin_ok ht] at hd
    have hplaced := placed_organize t dict hv
    cases kind with
    | luaobj => exact absurd rfl hk
    | inibin =>
      injection hd with hd
      subst hd
      exact ⟨rfl, hplaced.version, alike_organize t dict hv⟩
    | troybin =>
      dsimp only at hd
      cases hr : resolveGroups s o (t.organize dict) with
      | error e =>
        rw [hr] at hd
        cases hd
      | ok r =>
        rw [hr] at hd
        injection hd with hd
        subst hd
        obtain ⟨hversion, hsame⟩ := alike_resolveGroups hplaced hr
        exact ⟨rfl, hversion, hsame.trans (alike_organize t dict hv)⟩

/-- The tree with the properties of each section block by block, each block by ascending hash. -/
def blockwise (t : Tree) : Tree :=
  { t with sections := t.sections.map fun s ↦ { s with properties := inBlocks s.properties } }

theorem blockwise_treeOf {ps : List Property} (h : ∀ p ∈ ps, Fits p) :
    blockwise (treeOf ps) = treeOf (inBlocks ps) := by
  have hperm := inBlocks_perm fun p hp ↦ (h p hp).1
  rw [blockwise, treeOf, treeOf, hperm.isEmpty_eq]
  cases ps <;> rfl

/-- What saving a file that was opened gives, however it was opened. -/
theorem toBytes_of_decode {ps : List Property} (hs : Sound ps) (ht : decode bytes = .ok (treeOf ps))
    (hk : kind ≠ .luaobj) (hd : ofBytes s o kind bytes = .ok d) :
    if (stringArea ps).length ≤ limit
    then ∃ b, d.toBytes = .ok b ∧ decode b = .ok (blockwise (treeOf ps))
    else d.toBytes = .error (.inibinEncode .stringsTooLarge) := by
  obtain ⟨rfl, hversion, halike⟩ := alike_ofBytes ht rfl hk hd
  rw [properties_treeOf] at halike
  obtain ⟨hencode, hdecode⟩ := encode_of_alike hversion hs halike
  rw [toBytes_eq hk, hencode, blockwise_treeOf hs.fits]
  split
  · next harea => exact ⟨packed d.tree.properties, rfl, hdecode harea⟩
  · rfl

/-- Two ways to open one file lead to the same data when it is saved: either its texts are too large
both times, or both times the saved bytes decode to what was in the file, block by block. -/
theorem naming_keeps_data (bytes : List UInt8) (t : Tree) (ht : decode bytes = .ok t)
    (s s' : Storage) (o o' : Options) (kind kind' : Kind) (hk : kind ≠ .luaobj)
    (hk' : kind' ≠ .luaobj) (d d' : Document) (hd : ofBytes s o kind bytes = .ok d)
    (hd' : ofBytes s' o' kind' bytes = .ok d') :
    (d.toBytes = .error (.inibinEncode .stringsTooLarge) ∧
      d'.toBytes = .error (.inibinEncode .stringsTooLarge)) ∨
    ∃ b b', d.toBytes = .ok b ∧ d'.toBytes = .ok b' ∧
      decode b = .ok (blockwise t) ∧ decode b' = .ok (blockwise t) := by
  obtain ⟨ps, rfl, hs⟩ := decode_ok ht
  have hsave := toBytes_of_decode hs ht hk hd
  have hsave' := toBytes_of_decode hs ht hk' hd'
  split at hsave
  · next harea =>
    rw [if_pos harea] at hsave'
    obtain ⟨b, hb, hread⟩ := hsave
    obtain ⟨b', hb', hread'⟩ := hsave'
    exact .inr ⟨b, b', hb, hb', hread, hread'⟩
  · next harea =>
    rw [if_neg harea] at hsave'
    exact .inl ⟨hsave, hsave'⟩

def twoBytes : List UInt8 := [2, 0, 0, 16, 0, 2, 0, 30, 0, 0, 0, 10, 0, 0, 0, 7, 8]

def twoTree : Tree := treeOf [⟨30, none, .byte 7, .byte⟩, ⟨10, none, .byte 8, .byte⟩]

def namesFolder : Storage :=
  ⟨[(["rules.txt"], .file (Text.utf8 "A*b\n")), (["words.txt"], .file (Text.utf8 "b\n"))]⟩

def namesOptions : Options := ⟨none, some "rules.txt", some "words.txt", true⟩

def bareOpened : Document := ⟨.inibin, twoTree.organize .empty, .empty, none⟩

def namedOpened : Document :=
  let r := (Vocabulary.ofWords (wordsOfText "b\n")).resolve (twoTree.organize (.ofRules "A*b\n"))
  ⟨.troybin, r.1, .ofRules "A*b\n", some r.2⟩

theorem decode_twoBytes : decode twoBytes = .ok twoTree := rfl

theorem ofBytes_bare : ofBytes {} .bare .inibin twoBytes = .ok bareOpened := by
  simp only [ofBytes, loadDictionary, Options.bare, Options.dictionaryFor,
    decodeInibin_ok decode_twoBytes]
  rfl

theorem ofBytes_named : ofBytes namesFolder namesOptions .troybin twoBytes = .ok namedOpened := by
  have hrules : namesText namesFolder "rules.txt" = .ok "A*b\n" := by decide +kernel
  have hwords : namesText namesFolder "words.txt" = .ok "b\n" := by decide +kernel
  simp only [ofBytes, loadDictionary, namesOptions, Options.dictionaryFor, resolveGroups, hrules,
    hwords, decodeInibin_ok decode_twoBytes]
  rfl

theorem twoBytes_keep_data : decode twoBytes = .ok twoTree ∧
    ofBytes {} .bare .inibin twoBytes = .ok bareOpened ∧
    ofBytes namesFolder namesOptions .troybin twoBytes = .ok namedOpened ∧
    ((bareOpened.toBytes = .error (.inibinEncode .stringsTooLarge) ∧
      namedOpened.toBytes = .error (.inibinEncode .stringsTooLarge)) ∨
    ∃ b b', bareOpened.toBytes = .ok b ∧ namedOpened.toBytes = .ok b' ∧
      decode b = .ok (blockwise twoTree) ∧ decode b' = .ok (blockwise twoTree)) :=
  ⟨decode_twoBytes, ofBytes_bare, ofBytes_named,
    naming_keeps_data twoBytes twoTree decode_twoBytes {} namesFolder .bare namesOptions .inibin
      .troybin (by decide) (by decide) bareOpened namedOpened ofBytes_bare ofBytes_named⟩

end PropertyFile.Document
