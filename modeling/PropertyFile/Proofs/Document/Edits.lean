import PropertyFile.Proofs.Document.Naming
import PropertyFile.Proofs.Inibin.Rewriting

namespace PropertyFile

open Inibin

namespace Document

inductive Edit where
  | add (hash : UInt32) (value : Value) (tag : Tag)
  | remove (hash : UInt32)

def Edit.apply (d : Document) : Edit → Document
  | add hash value tag => d.addRaw hash value tag
  | remove hash => { d with tree := d.tree.erase hash }

def edit (d : Document) (edits : List Edit) : Document := edits.foldl Edit.apply d

def settled (p : Property) : Property := { p with value := storedValue p.tag p.value }

/-- A tree as it comes back: without empty sections, each section sorted by block and hash, each
value as it is stored. -/
def reopened (t : Tree) : Tree :=
  { t with
    sections := (t.sections.filter (!·.properties.isEmpty)).map fun s ↦
      { s with properties := (s.properties.map settled).mergeSort byBlock } }

variable {s s' : Storage} {o o' : Options} {bytes : List UInt8} {d d₀ : Document}

theorem ofBytes_inibin_iff : ofBytes s o .inibin bytes = .ok d ↔
    ∃ dict t, loadDictionary s o .inibin = .ok dict ∧ decode bytes = .ok t ∧
      d = ⟨.inibin, t.organize dict, dict, none⟩ := by
  rw [ofBytes]
  constructor
  · intro h
    cases hl : loadDictionary s o .inibin with
    | error e =>
      rw [hl] at h
      cases h
    | ok dict =>
      cases ht : decode bytes with
      | error e =>
        simp only [hl, decodeInibin, ht, bind, Except.bind, Except.mapError] at h
        cases h
      | ok t =>
        simp only [hl, decodeInibin_ok ht, bind, Except.bind] at h
        injection h with h
        exact ⟨dict, t, rfl, rfl, h.symm⟩
  · rintro ⟨dict, t, hl, ht, rfl⟩
    simp only [hl, decodeInibin_ok ht, bind, Except.bind]
    rfl

theorem apply_keeps (h : Placed d.dictionary d.tree) (e : Edit) :
    (e.apply d).kind = d.kind ∧ (e.apply d).dictionary = d.dictionary ∧
      Placed d.dictionary (e.apply d).tree := by
  cases e with
  | add hash value tag => exact ⟨rfl, rfl, h.addRaw hash value tag⟩
  | remove hash => exact ⟨rfl, rfl, h.erase hash⟩

theorem edit_keeps (h : Placed d.dictionary d.tree) (edits : List Edit) :
    (d.edit edits).kind = d.kind ∧ (d.edit edits).dictionary = d.dictionary ∧
      Placed d.dictionary (d.edit edits).tree := by
  induction edits generalizing d with
  | nil => exact ⟨rfl, rfl, h⟩
  | cons e edits ih =>
    obtain ⟨hkind, hdict, hplaced⟩ := apply_keeps h e
    rw [← hdict] at hplaced
    obtain ⟨hkind', hdict', hplaced'⟩ := ih hplaced
    exact ⟨hkind'.trans hkind, hdict'.trans hdict, hdict ▸ hplaced'⟩

theorem properties_readTree_eq {ps : List Property} (hfit : ∀ p ∈ ps, Fits p) :
    (readTree ps).properties = (inBlocks ps).map stored := by
  rw [← treeOf_inBlocks hfit, properties_treeOf]

theorem map_settled_mergeSort (ps : List Property) :
    (ps.mergeSort byBlock).map settled = (ps.map settled).mergeSort byBlock :=
  List.map_mergeSort fun _ _ _ _ ↦ rfl

theorem regular_reopened {t : Tree} (h : Regular t.sections) : Regular (reopened t).sections := by
  refine (h.filter (!·.properties.isEmpty)).congr ?_
  rw [reopened, List.map_map]
  rfl

theorem contents_reopened {t : Tree} (h : Regular t.sections) (name : String) :
    contents (reopened t).sections name =
      ((contents t.sections name).mergeSort byBlock).map settled := by
  have hd := h.distinct.filter (!·.properties.isEmpty)
  have hnil : ([].map settled).mergeSort byBlock = [] := List.mergeSort_nil
  have hc := hd.contents_map (f := fun ps ↦ (ps.map settled).mergeSort byBlock) hnil name
  rw [contents_filter_nonempty, ← map_settled_mergeSort] at hc
  exact hc

theorem reopened_nonempty {t : Tree} {u : Section} (h : u ∈ (reopened t).sections) :
    u.properties ≠ [] := by
  obtain ⟨v, hv, rfl⟩ := List.mem_map.mp h
  have hne := (List.mem_filter.mp hv).2
  intro hnil
  have hlen := congrArg List.length hnil
  rw [List.length_mergeSort, List.length_map, List.length_nil, List.length_eq_zero_iff] at hlen
  rw [hlen] at hne
  cases hne

theorem route_stored {dict : Dictionary} {t : Tree} (h : Placed dict t) {p : Property}
    (hp : p ∈ t.properties) : (dict.route (stored p)).2 = settled p := by
  show (⟨p.hash, some (dict.place p.hash).2, storedValue p.tag p.value, p.tag⟩ : Property) = _
  rw [← h.name_eq hp]
  rfl

/-- Sorting what is read into sections gives back the sections that were written. -/
theorem organize_readTree {dict : Dictionary} {t : Tree} (h : Placed dict t)
    (hfit : ∀ p ∈ t.properties, Fits p) :
    (readTree t.properties).organize dict = reopened t := by
  have hplaced := placed_organize (readTree t.properties) dict rfl
  have htag : ∀ p ∈ t.properties, p.tag ≠ .table := fun p hp ↦ (hfit p hp).1
  have hsections : ((readTree t.properties).organize dict).sections = (reopened t).sections := by
    refine hplaced.regular.eq_of_contents (regular_reopened h.regular)
      (fun _ ↦ organize_nonempty) (fun _ ↦ reopened_nonempty) fun name ↦ ?_
    rw [contents_organize, contents_reopened h.regular, h.contents_eq,
      ← StableSort.filter_mergeSort_comm byBlock_preorder, ← inBlocks_eq_mergeSort htag,
      properties_readTree_eq hfit]
    simp only [List.filter_map, List.map_map]
    refine List.map_congr_left fun p hp ↦ ?_
    exact route_stored h ((inBlocks_perm htag).mem_iff.mp (List.mem_filter.mp hp).1)
  exact Tree.eq_of_sections h.version.symm hsections

theorem ofBytes_toBytes (hk : d.kind = .inibin) (hp : Placed d.dictionary d.tree)
    {saved : List UInt8} (hb : d.toBytes = .ok saved)
    (hdict : loadDictionary s' o' .inibin = .ok d.dictionary) :
    ofBytes s' o' .inibin saved = .ok ⟨.inibin, reopened d.tree, d.dictionary, none⟩ := by
  have hkind : d.kind ≠ .luaobj := by
    rw [hk]
    decide
  have hencode : encode d.tree = .ok saved := by
    rw [toBytes_eq hkind] at hb
    cases he : encode d.tree with
    | error e =>
      rw [he] at hb
      cases hb
    | ok b =>
      rw [he] at hb
      injection hb with hb
      rw [hb]
  obtain ⟨-, hfit, harea, hcount, rfl⟩ := encode_eq_ok_iff.mp hencode
  rw [← organize_readTree hp hfit]
  exact ofBytes_inibin_iff.mpr ⟨_, _, hdict, (decode_packed hfit harea hcount).1, rfl⟩

theorem reopened_organize {ps : List Property} (hs : Sound ps)
    (hsort : ps.Pairwise fun p q ↦ byBlock p q = true) (dict : Dictionary) :
    reopened ((treeOf ps).organize dict) = (treeOf ps).organize dict := by
  have hfull : ((treeOf ps).organize dict).sections.filter (!·.properties.isEmpty) =
      ((treeOf ps).organize dict).sections := by
    rw [List.filter_eq_self]
    intro u hu
    rw [Bool.not_eq_true', ← Bool.not_eq_true, List.isEmpty_iff]
    exact organize_nonempty hu
  have hsame : ∀ u ∈ ((treeOf ps).organize dict).sections,
      { u with properties := (u.properties.map settled).mergeSort byBlock } = u := by
    intro u hu
    obtain ⟨name, -, rfl⟩ := mem_organize hu
    rw [properties_treeOf]
    have hsettled : (Section.gather name (ps.map dict.route)).properties.map settled =
        (Section.gather name (ps.map dict.route)).properties := by
      refine (List.map_congr_left fun p hp ↦ ?_).trans (List.map_id _)
      obtain ⟨q, hq, hroute⟩ := List.mem_map.mp (mem_gather.mp hp)
      obtain ⟨-, rfl⟩ := Prod.mk.inj hroute
      have hvalue : storedValue q.tag q.value = q.value :=
        congrArg Property.value (hs.stored_eq q hq)
      exact congrArg (fun v ↦ (⟨q.hash, _, v, q.tag⟩ : Property)) hvalue
    have hsorted : (Section.gather name (ps.map dict.route)).properties.Pairwise
        fun p q ↦ byBlock p q = true := by
      rw [Section.gather, List.filter_map, List.map_map]
      exact List.pairwise_map.mpr (hsort.filter _)
    rw [hsettled, List.mergeSort_of_pairwise hsorted]
  rw [reopened, hfull, List.map_congr_left hsame, List.map_id']

/-- A document that was edited in any way and saved opens again as what it was, less its empty
sections. Without edits, bytes that were encoded open again as the same document. -/
theorem edits_survive (s s' : Storage) (o o' : Options) (bytes : List UInt8) (d₀ : Document)
    (hd : ofBytes s o .inibin bytes = .ok d₀)
    (hdict : loadDictionary s' o' .inibin = .ok d₀.dictionary) :
    (∀ edits saved, (d₀.edit edits).toBytes = .ok saved →
      ofBytes s' o' .inibin saved = .ok { d₀ with tree := reopened (d₀.edit edits).tree }) ∧
    ((∃ t, encode t = .ok bytes) →
      ∃ saved, d₀.toBytes = .ok saved ∧ ofBytes s' o' .inibin saved = .ok d₀) := by
  obtain ⟨dict, t, -, ht, rfl⟩ := ofBytes_inibin_iff.mp hd
  obtain ⟨ps, rfl, hs⟩ := decode_ok ht
  have hplaced := placed_organize (treeOf ps) dict rfl
  constructor
  · intro edits saved hsaved
    obtain ⟨hkind, hsame, hplaced'⟩ :=
      edit_keeps (d := ⟨.inibin, (treeOf ps).organize dict, dict, none⟩) hplaced edits
    rw [← hsame] at hplaced' hdict
    have hopen := ofBytes_toBytes hkind hplaced' hsaved hdict
    rwa [hsame] at hopen
  · rintro ⟨t, hencode⟩
    obtain ⟨hread, -, harea⟩ := decode_of_encode hencode
    have hsort := pairwise_kept t.properties
    rw [ht] at hread
    injection hread with hread
    have hps := congrArg Tree.properties hread
    rw [properties_treeOf, properties_treeOf] at hps
    subst hps
    have hsave := toBytes_of_decode hs ht (by decide) hd
    rw [if_pos harea] at hsave
    obtain ⟨saved, hsaved, -⟩ := hsave
    refine ⟨saved, hsaved, ?_⟩
    rw [ofBytes_toBytes rfl hplaced hsaved hdict, reopened_organize hs hsort]

def twoEdits : List Edit := [.remove 30, .add 5 (.scaled ⟨0x3F0CCCCD⟩) .scaled]

def twoEdited : List Property :=
  [⟨10, some "Unknown_10", .byte 8, .byte⟩,
    ⟨5, some "Unknown_5", .scaled ⟨0x3F0CCCCD⟩, .scaled⟩]

def savedBytes : List UInt8 := [2, 0, 0, 20, 0, 1, 0, 5, 0, 0, 0, 5, 1, 0, 10, 0, 0, 0, 8]

def twoNamed : List Property :=
  [⟨30, some "Unknown_30", .byte 7, .byte⟩, ⟨10, some "Unknown_10", .byte 8, .byte⟩]

theorem bareOpened_eq : bareOpened = ⟨.inibin,
    ⟨formatVersion, [⟨nameHash unknownsSection, unknownsSection, twoNamed⟩]⟩, .empty, none⟩ := by
  have hrouted : twoTree.properties.map Dictionary.empty.route =
      twoNamed.map fun p ↦ (unknownsSection, p) := by cbv
  have hnames : ((twoNamed.map fun p ↦ (unknownsSection, p)).map (·.1)).eraseDups =
      [unknownsSection] := by decide
  have hkept : ((twoNamed.map fun p ↦ (unknownsSection, p)).filter
      (·.1 = unknownsSection)).map (·.2) = twoNamed := rfl
  rw [bareOpened, Tree.organize, hrouted, hnames, List.map_singleton, sortSections,
    List.mergeSort_singleton, Section.gather, hkept]
  rfl

theorem edit_bareOpened : (bareOpened.edit twoEdits).tree.version = formatVersion ∧
    (bareOpened.edit twoEdits).tree.properties = twoEdited := by
  -- the hash of the section's name plays no part
  have hedit (hash : UInt32) :
      let d : Document :=
        ⟨.inibin, ⟨formatVersion, [⟨hash, unknownsSection, twoNamed⟩]⟩, .empty, none⟩
      (d.edit twoEdits).tree.version = formatVersion ∧
        (d.edit twoEdits).tree.properties = twoEdited :=
    ⟨by cbv, by cbv⟩
  rw [bareOpened_eq]
  exact hedit _

theorem toBytes_twoEdits : (bareOpened.edit twoEdits).toBytes = .ok savedBytes := by
  obtain ⟨hversion, hprops⟩ := edit_bareOpened
  have hblocks : typeBlocks (placed 0 twoEdited) =
      [(.scaled, [⟨⟨5, some "Unknown_5", .scaled ⟨0x3F0CCCCD⟩, .scaled⟩, 0⟩]),
        (.byte, [⟨⟨10, some "Unknown_10", .byte 8, .byte⟩, 0⟩])] := by cbv
  have hencode : encode (bareOpened.edit twoEdits).tree = .ok savedBytes := by
    rw [encode_eq_ok_iff, hprops]
    refine ⟨hversion, ?_, by decide, fun tag ↦ ?_, ?_⟩
    · simp [twoEdited, Fits, Tag.accepts]
    · exact (List.length_filter_le _ _).trans (by decide)
    · rw [packed, hblocks]
      decide
  rw [toBytes_eq (by decide), hencode]
  rfl

theorem twoEdits_survive : ofBytes {} .bare .inibin twoBytes = .ok bareOpened ∧
    loadDictionary {} .bare .inibin = .ok bareOpened.dictionary ∧
    (bareOpened.edit twoEdits).toBytes = .ok savedBytes ∧
    ofBytes {} .bare .inibin savedBytes =
      .ok { bareOpened with tree := reopened (bareOpened.edit twoEdits).tree } :=
  ⟨ofBytes_bare, rfl, toBytes_twoEdits,
    (edits_survive {} {} .bare .bare twoBytes bareOpened ofBytes_bare rfl).1 twoEdits savedBytes
      toBytes_twoEdits⟩

end Document

end PropertyFile
