import Mathlib.Data.List.Nodup
import PropertyFile.Proofs.Json.Printed
import PropertyFile.Proofs.Machine.Fixed
import PropertyFile.Proofs.Number.Indexes
import PropertyFile.Tree.Interchange

namespace PropertyFile

open Number Json

def Number.Single.isFinite (x : Single) : Bool :=
  match x.datum with
  | .finite .. => true
  | _ => false

namespace Json.Library

/-- JSON of whole strings, integers of 64 bits and finite numbers, as the library writes them. -/
inductive Built (lib : Library) : Json → Prop
  | null : Built lib null
  | bool (b : Bool) : Built lib (bool b)
  | integer {i : Int} (low : Int64.minValue.toInt ≤ i) (high : i < UInt64.size) :
    Built lib (lib.ofInt i)
  | single {x : Single} (finite : x.isFinite = true) : Built lib (lib.ofSingle x)
  | string (s : String) : Built lib (string (some s))
  | array {items : List Json} (values : ∀ j ∈ items, Built lib j) : Built lib (array items)
  | object {fields : List (Option String × Json)} (keys : ∀ f ∈ fields, f.1.isSome = true)
    (values : ∀ f ∈ fields, Built lib f.2) : Built lib (object fields)

/-- What is assumed of a library: text is parsed as the JSON that was printed, integers are read
back, and the five brackets around a value may be open. -/
structure Lawful (lib : Library) : Prop where
  parse?_print : ∀ {j : Json}, lib.Built j → ∀ pretty, lib.parse? (lib.print pretty j) = some j
  integer?_ofInt : ∀ {i : Int}, Int64.minValue.toInt ≤ i → i < UInt64.size →
    lib.integer? (lib.ofInt i) = some i
  five_le_depth : 5 ≤ lib.depth

/-- The library reads the number back that it writes. -/
def Keeps (lib : Library) (x : Single) : Prop := lib.single? (lib.ofSingle x) = some x

end Json.Library

namespace Json

theorem proper_ofSingle (x : Single) : (ofSingle x).Proper := by
  rw [ofSingle]
  split
  · exact .number (Numeral.proper_ofDecimal _ _)
  · exact .null

theorem proper_of_built {j : Json} (h : standard.Built j) : j.Proper := by
  induction h with
  | null => exact .null
  | bool b => exact .bool b
  | integer => exact .number (Numeral.proper_ofInt _)
  | single => exact proper_ofSingle _
  | string s => exact .string s
  | array _ ih => exact .array ih
  | object keys _ ih => exact .object keys ih

theorem lawful_standard : standard.Lawful where
  parse?_print h pretty := (proper_of_built h).parse?_write pretty
  integer?_ofInt low high := by simp only [standard, integer?, Numeral.amount?_ofInt low high]
  five_le_depth := by decide

theorem mapM_eq_some_iff {α β : Type} {f : α → Option β} {l : List α} {l' : List β} :
    l.mapM f = some l' ↔ l.map f = l'.map some := by
  induction l generalizing l' with
  | nil => cases l' <;> simp
  | cons a l ih =>
    rw [List.mapM_cons, List.map_cons]
    simp only [Option.bind_eq_bind, Option.bind_eq_some_iff, Option.pure_def, Option.some.injEq]
    constructor
    · rintro ⟨b, ha, bs, hl, rfl⟩
      rw [ha, ih.mp hl, List.map_cons]
    · intro h
      obtain ⟨b, bs, rfl, hb, hbs⟩ := List.map_eq_cons_iff.mp h.symm
      exact ⟨b, hb.symm, bs, ih.mpr hbs.symm, rfl⟩

theorem mapM_eq_map_iff {α β : Type} {f : α → Option β} {g : α → β} {l : List α} :
    l.mapM f = some (l.map g) ↔ ∀ a ∈ l, f a = some (g a) := by
  rw [mapM_eq_some_iff, List.map_map, List.map_inj_left]
  rfl

theorem mapM_eq_self_iff {α : Type} {f : α → Option α} {l : List α} :
    l.mapM f = some l ↔ ∀ a ∈ l, f a = some a := by
  have h := mapM_eq_map_iff (f := f) (g := id) (l := l)
  rwa [List.map_id] at h

theorem lookup?_eq {fields : List (String × Json)} (h : (fields.map Prod.fst).Nodup)
    {f : String × Json} (hf : f ∈ fields) : lookup? fields f.1 = some (some f.2) := by
  have hfilter : fields.filter (·.1 = f.1) = [f] := by
    induction fields with
    | nil => cases hf
    | cons g fields ih =>
      obtain ⟨hnot, htail⟩ := List.nodup_cons.mp h
      rcases List.mem_cons.mp hf with rfl | hf
      · rw [List.filter_cons_of_pos (by simp only [decide_true]), List.filter_eq_nil_iff.mpr]
        exact fun g hg hname ↦ hnot (of_decide_eq_true hname ▸ List.mem_map_of_mem hg)
      · have hne : g.1 ≠ f.1 := fun heq ↦ hnot (heq ▸ List.mem_map_of_mem hf)
        rw [List.filter_cons_of_neg (by simpa using hne), ih htail hf]
  rw [lookup?, hfilter]

theorem record?_ofFields {fields : List (String × Json)} (h : (fields.map Prod.fst).Nodup) :
    record? (fields.map Prod.fst) (ofFields fields) = some (fields.map fun f ↦ some f.2) := by
  have htexts : textFields? (fields.map fun f ↦ (some f.1, f.2)) = some fields := by
    rw [textFields?, List.mapM_map]
    exact mapM_eq_self_iff.mpr fun _ _ ↦ rfl
  rw [ofFields, record?, htexts, Option.bind_some, List.mapM_map]
  exact mapM_eq_map_iff.mpr fun f hf ↦ lookup?_eq h hf

end Json

inductive Value.Ordered : Value → Prop
  | single {v : Value} (h : v.tag ≠ .table) : Ordered v
  | table {entries : List (Key × Value)} (inOrder : InOrder Key.order entries)
    (values : ∀ e ∈ entries, Ordered e.2) : Ordered (.table entries)

def Tree.Ordered (t : Tree) : Prop := ∀ p ∈ t.properties, p.value.Ordered

mutual

def Value.floats : Value → List Single
  | .float x | .scaled x => [x]
  | .vec2 x y => [x, y]
  | .vec3 x y z => [x, y, z]
  | .vec4 x y z w => [x, y, z, w]
  | .table entries => entryFloats entries
  | _ => []

def entryFloats : List (Key × Value) → List Single
  | [] => []
  | (_, v) :: rest => v.floats ++ entryFloats rest

end

mutual

def Value.keys : Value → List Key
  | .table entries => entryKeys entries
  | _ => []

def entryKeys : List (Key × Value) → List Key
  | [] => []
  | (k, v) :: rest => k :: (v.keys ++ entryKeys rest)

end

def Tree.floats (t : Tree) : List Single := t.properties.flatMap (·.value.floats)

def Tree.keys (t : Tree) : List Key := t.properties.flatMap (·.value.keys)

theorem forall_mem_entryFloats {P : Single → Prop} {entries : List (Key × Value)} :
    (∀ x ∈ entryFloats entries, P x) ↔ ∀ e ∈ entries, ∀ x ∈ e.2.floats, P x := by
  induction entries with
  | nil => simp [entryFloats]
  | cons e entries ih => rw [entryFloats, List.forall_mem_append, ih, List.forall_mem_cons]

theorem forall_mem_entryKeys {P : Key → Prop} {entries : List (Key × Value)} :
    (∀ k ∈ entryKeys entries, P k) ↔ ∀ e ∈ entries, P e.1 ∧ ∀ k ∈ e.2.keys, P k := by
  induction entries with
  | nil => simp [entryKeys]
  | cons e entries ih =>
    rw [entryKeys, List.forall_mem_cons, List.forall_mem_append, ih, List.forall_mem_cons,
      and_assoc]

theorem Value.keys_of_tag_ne {v : Value} (h : v.tag ≠ .table) : v.keys = [] := by
  cases v with
  | table entries => exact (h rfl).elim
  | _ => rfl

mutual

/-- How many brackets stand inside one another in the JSON of a value. -/
def Value.brackets : Value → Nat
  | .vec2 .. | .vec3 .. | .vec4 .. => 2
  | .table entries => entryBrackets entries + 2
  | _ => 1

def entryBrackets : List (Key × Value) → Nat
  | [] => 0
  | (_, v) :: rest => max v.brackets (entryBrackets rest)

end

theorem entryBrackets_le_iff {entries : List (Key × Value)} {n : Nat} :
    entryBrackets entries ≤ n ↔ ∀ e ∈ entries, e.2.brackets ≤ n := by
  induction entries with
  | nil => simp only [entryBrackets, Nat.zero_le, List.not_mem_nil, false_implies, implies_true]
  | cons e entries ih => rw [entryBrackets, Nat.max_le, ih, List.forall_mem_cons]

def Key.Returns (k : Key) : Prop := ofText k.text = k

instance (k : Key) : Decidable k.Returns := inferInstanceAs (Decidable (_ = _))

theorem Key.returns_index (i : Int64) : (index i).Returns := by
  rw [Returns, text, ofText_brackets, readWithin?_toString i.minValue_le_toInt i.toInt_le,
    Option.elim_some, Int64.ofInt_toInt]

theorem Key.returns_ofText {text s : String} (h : ofText text = name s) : (name s).Returns := by
  obtain rfl := ofText_eq_name h
  exact h

theorem Value.one_le_brackets (v : Value) : 1 ≤ v.brackets := by
  cases v <;> simp only [brackets] <;> omega

namespace Json.Library

variable {lib : Library}

theorem built_ofFields {fields : List (String × Json)} (h : ∀ f ∈ fields, lib.Built f.2) :
    lib.Built (ofFields fields) := by
  refine .object (fun f hf ↦ ?_) fun f hf ↦ ?_
  · obtain ⟨f, -, rfl⟩ := List.mem_map.mp hf
    rfl
  · obtain ⟨f, hmem, rfl⟩ := List.mem_map.mp hf
    exact h f hmem

theorem built_ofField {name : String} {j : Json} (h : lib.Built j) :
    lib.Built (ofFields [(name, j)]) :=
  built_ofFields (List.forall_mem_singleton.mpr h)

theorem built_ofSingles {xs : List Single} (h : ∀ x ∈ xs, x.isFinite = true) :
    lib.Built (lib.ofSingles xs) := by
  refine .array fun j hj ↦ ?_
  obtain ⟨x, hx, rfl⟩ := List.mem_map.mp hj
  exact .single (h x hx)

theorem built_ofNat {n : Nat} (h : n < UInt64.size) : lib.Built (lib.ofInt n) :=
  .integer (Int.le_trans (by decide) (Int.natCast_nonneg n)) (Int.ofNat_lt.mpr h)

theorem ofEntries_eq_map (entries : List (Key × Value)) :
    lib.ofEntries entries = entries.map fun e ↦ (some e.1.text, lib.ofValue e.2) := by
  induction entries with
  | nil => rfl
  | cons e entries ih => rw [ofEntries, ih, List.map_cons]

theorem built_ofValue {v : Value} (h : v.Ordered) (hfinite : ∀ x ∈ v.floats, x.isFinite = true) :
    lib.Built (lib.ofValue v) := by
  induction h with
  | @single v hv =>
    cases v with
    | int32 n =>
      have hlow := n.minValue_le_toInt
      have hhigh := n.toInt_lt
      exact built_ofField
        (.integer (Int.le_trans (by decide) hlow) (Int.lt_trans hhigh (by decide)))
    | float x | scaled x => exact built_ofField (.single (hfinite x (.head _)))
    | int16 n =>
      have hlow := n.minValue_le_toInt
      have hhigh := n.toInt_lt
      exact built_ofField
        (.integer (Int.le_trans (by decide) hlow) (Int.lt_trans hhigh (by decide)))
    | byte n => exact built_ofField (built_ofNat (Nat.lt_trans n.toNat_lt (by decide)))
    | bool b => exact built_ofField (.bool b)
    | vec2 | vec3 | vec4 => exact built_ofField (built_ofSingles hfinite)
    | string s => exact built_ofField (.string s)
    | table entries => exact (hv rfl).elim
  | @table entries _ _ ih =>
    rw [Value.floats, forall_mem_entryFloats] at hfinite
    rw [ofValue, ofEntries_eq_map]
    refine built_ofField (.object (fun f hf ↦ ?_) fun f hf ↦ ?_)
    · obtain ⟨e, -, rfl⟩ := List.mem_map.mp hf
      rfl
    · obtain ⟨e, he, rfl⟩ := List.mem_map.mp hf
      exact ih e he (hfinite e he)

theorem built_ofTree {t : Tree} (h : t.Ordered) (hfinite : ∀ x ∈ t.floats, x.isFinite = true) :
    lib.Built (lib.ofTree t) := by
  rw [Tree.floats, List.forall_mem_flatMap] at hfinite
  have hword : ∀ n : UInt32, lib.Built (lib.ofInt n.toNat) := fun n ↦
    built_ofNat (Nat.lt_trans n.toNat_lt (by decide))
  have hproperty : ∀ p ∈ t.properties, lib.Built (lib.ofProperty p) := by
    intro p hp
    refine built_ofFields ?_
    simp only [List.forall_mem_cons, List.not_mem_nil, false_implies, implies_true, and_true]
    refine ⟨hword _, ?_, built_ofValue (h p hp) (hfinite p hp), .string _⟩
    split
    · exact .string _
    · exact .null
  have hsection : ∀ s ∈ t.sections, lib.Built (lib.ofSection s) := by
    intro s hs
    refine built_ofFields ?_
    simp only [List.forall_mem_cons, List.not_mem_nil, false_implies, implies_true, and_true]
    refine ⟨hword _, .string _, .array fun j hj ↦ ?_⟩
    obtain ⟨p, hp, rfl⟩ := List.mem_map.mp hj
    exact hproperty p (List.mem_flatMap.mpr ⟨s, hs, hp⟩)
  refine built_ofFields ?_
  simp only [List.forall_mem_cons, List.not_mem_nil, false_implies, implies_true, and_true]
  refine ⟨built_ofNat (Nat.lt_trans t.version.toNat_lt (by decide)), .array fun j hj ↦ ?_⟩
  obtain ⟨s, hs, rfl⟩ := List.mem_map.mp hj
  exact hsection s hs

section

variable (hlib : lib.Lawful)
include hlib

theorem between?_ofInt {low high i : Int} (hmin : Int64.minValue.toInt ≤ low)
    (hmax : high < UInt64.size) (hlow : low ≤ i) (hhigh : i ≤ high) :
    lib.between? low high (lib.ofInt i) = some i := by
  rw [between?, hlib.integer?_ofInt (hmin.trans hlow) (hhigh.trans_lt hmax), Option.bind_some,
    if_pos ⟨hlow, hhigh⟩]

theorem byte?_ofInt (n : UInt8) : lib.byte? (lib.ofInt n.toNat) = some n := by
  have hn : (n.toNat : Int) ≤ (UInt8.size - 1 : Nat) :=
    Int.ofNat_le.mpr (Nat.le_pred_of_lt n.toNat_lt)
  rw [byte?, between?_ofInt hlib (by decide) (by decide) (Int.natCast_nonneg _) hn,
    Option.map_some, Int.toNat_natCast, UInt8.ofNat_toNat]

theorem word32?_ofInt (n : UInt32) : lib.word32? (lib.ofInt n.toNat) = some n := by
  have hn : (n.toNat : Int) ≤ (UInt32.size - 1 : Nat) :=
    Int.ofNat_le.mpr (Nat.le_pred_of_lt n.toNat_lt)
  rw [word32?, between?_ofInt hlib (by decide) (by decide) (Int.natCast_nonneg _) hn,
    Option.map_some, Int.toNat_natCast, UInt32.ofNat_toNat]

theorem int16?_ofInt (n : Int16) : lib.int16? (lib.ofInt n.toInt) = some n := by
  rw [int16?, between?_ofInt hlib (by decide) (by decide) n.minValue_le_toInt n.toInt_le,
    Option.map_some, Int16.ofInt_toInt]

theorem int32?_ofInt (n : Int32) : lib.int32? (lib.ofInt n.toInt) = some n := by
  rw [int32?, between?_ofInt hlib (by decide) (by decide) n.minValue_le_toInt n.toInt_le,
    Option.map_some, Int32.ofInt_toInt]

end

theorem singles?_ofSingles (levels : Nat) {xs : List Single} (h : ∀ x ∈ xs, lib.Keeps x) :
    lib.singles? (levels + 1) (lib.ofSingles xs) = some xs := by
  rw [ofSingles, singles?, enter?, Option.bind_some, List.mapM_map]
  exact mapM_eq_self_iff.mpr h

theorem value?_zero (j : Json) : lib.value? 0 j = none := by
  unfold value?
  split <;> rfl

theorem value?_ofValue_single (hlib : lib.Lawful) {v : Value} (h : v.tag ≠ .table)
    (hkeeps : ∀ x ∈ v.floats, lib.Keeps x) (levels : Nat) :
    lib.value? (levels + 1) (lib.ofValue v) = some v ↔ v.brackets ≤ levels + 1 := by
  cases v with
  | table entries => exact (h rfl).elim
  | int32 n => simp [ofValue, ofFields, value?, enter?, Value.brackets, int32?_ofInt hlib]
  | float x =>
    have hx : lib.single? (lib.ofSingle x) = some x := hkeeps x (.head _)
    simp [ofValue, ofFields, value?, enter?, Value.brackets, hx]
  | scaled x =>
    have hx : lib.single? (lib.ofSingle x) = some x := hkeeps x (.head _)
    simp [ofValue, ofFields, value?, enter?, Value.brackets, hx]
  | int16 n => simp [ofValue, ofFields, value?, enter?, Value.brackets, int16?_ofInt hlib]
  | byte n => simp [ofValue, ofFields, value?, enter?, Value.brackets, byte?_ofInt hlib]
  | bool b => simp [ofValue, ofFields, value?, enter?, Value.brackets, bool?]
  | string s => simp [ofValue, ofFields, value?, enter?, Value.brackets, Json.text?, ofText]
  | vec2 | vec3 | vec4 =>
    cases levels with
    | zero => exact iff_of_false nofun (by simp [Value.brackets])
    | succ levels =>
      have hread := singles?_ofSingles levels hkeeps
      rw [Value.floats] at hread
      simp [ofValue, ofFields, value?, enter?, Value.brackets, hread]

theorem entries?_ofEntries (levels : Nat) (entries : List (Key × Value)) :
    lib.entries? levels (lib.ofEntries entries) = entries.mapM fun e ↦
      (lib.value? levels (lib.ofValue e.2)).map fun v ↦ (Key.ofText e.1.text, v) := by
  induction entries with
  | nil => rfl
  | cons e entries ih =>
    rw [ofEntries, entries?, List.mapM_cons, ih]
    cases lib.value? levels (lib.ofValue e.2) <;> rfl

theorem value?_ofValue_table (levels : Nat) (entries : List (Key × Value)) :
    lib.value? (levels + 2) (lib.ofValue (.table entries)) =
      (lib.entries? levels (lib.ofEntries entries)).map .tableOf := by
  rw [ofValue, ofFields, List.map_singleton, value?, enter?, Option.bind_some, if_pos rfl,
    table?, enter?, Option.bind_some]

/-- A table comes back exactly if its keys and its values do: a name that spells an index comes back
as that index, and so no key of the table that is read can be that name. -/
theorem entries?_ofEntries_iff {entries : List (Key × Value)} (h : InOrder Key.order entries)
    (levels : Nat) :
    (lib.entries? levels (lib.ofEntries entries)).map Value.tableOf = some (.table entries) ↔
      ∀ e ∈ entries, e.1.Returns ∧ lib.value? levels (lib.ofValue e.2) = some e.2 := by
  rw [entries?_ofEntries]
  constructor
  · intro hread
    obtain ⟨l, hl, htable⟩ := Option.map_eq_some_iff.mp hread
    rw [Value.tableOf_eq, Value.table.injEq] at htable
    -- Each entry was read from an entry, under the key that the text of that one's key spells.
    have hsource : ∀ e ∈ entries, ∃ e' ∈ entries, Key.ofText e'.1.text = e.1 ∧
        lib.value? levels (lib.ofValue e'.2) = some e.2 := by
      intro e he
      have hmem : some e ∈ l.map some :=
        List.mem_map_of_mem (Value.mem_of_mem_tableEntries (htable.symm ▸ he))
      rw [← mapM_eq_some_iff.mp hl] at hmem
      obtain ⟨e', he', hfrom⟩ := List.mem_map.mp hmem
      obtain ⟨v, hv, rfl⟩ := Option.map_eq_some_iff.mp hfrom
      exact ⟨e', he', rfl, hv⟩
    have hkeys : ∀ e ∈ entries, e.1.Returns := by
      intro e he
      obtain ⟨e', -, hkey, -⟩ := hsource e he
      cases hcase : e.1 with
      | index i => exact Key.returns_index i
      | name s => exact Key.returns_ofText (hkey.trans hcase)
    intro e he
    obtain ⟨e', he', hkey, hvalue⟩ := hsource e he
    -- As all keys come back, it was read from itself.
    have hsame : e' = e := List.inj_on_of_nodup_map (List.pairwise_map.mpr h.distinct) he' he
      ((hkeys e' he').symm.trans hkey)
    rw [hsame] at hvalue
    exact ⟨hkeys e he, hvalue⟩
  · intro hreturn
    have hread : (entries.mapM fun e ↦ (lib.value? levels (lib.ofValue e.2)).map fun v ↦
        (Key.ofText e.1.text, v)) = some entries := by
      refine mapM_eq_self_iff.mpr fun e he ↦ ?_
      obtain ⟨hkey, hvalue⟩ := hreturn e he
      rw [hvalue, Option.map_some, hkey]
    rw [hread, Option.map_some, Value.tableOf_of_perm (List.Perm.refl _) h]

/-- A value comes back exactly if its keys do and there is room for its brackets. -/
theorem value?_ofValue_iff (hlib : lib.Lawful) {v : Value} (h : v.Ordered)
    (hkeeps : ∀ x ∈ v.floats, lib.Keeps x) (levels : Nat) :
    lib.value? levels (lib.ofValue v) = some v ↔
      (∀ k ∈ v.keys, k.Returns) ∧ v.brackets ≤ levels := by
  induction h generalizing levels with
  | @single v hv =>
    have hkeys : ∀ k ∈ v.keys, k.Returns := by
      rw [v.keys_of_tag_ne hv]
      exact fun _ hk ↦ (List.not_mem_nil hk).elim
    cases levels with
    | zero =>
      have hbrackets := v.one_le_brackets
      rw [value?_zero]
      exact iff_of_false nofun fun h ↦ by omega
    | succ levels =>
      rw [value?_ofValue_single hlib hv hkeeps]
      exact (and_iff_right hkeys).symm
  | @table entries inOrder _ ih =>
    rw [Value.floats, forall_mem_entryFloats] at hkeeps
    rw [Value.keys, Value.brackets, forall_mem_entryKeys]
    match levels with
    | 0 => exact iff_of_false (by rw [value?_zero]; nofun) fun h ↦ by omega
    | 1 => exact iff_of_false nofun fun h ↦ by omega
    | levels + 2 =>
      rw [value?_ofValue_table, entries?_ofEntries_iff inOrder, Nat.add_le_add_iff_right,
        entryBrackets_le_iff, ← forall₂_and]
      refine forall₂_congr fun e he ↦ ?_
      rw [ih e he (hkeeps e he), and_assoc]

theorem text?_ofText (s : String) : (ofText s).text? = some s := rfl

theorem tag_ofText (levels : Nat) (t : Tag) : Tag.ofJson? levels (ofText t.name) = some t := by
  rw [ofText, Tag.ofJson?, Option.bind_some, Tag.ofName?_name]

section

variable (hlib : lib.Lawful)
include hlib

theorem property?_ofProperty (p : Property) (levels : Nat) :
    lib.property? (levels + 1) (lib.ofProperty p) =
      (lib.value? levels (lib.ofValue p.value)).map fun v ↦ { p with value := v } := by
  obtain ⟨hash, name, value, tag⟩ := p
  have hrecord : record? ["hash", "name", "value", "ty"]
      (lib.ofProperty ⟨hash, name, value, tag⟩) = some [some (lib.ofInt hash.toNat),
        some (name.elim null ofText), some (lib.ofValue value), some (ofText tag.name)] := by
    cases name <;> exact record?_ofFields (by simp)
  rw [property?, enter?, hrecord]
  cases name <;>
    simp only [Option.bind_eq_bind, Option.bind_some, word32?_ofInt hlib, tag_ofText,
      Option.pure_def] <;>
    exact Option.map_eq_bind.symm

theorem section?_ofSection (s : Section) (levels : Nat) :
    lib.section? (levels + 2) (lib.ofSection s) =
      (s.properties.mapM fun p ↦ lib.property? levels (lib.ofProperty p)).map
        fun ps ↦ { s with properties := ps } := by
  obtain ⟨hash, name, properties⟩ := s
  have hrecord : record? ["hash", "name", "properties"] (lib.ofSection ⟨hash, name, properties⟩) =
      some [some (lib.ofInt hash.toNat), some (ofText name),
        some (array (properties.map lib.ofProperty))] := record?_ofFields (by simp)
  rw [section?, enter?, hrecord]
  simp only [enter?, Option.bind_eq_bind, Option.bind_some, word32?_ofInt hlib, text?_ofText,
    items?, List.mapM_map]
  exact Option.map_eq_bind.symm

theorem tree?_ofTree {levels : Nat} (hdepth : lib.depth = levels + 2) (t : Tree) :
    lib.tree? (lib.ofTree t) = (t.sections.mapM fun s ↦ lib.section? levels (lib.ofSection s)).map
      fun sections ↦ { t with sections := sections } := by
  obtain ⟨version, sections⟩ := t
  have hrecord : record? ["version", "sections"] (lib.ofTree ⟨version, sections⟩) =
      some [some (lib.ofInt version.toNat), some (array (sections.map lib.ofSection))] :=
    record?_ofFields (by simp)
  rw [tree?, hdepth, enter?, Option.bind_eq_bind, Option.bind_some, hrecord]
  simp only [enter?, Option.bind_eq_bind, Option.bind_some, byte?_ofInt hlib, items?,
    List.mapM_map]
  exact Option.map_eq_bind.symm

end

theorem map_eq_some_record {α β : Type} {set : β → α} {get : α → β} {a : α} (o : Option β)
    (hset : ∀ b, get (set b) = b) (hget : set (get a) = a) :
    o.map set = some a ↔ o = some (get a) := by
  rw [Option.map_eq_some_iff]
  constructor
  · rintro ⟨b, rfl, rfl⟩
    rw [hset]
  · exact fun h ↦ ⟨_, h, hget⟩

/-- Around a value there are five brackets: of its property, of the properties, of the section, of
the sections and of the tree. -/
theorem tree?_ofTree_iff (hlib : lib.Lawful) {levels : Nat} (hdepth : lib.depth = levels + 5)
    (t : Tree) : lib.tree? (lib.ofTree t) = some t ↔
      ∀ p ∈ t.properties, lib.value? levels (lib.ofValue p.value) = some p.value := by
  have hproperty : ∀ p : Property, lib.property? (levels + 1) (lib.ofProperty p) = some p ↔
      lib.value? levels (lib.ofValue p.value) = some p.value := by
    intro p
    rw [property?_ofProperty hlib]
    exact map_eq_some_record _ (fun _ ↦ rfl) rfl
  have hsection : ∀ s : Section, lib.section? (levels + 3) (lib.ofSection s) = some s ↔
      ∀ p ∈ s.properties, lib.property? (levels + 1) (lib.ofProperty p) = some p := by
    intro s
    rw [section?_ofSection hlib, ← mapM_eq_self_iff]
    exact map_eq_some_record _ (fun _ ↦ rfl) rfl
  have htree : lib.tree? (lib.ofTree t) = some t ↔
      ∀ s ∈ t.sections, lib.section? (levels + 3) (lib.ofSection s) = some s := by
    rw [tree?_ofTree hlib hdepth, ← mapM_eq_self_iff]
    exact map_eq_some_record _ (fun _ ↦ rfl) rfl
  rw [htree, Tree.properties, List.forall_mem_flatMap]
  simp only [hsection, hproperty]

theorem read?_write (hlib : lib.Lawful) {t : Tree} (h : t.Ordered)
    (hfinite : ∀ x ∈ t.floats, x.isFinite = true) (pretty : Bool) :
    lib.read? (lib.write pretty t) = lib.tree? (lib.ofTree t) := by
  rw [read?, write, hlib.parse?_print (built_ofTree h hfinite), Option.bind_some]

end Json.Library

def Tree.holding (v : Value) : Tree :=
  ⟨formatVersion, [⟨0, "A", [⟨1, some "k", v, v.tag⟩]⟩]⟩

theorem Tree.ordered_holding {v : Value} (h : v.Ordered) : (holding v).Ordered :=
  fun _ hp ↦ List.eq_of_mem_singleton hp ▸ h

def mixedValue : Value :=
  .table [(.index (-1), .float ⟨0x3DCCCCCD⟩), (.index 2, .string "\"\\\x01"),
    (.name "[a]", .table []), (.name "b\n", .vec2 ⟨0xC0500000⟩ ⟨0x60AD78EC⟩)]

theorem ordered_mixedValue : mixedValue.Ordered := by
  refine .table (by unfold InOrder; decide) ?_
  simp only [List.forall_mem_cons, List.not_mem_nil, false_implies, implies_true, and_true]
  exact ⟨.single nofun, .single nofun, .table .nil nofun, .single nofun⟩

def twinValue : Value := .table [(.index 1, .bool true), (.name "[1]", .bool false)]

theorem ordered_twinValue : twinValue.Ordered := by
  refine .table (by unfold InOrder; decide) ?_
  simp only [List.forall_mem_cons, List.not_mem_nil, false_implies, implies_true, and_true]
  exact ⟨.single nofun, .single nofun⟩

def Value.nested : Nat → Value
  | 0 => .bool true
  | n + 1 => .table [(.index 1, nested n)]

theorem Value.ordered_nested (n : Nat) : (nested n).Ordered := by
  induction n with
  | zero => exact .single nofun
  | succ n ih => exact .table (List.pairwise_singleton _ _) (List.forall_mem_singleton.mpr ih)

theorem Value.brackets_nested (n : Nat) : (nested n).brackets = 2 * n + 1 := by
  induction n with
  | zero => rfl
  | succ n ih =>
    rw [nested, brackets, entryBrackets, entryBrackets, ih]
    omega

theorem Value.floats_nested (n : Nat) : (nested n).floats = [] := by
  induction n with
  | zero => rfl
  | succ n ih => rw [nested, floats, entryFloats, entryFloats, ih, List.append_nil]

end PropertyFile
