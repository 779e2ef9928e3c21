import PropertyFile.Document
import PropertyFile.Proofs.Inibin.Refusal

namespace PropertyFile

namespace Storage

variable {s : Storage} {place other : List String} {path : String}

theorem find?_put (s : Storage) (place : List String) (node : Node) (other : List String) :
    (s.put place node).nodes.find? (·.1 = other) =
      if other = place then some (place, node) else s.nodes.find? (·.1 = other) := by
  rw [put]
  split
  · next hany =>
    have hmap : ((fun n : List String × Node ↦ decide (n.1 = other)) ∘
        fun n ↦ if n.1 = place then (place, node) else n) = fun n ↦ decide (n.1 = other) := by
      funext n
      rw [Function.comp_apply]
      split
      · next hn => rw [hn]
      · rfl
    rw [List.find?_map, hmap]
    by_cases ho : other = place
    · subst ho
      rw [← List.isSome_find?] at hany
      obtain ⟨n, hn⟩ := Option.isSome_iff_exists.mp hany
      have hplace := List.find?_some hn
      rw [hn, Option.map_some, if_pos (of_decide_eq_true hplace), if_pos rfl]
    · rw [if_neg ho]
      cases hn : s.nodes.find? (·.1 = other) with
      | none => rfl
      | some n =>
        have hother := List.find?_some hn
        rw [Option.map_some, if_neg fun h ↦ ho ((of_decide_eq_true hother).symm.trans h)]
  · next hany =>
    rw [← List.isSome_find?, Option.not_isSome_iff_eq_none] at hany
    rw [List.find?_append]
    by_cases ho : other = place
    · subst ho
      rw [hany, if_pos rfl, Option.none_or]
      exact List.find?_cons_of_pos (decide_eq_true rfl)
    · rw [if_neg ho, List.find?_cons_of_neg (by simpa using fun h ↦ ho h.symm), List.find?_nil,
        Option.or_none]

theorem node?_put_of_ne (h : other ≠ place) (node : Node) :
    (s.put place node).node? other = s.node? other := by
  rw [node?, node?, find?_put, if_neg h]

theorem node?_put_self (h : s.node? place ≠ some .folder) (node : Node) :
    (s.put place node).node? place = some node := by
  rw [node?] at h
  split at h
  · exact absurd rfl h
  · next hplace => rw [node?, if_neg hplace, find?_put, if_pos rfl, Option.map_some]

theorem node?_put_folder (h : s.node? place ≠ some .folder) (node : Node)
    (hfolder : s.node? other = some .folder) : (s.put place node).node? other = some .folder := by
  have hne : other ≠ place := fun heq ↦ h (heq ▸ hfolder)
  rw [node?_put_of_ne hne, hfolder]

theorem walk_of_folders {s' : Storage}
    (h : ∀ p, s.node? p = some .folder → s'.node? p = some .folder) {names : List String}
    {start stop : List String} (hwalk : s.walk start names = .ok stop) :
    s'.walk start names = .ok stop := by
  fun_induction walk s start names with
  | case1 start => exact hwalk
  | case2 start rest ih =>
    rw [walk, if_pos rfl]
    exact ih hwalk
  | case3 start rest hdot ih =>
    rw [walk, if_neg hdot, if_pos rfl]
    exact ih hwalk
  | case4 start name rest hdot hup hlong => cases hwalk
  | case5 start name rest hdot hup hlong place hlast =>
    rw [walk, if_neg hdot, if_neg hup, if_neg hlong]
    exact (if_pos hlast).trans hwalk
  | case6 start name rest hdot hup hlong place hlast hfolder ih =>
    rw [walk, if_neg hdot, if_neg hup, if_neg hlong]
    have hfolder' : s'.node? (start ++ [name]) = some .folder := h _ hfolder
    simp only [hlast, Bool.false_eq_true, if_false, hfolder']
    exact ih hwalk
  | case7 start name rest hdot hup hlong place hlast bytes hfile => cases hwalk
  | case8 start name rest hdot hup hlong place hlast hnone => cases hwalk

theorem locate_put (h : s.node? place ≠ some .folder) (node : Node) {names : List String}
    {stop : List String} (hlocate : s.locate path names = .ok stop) :
    (s.put place node).locate path names = .ok stop := by
  have hwalk : ∀ start, s.walk start names = .ok stop →
      (s.put place node).walk start names = .ok stop := fun start ↦
    walk_of_folders fun p ↦ node?_put_folder h node
  rw [locate] at hlocate ⊢
  split at hlocate
  · cases hlocate
  · next hzero =>
    rw [if_neg hzero]
    split at hlocate
    · cases hlocate
    · next hlong =>
      rw [if_neg hlong]
      split at hlocate
      · cases hlocate
      · exact hwalk _ hlocate
      · exact hwalk _ hlocate

theorem writable_eq_ok_iff : s.writable path = .ok place ↔ endsInSlash path = false ∧
    s.locate path (names path) = .ok place ∧ s.node? place ≠ some .folder := by
  rw [writable]
  cases hslash : endsInSlash path with
  | true =>
    rw [if_pos rfl]
    cases s.locate path ((names path).dropLast ++ ["."]) <;> simp [bind, Except.bind, throw]
  | false =>
    rw [if_neg Bool.false_ne_true]
    cases hlocate : s.locate path (names path) with
    | error cause => simp [bind, Except.bind]
    | ok q =>
      by_cases hfolder : s.node? q = some .folder
      · simp only [bind, Except.bind, throw, throwThe, MonadExceptOf.throw, if_pos hfolder,
          reduceCtorEq, true_and, false_iff, not_and, not_not]
        rintro ⟨⟩
        exact hfolder
      · simp only [bind, Except.bind, pure, Except.pure, if_neg hfolder, true_and]
        constructor
        · rintro ⟨⟩
          exact ⟨rfl, hfolder⟩
        · rintro ⟨h, -⟩
          exact h

theorem read_put (h : s.writable path = .ok place) (bytes : List UInt8) :
    (s.put place (.file bytes)).read path = .ok bytes := by
  obtain ⟨hslash, hlocate, hfolder⟩ := writable_eq_ok_iff.mp h
  rw [read, hslash, if_neg Bool.false_ne_true, List.append_nil, locate_put hfolder _ hlocate]
  simp only [bind, Except.bind, node?_put_self hfolder]

end Storage

namespace Inibin

theorem layOutFrom_ne_tooMany {size : Nat} {done : List Entry} {ps : List Property}
    {e : EncodeError} (h : layOutFrom size done ps = .error e) (n : Nat) (tag : Tag) :
    e ≠ .tooMany n tag := by
  rcases layOutFrom_eq_error h with ⟨before, p, -, -, rfl⟩ | ⟨rfl, -⟩
  · rw [misfit]
    split <;> exact EncodeError.noConfusion
  · exact EncodeError.noConfusion

/-- Only the count of a block is looked at after the first byte is written. -/
theorem write_bytes_eq_nil_iff {t : Tree} {e : EncodeError} (h : (write t).failure = some e) :
    (write t).bytes = [] ↔ ∀ n tag, e ≠ .tooMany n tag := by
  rw [write] at h ⊢
  split at h
  · next hv =>
    rw [if_pos hv]
    cases h
    exact iff_of_true rfl fun _ _ ↦ EncodeError.noConfusion
  · next hv =>
    rw [if_neg hv]
    dsimp only at h ⊢
    cases hl : layOut t.properties with
    | error fault =>
      rw [hl] at h
      cases h
      exact iff_of_true rfl (layOutFrom_ne_tooMany hl)
    | ok entries =>
      rw [hl] at h
      refine iff_of_false (List.cons_ne_nil _ _) fun hne ↦ ?_
      rcases List.mem_append.mp (mem_of_ofPieces_failure h) with hmem | hmem
      · rcases List.mem_cons.mp hmem with hmem | hmem
        · cases hmem
        · obtain ⟨b, -, hb⟩ := List.mem_map.mp hmem
          exact hne _ _ (blockBytes_eq_error hb).2
      · cases List.mem_singleton.mp hmem

end Inibin

namespace Document

variable {d : Document} {s : Storage} {path : String} {place : List String} {e : Error}

theorem toBytes_eq_ok {bytes : List UInt8} (h : d.toBytes = .ok bytes) :
    d.written = (bytes, none) := by
  rw [toBytes] at h
  split at h
  · next hw =>
    cases h
    exact hw
  · cases h

theorem toBytes_eq_error (h : d.toBytes = .error e) : d.written.2 = some e := by
  rw [toBytes] at h
  split at h
  · cases h
  · next hw =>
    cases h
    rw [hw]

theorem toBytes_ne_access (h : d.toBytes = .error e) (cause : Cause) : e ≠ .access cause := by
  have hw := toBytes_eq_error h
  rintro rfl
  rw [written] at hw
  split at hw
  · obtain ⟨fault, -, hfault⟩ := Option.map_eq_some_iff.mp hw
    cases hfault
  · obtain ⟨fault, -, hfault⟩ := Option.map_eq_some_iff.mp hw
    cases hfault
  · split at hw <;> cases hw

/-- A document that cannot be encoded is written up to the count of the block that is too long;
nothing is written before any other failure. -/
theorem written_eq_nil_iff (h : d.toBytes = .error e) :
    d.written.1 = [] ↔ ∀ n tag, e ≠ .inibinEncode (.tooMany n tag) := by
  have inibin : ∀ fault, (Inibin.write d.tree).failure = some fault → .inibinEncode fault = e →
      ((Inibin.write d.tree).bytes = [] ↔ ∀ n tag, e ≠ .inibinEncode (.tooMany n tag)) := by
    rintro fault hfault rfl
    rw [Inibin.write_bytes_eq_nil_iff hfault]
    exact forall₂_congr fun n tag ↦ not_congr (Error.inibinEncode.injEq _ _).to_iff.symm
  have hw := toBytes_eq_error h
  rw [written] at hw ⊢
  split at hw
  · obtain ⟨fault, hfault, he⟩ := Option.map_eq_some_iff.mp hw
    exact inibin fault hfault he
  · obtain ⟨fault, hfault, he⟩ := Option.map_eq_some_iff.mp hw
    exact inibin fault hfault he
  · split at hw <;> cases hw
    exact iff_of_true rfl fun _ _ ↦ Error.noConfusion

theorem save_of_not_writable {cause : Cause} (h : s.writable path = .error cause) :
    d.save s path = (s, .error (.access cause)) := by
  rw [save, h]

theorem save_fst (h : s.writable path = .ok place) :
    (d.save s path).1 = s.put place (.file d.written.1) := by
  rw [save, h]

theorem save_snd (h : s.writable path = .ok place) :
    (d.save s path).2 = d.toBytes.map fun _ ↦ () := by
  rw [save, h, toBytes]
  cases d.written with
  | mk bytes failure => cases failure <;> rfl

theorem read_save (h : s.writable path = .ok place) :
    (d.save s path).1.read path = .ok d.written.1 := by
  rw [save_fst h, Storage.read_put h]

theorem failed_save_keeps_iff (h : d.toBytes = .error e) :
    ((d.save s path).2 = .error e ∧ (d.save s path).1.read path = s.read path) ↔
      (∃ place, s.writable path = .ok place) ∧ s.read path = .ok d.written.1 := by
  cases hw : s.writable path with
  | error cause =>
    rw [save_of_not_writable hw]
    constructor
    · rintro ⟨he, -⟩
      exact absurd (Except.error.inj he).symm (toBytes_ne_access h cause)
    · rintro ⟨⟨place, hplace⟩, -⟩
      cases hplace
  | ok place =>
    rw [save_snd hw, read_save hw, h]
    constructor
    · rintro ⟨-, hread⟩
      exact ⟨⟨place, rfl⟩, hread.symm⟩
    · rintro ⟨-, hread⟩
      exact ⟨rfl, hread.symm⟩

/-- What saving does to the file and to every other one. A document that can be encoded is in the
file afterwards. One that cannot be encoded leaves the file as it was exactly if that file could be
written and held the bytes before the failure: none, or those before the block that is too long. -/
theorem save_keeps_iff (d : Document) (s : Storage) (path : String) :
    (∀ cause, s.writable path = .error cause → d.save s path = (s, .error (.access cause))) ∧
    (∀ place, s.writable path = .ok place →
      (d.save s path).2 = d.toBytes.map (fun _ ↦ ()) ∧
      (d.save s path).1.read path = .ok d.written.1 ∧
      ∀ other, other ≠ place → (d.save s path).1.node? other = s.node? other) ∧
    (∀ bytes, d.toBytes = .ok bytes → d.written.1 = bytes) ∧
    ∀ e, d.toBytes = .error e →
      (d.written.1 = [] ↔ ∀ n tag, e ≠ .inibinEncode (.tooMany n tag)) ∧
      (((d.save s path).2 = .error e ∧ (d.save s path).1.read path = s.read path) ↔
        (∃ place, s.writable path = .ok place) ∧ s.read path = .ok d.written.1) := by
  refine ⟨fun cause h ↦ save_of_not_writable h, fun place h ↦ ⟨save_snd h, read_save h, ?_⟩,
    fun bytes h ↦ ?_, fun e h ↦ ⟨written_eq_nil_iff h, failed_save_keeps_iff h⟩⟩
  · intro other hother
    rw [save_fst h, Storage.node?_put_of_ne hother]
  · rw [toBytes_eq_ok h]

def blocklessTree : Tree := ⟨formatVersion, [⟨0, "A", [⟨1, some "k", .table [], .table⟩]⟩]⟩

def oneFile (bytes : List UInt8) : Storage := ⟨[(["a.inibin"], .file bytes)]⟩

theorem blocklessTree_keeps_empty :
    (ofTree .inibin blocklessTree).toBytes = .error (.inibinEncode (.noBlock 1 .table)) ∧
      (((ofTree .inibin blocklessTree).save (oneFile []) "a.inibin").2 =
          .error (.inibinEncode (.noBlock 1 .table)) ∧
        ((ofTree .inibin blocklessTree).save (oneFile []) "a.inibin").1.read "a.inibin" =
          (oneFile []).read "a.inibin") := by
  have hbytes : (ofTree .inibin blocklessTree).toBytes =
      .error (.inibinEncode (.noBlock 1 .table)) := by decide
  have hread : (oneFile []).read "a.inibin" = .ok [] := by decide
  have hplace : (oneFile []).writable "a.inibin" = .ok ["a.inibin"] := by decide
  exact ⟨hbytes, ((save_keeps_iff (ofTree .inibin blocklessTree) (oneFile []) "a.inibin").2.2.2 _
    hbytes).2.mpr ⟨⟨_, hplace⟩, hread⟩⟩

/-- A file with an empty tree in it is empty after a save that fails. -/
theorem blocklessTree_empties_file :
    (ofTree .inibin blocklessTree).toBytes = .error (.inibinEncode (.noBlock 1 .table)) ∧
      (oneFile [2, 0, 0, 0, 0]).read "a.inibin" = .ok [2, 0, 0, 0, 0] ∧
      ((ofTree .inibin blocklessTree).save (oneFile [2, 0, 0, 0, 0]) "a.inibin").2 =
        .error (.inibinEncode (.noBlock 1 .table)) ∧
      ((ofTree .inibin blocklessTree).save (oneFile [2, 0, 0, 0, 0]) "a.inibin").1.read "a.inibin" =
        .ok [] := by
  decide

end Document

end PropertyFile
