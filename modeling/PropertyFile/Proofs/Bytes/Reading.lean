import Mathlib.Data.List.Forall2
import PropertyFile.Bytes.Scan

namespace PropertyFile

namespace Reader

variable {ε α β : Type}

theorem pure_apply (a : α) (s : List UInt8) : (pure a : Reader ε α) s = .ok (a, s) := rfl

theorem pure_eq_ok {a b : α} {s rest : List UInt8} :
    (pure a : Reader ε α) s = .ok (b, rest) ↔ b = a ∧ rest = s := by
  rw [pure_apply, Except.ok.injEq, Prod.mk.injEq, eq_comm, @eq_comm _ s]

theorem throw_apply (e : ε) (s : List UInt8) : (throw e : Reader ε α) s = .error e := rfl

theorem bind_apply_ok {p : Reader ε α} {s rest : List UInt8} {a : α} (h : p s = .ok (a, rest))
    (f : α → Reader ε β) : (p >>= f) s = f a rest := by
  simp only [bind, StateT.bind, Except.bind, h]

theorem bind_apply_error {p : Reader ε α} {s : List UInt8} {e : ε} (h : p s = .error e)
    (f : α → Reader ε β) : (p >>= f) s = .error e := by
  simp only [bind, StateT.bind, Except.bind, h]

theorem bind_eq_ok {p : Reader ε α} {f : α → Reader ε β} {s : List UInt8} {r : β × List UInt8} :
    (p >>= f) s = .ok r ↔ ∃ a rest, p s = .ok (a, rest) ∧ f a rest = .ok r := by
  constructor
  · intro h
    cases hp : p s with
    | error e =>
      rw [bind_apply_error hp] at h
      cases h
    | ok ar =>
      rw [bind_apply_ok hp] at h
      exact ⟨ar.1, ar.2, rfl, h⟩
  · rintro ⟨a, rest, hp, hf⟩
    rw [bind_apply_ok hp, hf]

theorem map_eq_bind (f : α → β) (p : Reader ε α) : f <$> p = p >>= fun a ↦ pure (f a) :=
  map_eq_pure_bind f p

theorem seq_eq_bind (p : Reader ε (α → β)) (q : Reader ε α) :
    p <*> q = p >>= fun f ↦ q >>= fun a ↦ pure (f a) := by
  rw [seq_eq_bind_map]
  simp only [map_eq_bind]

/-- Reads `used` as `a`, whatever follows. -/
def Reads (p : Reader ε α) (used : List UInt8) (a : α) : Prop :=
  ∀ rest, p (used ++ rest) = .ok (a, rest)

theorem Reads.pure (a : α) : Reads (pure a : Reader ε α) [] a := fun _ ↦ rfl

theorem Reads.bind {p : Reader ε α} {f : α → Reader ε β} {u v : List UInt8} {a : α} {b : β}
    (hp : Reads p u a) (hf : Reads (f a) v b) : Reads (p >>= f) (u ++ v) b := by
  intro rest
  rw [List.append_assoc, bind_apply_ok (hp (v ++ rest)), hf rest]

theorem Reads.bind_pure {p : Reader ε α} {u : List UInt8} {a : α} (hp : Reads p u a)
    (f : α → β) : Reads (p >>= fun a ↦ Pure.pure (f a)) u (f a) := by
  have h := hp.bind (f := fun a ↦ Pure.pure (f a)) (Reads.pure (f a))
  rwa [List.append_nil] at h

theorem Reads.map {p : Reader ε α} {u : List UInt8} {a : α} (hp : Reads p u a) (f : α → β) :
    Reads (f <$> p) u (f a) := by
  rw [map_eq_bind]
  exact hp.bind_pure f

theorem Reads.seq {p : Reader ε (α → β)} {q : Reader ε α} {u v : List UInt8} {f : α → β} {a : α}
    (hp : Reads p u f) (hq : Reads q v a) : Reads (p <*> q) (u ++ v) (f a) := by
  rw [seq_eq_bind]
  refine hp.bind ?_
  rw [← map_eq_bind]
  exact hq.map f

theorem timesFrom_ok {p : Reader ε α} {s rest : List UInt8} {a : α} (h : p s = .ok (a, rest))
    (n : Nat) (done : List α) : timesFrom p (n + 1) done s = timesFrom p n (a :: done) rest := by
  simp only [timesFrom, h]

theorem timesFrom_error {p : Reader ε α} {s : List UInt8} {e : ε} (h : p s = .error e) (n : Nat)
    (done : List α) : timesFrom p (n + 1) done s = .error e := by
  simp only [timesFrom, h]

theorem timesFrom_eq (p : Reader ε α) (n : Nat) (done : List α) (s : List UInt8) :
    timesFrom p n done s = ((done.reverse ++ ·) <$> times n p) s := by
  induction n generalizing done s with
  | zero =>
    show Except.ok (done.reverse, s) = Except.ok (done.reverse ++ [], s)
    rw [List.append_nil]
  | succ n ih =>
    rw [times, map_eq_bind]
    cases hp : p s with
    | error e => rw [timesFrom_error hp, bind_apply_error (timesFrom_error hp n [])]
    | ok r =>
      obtain ⟨a, rest⟩ := r
      have hone := timesFrom_ok hp n []
      rw [timesFrom_ok hp, ih (a :: done), map_eq_bind]
      rw [ih [a], map_eq_bind] at hone
      cases hn : times n p rest with
      | error e =>
        rw [bind_apply_error hn] at hone ⊢
        rw [bind_apply_error hone]
      | ok r =>
        rw [bind_apply_ok hn] at hone ⊢
        rw [bind_apply_ok hone, pure_apply, pure_apply, List.reverse_cons, List.append_assoc]
        rfl

theorem times_succ (p : Reader ε α) (n : Nat) :
    times (n + 1) p = p >>= fun a ↦ (a :: ·) <$> times n p := by
  funext s
  rw [times]
  cases hp : p s with
  | error e => rw [bind_apply_error hp, timesFrom_error hp]
  | ok r =>
    obtain ⟨a, rest⟩ := r
    rw [bind_apply_ok hp, timesFrom_ok hp]
    exact timesFrom_eq p n [a] rest

theorem reads_times {p : Reader ε β} {spell : α → List UInt8} {value : α → β} {l : List α}
    (h : ∀ a ∈ l, Reads p (spell a) (value a)) :
    Reads (times l.length p) (l.flatMap spell) (l.map value) := by
  induction l with
  | nil => exact Reads.pure []
  | cons a l ih =>
    rw [List.length_cons, times_succ, List.flatMap_cons, List.map_cons]
    refine (h a List.mem_cons_self).bind ?_
    exact (ih fun b hb ↦ h b (List.mem_cons_of_mem a hb)).map _

theorem reads_mapM {f : α → Reader ε β} {spell : α → List UInt8} {value : α → β} {l : List α}
    (h : ∀ a ∈ l, Reads (f a) (spell a) (value a)) :
    Reads (l.mapM f) (l.flatMap spell) (l.map value) := by
  induction l with
  | nil =>
    rw [List.mapM_nil]
    exact Reads.pure []
  | cons a l ih =>
    rw [List.mapM_cons, List.flatMap_cons, List.map_cons]
    refine (h a List.mem_cons_self).bind ?_
    rw [← map_eq_bind]
    exact (ih fun b hb ↦ h b (List.mem_cons_of_mem a hb)).map _

def Fails (p : Reader ε α) (used : List UInt8) (e : ε) : Prop :=
  ∀ rest, p (used ++ rest) = .error e

theorem Fails.bind {p : Reader ε α} {u : List UInt8} {e : ε} (hp : Fails p u e)
    (f : α → Reader ε β) (v : List UInt8) : Fails (p >>= f) (u ++ v) e := by
  intro rest
  rw [List.append_assoc, bind_apply_error (hp (v ++ rest))]

theorem Reads.bind_fails {p : Reader ε α} {f : α → Reader ε β} {u v : List UInt8} {a : α} {e : ε}
    (hp : Reads p u a) (hf : Fails (f a) v e) : Fails (p >>= f) (u ++ v) e := by
  intro rest
  rw [List.append_assoc, bind_apply_ok (hp (v ++ rest)), hf rest]

theorem fails_times {p : Reader ε β} {spell : α → List UInt8} {value : α → β} {e : ε} {l : List α}
    (h : ∀ a ∈ l, Reads p (spell a) (value a) ∨ Fails p (spell a) e)
    (hbad : ∃ a ∈ l, Fails p (spell a) e) : Fails (times l.length p) (l.flatMap spell) e := by
  induction l with
  | nil =>
    obtain ⟨a, ha, -⟩ := hbad
    cases ha
  | cons a l ih =>
    obtain ⟨hhead, htail⟩ := List.forall_mem_cons.mp h
    rw [List.length_cons, times_succ, List.flatMap_cons]
    rcases hhead with hread | hfail
    · obtain ⟨b, hb, hbad⟩ := hbad
      rcases List.mem_cons.mp hb with rfl | hb
      · exact hbad.bind _ _
      · refine hread.bind_fails ?_
        rw [map_eq_bind]
        have hrest := (ih htail ⟨b, hb, hbad⟩).bind (fun bs ↦ pure (value a :: bs)) []
        rwa [List.append_nil] at hrest
    · exact hfail.bind _ _

/-- What was read would be read before any other rest too, and a part of it that lacks a byte makes
the reader fail with `e`. -/
def Exact (p : Reader ε α) (e : ε) : Prop :=
  ∀ s a rest, p s = .ok (a, rest) → ∃ used, s = used ++ rest ∧ Reads p used a ∧
    ∀ x y, used = x ++ y → y ≠ [] → p x = .error e

variable {e : ε}

theorem Exact.pure (a : α) : Exact (Pure.pure a : Reader ε α) e := by
  intro s b rest h
  obtain ⟨rfl, rfl⟩ := pure_eq_ok.mp h
  refine ⟨[], rfl, Reads.pure b, fun x y hxy hy ↦ ?_⟩
  exact absurd (List.append_eq_nil_iff.mp hxy.symm).2 hy

theorem Exact.fail (e' : ε) : Exact (throw e' : Reader ε α) e := by
  intro s b rest h
  rw [throw_apply] at h
  cases h

theorem Exact.bind {p : Reader ε α} {f : α → Reader ε β} (hp : Exact p e)
    (hf : ∀ a, Exact (f a) e) : Exact (p >>= f) e := by
  intro s b rest h
  obtain ⟨a, mid, hs, hmid⟩ := bind_eq_ok.mp h
  obtain ⟨u, rfl, hpu, hpe⟩ := hp s a mid hs
  obtain ⟨v, rfl, hfv, hfe⟩ := hf a mid b rest hmid
  refine ⟨u ++ v, (List.append_assoc u v rest).symm, hpu.bind hfv, ?_⟩
  intro x y hxy hy
  -- The cut is in the first part, or in the second one with all of the first before it.
  rcases List.append_eq_append_iff.mp hxy with ⟨w, rfl, hw⟩ | ⟨w, rfl, hw⟩
  · rw [bind_apply_ok (hpu w)]
    exact hfe w y hw hy
  · cases w with
    | nil =>
      have hx := hpu []
      rw [List.append_nil, List.append_nil] at hx
      rw [bind_apply_ok hx]
      exact hfe [] y hw.symm hy
    | cons c w =>
      exact bind_apply_error (hpe x (c :: w) rfl (List.cons_ne_nil c w)) f

theorem Exact.map {p : Reader ε α} (hp : Exact p e) (f : α → β) : Exact (f <$> p) e := by
  rw [map_eq_bind]
  exact hp.bind fun a ↦ Exact.pure (f a)

theorem Exact.seq {p : Reader ε (α → β)} {q : Reader ε α} (hp : Exact p e) (hq : Exact q e) :
    Exact (p <*> q) e := by
  rw [seq_eq_bind]
  exact hp.bind fun f ↦ hq.bind fun a ↦ Exact.pure (f a)

theorem Exact.times {p : Reader ε α} (hp : Exact p e) (n : Nat) : Exact (times n p) e := by
  induction n with
  | zero => exact Exact.pure []
  | succ n ih =>
    rw [times_succ]
    exact hp.bind fun a ↦ ih.map _

theorem Exact.mapM {f : α → Reader ε β} (hf : ∀ a, Exact (f a) e) (l : List α) :
    Exact (l.mapM f) e := by
  induction l with
  | nil =>
    rw [List.mapM_nil]
    exact Exact.pure []
  | cons a l ih =>
    rw [List.mapM_cons]
    exact (hf a).bind fun b ↦ ih.bind fun bs ↦ Exact.pure (b :: bs)

theorem Exact.cut_short {p : Reader ε α} (hp : Exact p e) {s x y : List UInt8} {a : α}
    (h : p s = .ok (a, [])) (hs : s = x ++ y) (hy : y ≠ []) : p x = .error e := by
  obtain ⟨used, hu, -, hf⟩ := hp s a [] h
  rw [List.append_nil] at hu
  exact hf x y (hu ▸ hs) hy

def Yields (p : Reader ε α) (good : α → Prop) : Prop := ∀ s a rest, p s = .ok (a, rest) → good a

theorem Yields.mono {p : Reader ε α} {P Q : α → Prop} (h : Yields p P) (hPQ : ∀ a, P a → Q a) :
    Yields p Q :=
  fun s a rest hp ↦ hPQ a (h s a rest hp)

theorem yields_any (p : Reader ε α) : Yields p fun _ ↦ True := fun _ _ _ _ ↦ trivial

theorem yields_pure {a : α} {P : α → Prop} (h : P a) : Yields (pure a : Reader ε α) P := by
  intro s b rest hb
  obtain ⟨rfl, -⟩ := pure_eq_ok.mp hb
  exact h

theorem yields_throw (e : ε) (P : α → Prop) : Yields (throw e : Reader ε α) P := by
  intro s b rest hb
  cases hb

theorem Yields.bind {p : Reader ε α} {f : α → Reader ε β} {P : α → Prop} {Q : β → Prop}
    (hp : Yields p P) (hf : ∀ a, P a → Yields (f a) Q) : Yields (p >>= f) Q := by
  intro s b rest hb
  obtain ⟨a, rest', hps, hb⟩ := bind_eq_ok.mp hb
  exact hf a (hp s a rest' hps) rest' b rest hb

theorem Yields.map {p : Reader ε α} {P : α → Prop} (hp : Yields p P) (f : α → β) :
    Yields (f <$> p) fun b ↦ ∃ a, P a ∧ b = f a := by
  rw [map_eq_bind]
  exact hp.bind fun a ha ↦ yields_pure ⟨a, ha, rfl⟩

theorem Yields.seq {p : Reader ε (α → β)} {q : Reader ε α} {P : (α → β) → Prop} {Q : α → Prop}
    (hp : Yields p P) (hq : Yields q Q) :
    Yields (p <*> q) fun b ↦ ∃ f a, P f ∧ Q a ∧ b = f a := by
  rw [seq_eq_bind]
  exact hp.bind fun f hf ↦ hq.bind fun a ha ↦ yields_pure ⟨f, a, hf, ha, rfl⟩

theorem Yields.times {p : Reader ε α} {P : α → Prop} (hp : Yields p P) (n : Nat) :
    Yields (times n p) fun as ↦ as.length = n ∧ ∀ a ∈ as, P a := by
  induction n with
  | zero => exact yields_pure ⟨rfl, List.forall_mem_nil P⟩
  | succ n ih =>
    rw [times_succ]
    refine hp.bind fun a ha ↦ (ih.map _).mono ?_
    rintro _ ⟨as, ⟨rfl, has⟩, rfl⟩
    exact ⟨rfl, List.forall_mem_cons.mpr ⟨ha, has⟩⟩

theorem Yields.mapM {f : α → Reader ε β} {R : α → β → Prop} (hf : ∀ a, Yields (f a) (R a))
    (l : List α) : Yields (l.mapM f) fun bs ↦ List.Forall₂ R l bs := by
  induction l with
  | nil => exact yields_pure .nil
  | cons a l ih =>
    rw [List.mapM_cons]
    exact (hf a).bind fun b hb ↦ ih.bind fun bs hbs ↦ yields_pure (.cons hb hbs)

end Reader

namespace Scan

open Reader

variable {ε α : Type}

theorem reads_take (front : List UInt8) : Reads (take front.length) front front := by
  intro rest
  simp only [take, List.take_left, List.drop_left, if_pos]

theorem take_eq (n : Nat) (s : List UInt8) :
    take n s = if n ≤ s.length then .ok (s.take n, s.drop n) else .error .outOfBytes := by
  have hl : (s.take n).length = n ↔ n ≤ s.length := by
    rw [List.length_take]
    omega
  simp only [take, hl]

theorem exact_take (n : Nat) : Exact (take n) .outOfBytes := by
  intro s a rest h
  rw [take_eq] at h
  split at h
  · next hn =>
    injection h with h
    obtain ⟨rfl, rfl⟩ := Prod.mk.inj h
    have hlen : (s.take n).length = n := by
      rw [List.length_take]
      omega
    refine ⟨s.take n, (List.take_append_drop n s).symm, ?_, ?_⟩
    · have hr := reads_take (s.take n)
      rwa [hlen] at hr
    · intro x y hxy hy
      have hl := congrArg List.length hxy
      rw [List.length_append, hlen] at hl
      have hpos := List.length_pos_iff.mpr hy
      rw [take_eq, if_neg (by omega)]
  · cases h

theorem reads_byte (b : UInt8) : Reads byte [b] b := fun _ ↦ rfl

theorem exact_byte : Exact byte .outOfBytes := by
  intro s a rest h
  cases s with
  | nil => cases h
  | cons b s =>
    injection h with h
    obtain ⟨rfl, rfl⟩ := Prod.mk.inj h
    refine ⟨[b], rfl, reads_byte b, fun x y hxy hy ↦ ?_⟩
    cases x with
    | nil => rfl
    | cons c x =>
      have htail := (List.cons.inj hxy).2
      exact absurd (List.append_eq_nil_iff.mp htail.symm).2 hy

theorem reads_nat {width n : Nat} (h : n < Nat.pow 256 width) :
    Reads (nat width) (leBytes width n) n := by
  have ht := reads_take (leBytes width n)
  rw [length_leBytes] at ht
  have hm := Reads.map ht leNat
  rwa [leNat_leBytes, Nat.mod_eq_of_lt h] at hm

theorem exact_nat (width : Nat) : Exact (nat width) .outOfBytes := (exact_take width).map leNat

theorem reads_word16 (w : UInt16) : Reads word16 (leBytes 2 w.toNat) w := by
  have hw : w.toNat < Nat.pow 256 2 := w.toNat_lt
  have h := (reads_nat hw).map UInt16.ofNat
  rwa [UInt16.ofNat_toNat] at h

theorem reads_word32 (w : UInt32) : Reads word32 (leBytes 4 w.toNat) w := by
  have hw : w.toNat < Nat.pow 256 4 := w.toNat_lt
  have h := (reads_nat hw).map UInt32.ofNat
  rwa [UInt32.ofNat_toNat] at h

theorem exact_word16 : Exact word16 .outOfBytes := (exact_nat 2).map _

theorem exact_word32 : Exact word32 .outOfBytes := (exact_nat 4).map _

theorem reads_orFail {p : Scan α} {used : List UInt8} {a : α} (h : Reads p used a) (e : ε) :
    Reads (p.orFail e) used a := by
  intro rest
  simp only [orFail, h rest]

theorem exact_orFail {p : Scan α} (h : Exact p .outOfBytes) (e : ε) : Exact (p.orFail e) e := by
  intro s a rest hs
  simp only [orFail] at hs
  split at hs
  · next r hr =>
    injection hs with hs
    subst hs
    obtain ⟨used, hu, hreads, hfail⟩ := h s a rest hr
    refine ⟨used, hu, reads_orFail hreads e, fun x y hxy hy ↦ ?_⟩
    simp only [orFail, hfail x y hxy hy]
  · cases hs

theorem yields_orFail {p : Scan α} {P : α → Prop} (h : Reader.Yields p P) (e : ε) :
    Reader.Yields (p.orFail e) P := by
  intro s a rest ha
  cases hp : p s with
  | error e =>
    simp only [orFail, hp] at ha
    cases ha
  | ok r =>
    simp only [orFail, hp] at ha
    injection ha with ha
    exact h s a rest (hp.trans (congrArg Except.ok ha))

theorem orFail_eq_ok {p : Scan α} {e : ε} {s : List UInt8} {r : α × List UInt8} :
    p.orFail e s = .ok r ↔ p s = .ok r := by
  cases hp : p s <;> simp [orFail, hp]

theorem take_eq_ok {n : Nat} {s rest bytes : List UInt8} (h : take n s = .ok (bytes, rest)) :
    s = bytes ++ rest ∧ bytes.length = n := by
  rw [take_eq] at h
  split at h
  · next hle =>
    injection h with h
    obtain ⟨rfl, rfl⟩ := Prod.mk.inj h
    exact ⟨(List.take_append_drop n s).symm, List.length_take_of_le hle⟩
  · cases h

theorem leNat_lt (bytes : List UInt8) : leNat bytes < Nat.pow 256 bytes.length := by
  induction bytes with
  | nil => exact Nat.one_pos
  | cons b bytes ih =>
    have hb := b.toNat_lt
    simp only [leNat, List.foldr_cons, List.length_cons, Nat.pow_eq, Nat.pow_succ] at ih ⊢
    omega

theorem leBytes_leNat (bytes : List UInt8) : leBytes bytes.length (leNat bytes) = bytes := by
  induction bytes with
  | nil => rfl
  | cons b bytes ih =>
    have hb := b.toNat_lt
    have hhead : UInt8.ofNat (b.toNat + 256 * leNat bytes) = b := by
      rw [← UInt8.toNat_inj, UInt8.toNat_ofNat']
      omega
    have htail : (b.toNat + 256 * leNat bytes) / 256 = leNat bytes := by omega
    show UInt8.ofNat (b.toNat + 256 * leNat bytes) ::
      leBytes bytes.length ((b.toNat + 256 * leNat bytes) / 256) = b :: bytes
    rw [hhead, htail, ih]

theorem nat_eq_ok {width n : Nat} {s rest : List UInt8} (h : nat width s = .ok (n, rest)) :
    s = leBytes width n ++ rest ∧ n < Nat.pow 256 width := by
  rw [nat, map_eq_bind, bind_eq_ok] at h
  obtain ⟨bytes, mid, htake, h⟩ := h
  rw [pure_apply] at h
  injection h with h
  obtain ⟨rfl, rfl⟩ := Prod.mk.inj h
  obtain ⟨rfl, rfl⟩ := take_eq_ok htake
  exact ⟨by rw [leBytes_leNat], leNat_lt bytes⟩

theorem yields_nat (width : Nat) : Reader.Yields (nat width) (· < Nat.pow 256 width) :=
  fun _ _ _ h ↦ (nat_eq_ok h).2

end Scan

end PropertyFile
