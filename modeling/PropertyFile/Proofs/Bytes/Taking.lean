import PropertyFile.Proofs.Bytes.Reading

namespace PropertyFile

open Reader

def wordAt (s : List UInt8) (i : Nat) : Nat := leNat ((s.drop i).take 2)

theorem wordAt_drop (s : List UInt8) (i j : Nat) : wordAt (s.drop i) j = wordAt s (i + j) := by
  rw [wordAt, wordAt, List.drop_drop]

namespace Scan

variable {α β : Type} {p : Scan α} {s : List UInt8} {v w : Nat}

/-- The scan takes the first `w` of these bytes, or there are fewer and it fails. -/
def Takes (p : Scan α) (s : List UInt8) (w : Nat) : Prop :=
  (s.length < w ∧ p s = .error .outOfBytes) ∨ (w ≤ s.length ∧ ∃ a, p s = .ok (a, s.drop w))

theorem Takes.eq_error (h : Takes p s w) (hlt : s.length < w) : p s = .error .outOfBytes := by
  rcases h with ⟨-, h⟩ | ⟨hle, -⟩
  · exact h
  · omega

theorem Takes.eq_ok (h : Takes p s w) (hle : w ≤ s.length) : ∃ a, p s = .ok (a, s.drop w) := by
  rcases h with ⟨hlt, -⟩ | ⟨-, h⟩
  · omega
  · exact h

theorem Takes.rest_eq (h : Takes p s w) {a : α} {rest : List UInt8} (ha : p s = .ok (a, rest)) :
    rest = s.drop w := by
  rcases h with ⟨-, herror⟩ | ⟨-, a', hok⟩
  · rw [herror] at ha
    cases ha
  · rw [hok] at ha
    exact (Prod.mk.inj (Except.ok.inj ha)).2.symm

theorem takes_pure (a : α) (s : List UInt8) : Takes (pure a) s 0 := .inr ⟨Nat.zero_le _, a, rfl⟩

theorem takes_take (n : Nat) (s : List UInt8) : Takes (take n) s n := by
  rw [Takes, take_eq]
  by_cases hn : n ≤ s.length
  · rw [if_pos hn]
    exact .inr ⟨hn, _, rfl⟩
  · rw [if_neg hn]
    exact .inl ⟨Nat.not_le.mp hn, rfl⟩

theorem takes_byte (s : List UInt8) : Takes byte s 1 := by
  cases s with
  | nil => exact .inl ⟨Nat.one_pos, rfl⟩
  | cons b s => exact .inr ⟨Nat.succ_pos _, b, rfl⟩

theorem Takes.bind {f : α → Scan β} (hp : Takes p s v)
    (hf : ∀ a, p s = .ok (a, s.drop v) → Takes (f a) (s.drop v) w) : Takes (p >>= f) s (v + w) := by
  rcases hp with ⟨hlt, herror⟩ | ⟨hle, a, hok⟩
  · exact .inl ⟨by omega, bind_apply_error herror f⟩
  · have hrest := hf a hok
    rw [Takes, List.length_drop, List.drop_drop, ← bind_apply_ok hok f] at hrest
    rcases hrest with ⟨hlt, herror⟩ | ⟨hle', hok'⟩
    · exact .inl ⟨by omega, herror⟩
    · exact .inr ⟨by omega, hok'⟩

theorem Takes.map (hp : Takes p s w) (f : α → β) : Takes (f <$> p) s w := by
  rw [map_eq_bind]
  exact hp.bind fun a _ ↦ takes_pure (f a) _

theorem Takes.seq {p : Scan (α → β)} {q : Scan α} (hp : Takes p s v) (hq : ∀ s, Takes q s w) :
    Takes (p <*> q) s (v + w) := by
  rw [seq_eq_bind]
  exact hp.bind fun f _ ↦ (hq _).bind fun a _ ↦ takes_pure (f a) _

theorem Takes.times (hp : ∀ s, Takes p s w) (n : Nat) (s : List UInt8) :
    Takes (times n p) s (n * w) := by
  induction n generalizing s with
  | zero =>
    rw [Nat.zero_mul]
    exact takes_pure [] s
  | succ n ih =>
    rw [times_succ, Nat.succ_mul, Nat.add_comm]
    exact (hp s).bind fun a _ ↦ (ih _).map _

theorem takes_nat (width : Nat) (s : List UInt8) : Takes (nat width) s width :=
  (takes_take width s).map leNat

theorem takes_word16 (s : List UInt8) : Takes word16 s 2 := (takes_nat 2 s).map _

theorem takes_word32 (s : List UInt8) : Takes word32 s 4 := (takes_nat 4 s).map _

theorem nat_eq_wordAt {n : Nat} {rest : List UInt8} (h : nat 2 s = .ok (n, rest)) :
    n = wordAt s 0 ∧ rest = s.drop 2 := by
  rw [nat, map_eq_bind, bind_eq_ok] at h
  obtain ⟨bytes, mid, htake, h⟩ := h
  obtain ⟨rfl, rfl⟩ := pure_eq_ok.mp h
  obtain ⟨rfl, hlen⟩ := take_eq_ok htake
  rw [wordAt, List.drop_zero, List.take_left' hlen, List.drop_left' hlen]
  exact ⟨rfl, rfl⟩

theorem times_nat_eq {n : Nat} {l : List Nat} {rest : List UInt8}
    (h : times n (nat 2) s = .ok (l, rest)) : l = (List.range n).map fun k ↦ wordAt s (2 * k) := by
  induction n generalizing s l rest with
  | zero => exact (pure_eq_ok.mp h).1
  | succ n ih =>
    rw [times_succ, bind_eq_ok] at h
    obtain ⟨m, mid, hm, h⟩ := h
    rw [map_eq_bind, bind_eq_ok] at h
    obtain ⟨tail, mid', htail, h⟩ := h
    obtain ⟨rfl, -⟩ := pure_eq_ok.mp h
    obtain ⟨rfl, rfl⟩ := nat_eq_wordAt hm
    rw [ih htail, List.range_succ_eq_map, List.map_cons, List.map_map]
    refine congrArg₂ List.cons rfl (List.map_congr_left fun k _ ↦ ?_)
    rw [wordAt_drop, Function.comp_apply, Nat.mul_succ, Nat.add_comm]

theorem orFail_of_error {ε : Type} (h : p s = .error .outOfBytes) (e : ε) :
    p.orFail e s = .error e := by
  simp only [orFail, h]

theorem reads_of_exact {ε : Type} {p : Reader ε α} {e : ε} {a : α} (hp : Exact p e)
    (h : p s = .ok (a, s.drop w)) : Reads p (s.take w) a := by
  obtain ⟨used, hs, hreads, -⟩ := hp s a _ h
  have hused : used = s.take w :=
    List.append_cancel_right (hs.symm.trans (List.take_append_drop w s).symm)
  rwa [← hused]

end Scan

end PropertyFile
