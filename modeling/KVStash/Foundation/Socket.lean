/- GID: KVStash/Foundation/Socket
   digest: Reading from a socket whose environment cuts the stream into receives as it likes, or
     fails. -/

import KVStash.Foundation.Bytes

set_option autoImplicit false

namespace KVStash.Foundation.Socket

open List

/-- A socket as its reader sees it: the bytes not yet received, and how often the environment was
asked. -/
structure Sock where
  stream : List UInt8
  tick : ℕ

/-- What the environment decides. A receive fails (an error, or a timeout), or gives at most one
byte more than `grant` says and at least one if there is any; `late` is whether a deadline has
passed. -/
structure Kernel where
  grant : ℕ → Option ℕ
  late : ℕ → Bool

variable (K : Kernel)

/-- Fill a buffer of `need` more bytes; each receive may run on into a second buffer of `ahead`
bytes. The result is what filled the first buffer, and what landed in the second. -/
def recvLoop (ahead : ℕ) (need : ℕ) (got : List UInt8) (k : Sock) :
    Option (List UInt8 × List UInt8) × Sock :=
  if need = 0 then (some (got, []), k)
  else
    match K.grant k.tick with
    | none => (none, ⟨k.stream, k.tick + 1⟩)
    | some c =>
      let r := min (c + 1) (min (need + ahead) k.stream.length)
      let k' : Sock := ⟨k.stream.drop r, k.tick + 1⟩
      if r = 0 then (none, k')
      else if need < r then (some (got ++ k.stream.take need, (k.stream.take r).drop need), k')
      else recvLoop ahead (need - r) (got ++ k.stream.take r) k'
termination_by need

/-- Fill a buffer of `n` bytes, with room for `ahead` more. -/
def recvAhead (n ahead : ℕ) (k : Sock) : Option (List UInt8 × List UInt8) × Sock :=
  recvLoop K ahead n [] k

def recvInto (n : ℕ) (k : Sock) : Option (List UInt8) × Sock :=
  match recvAhead K n 0 k with
  | (none, k') => (none, k')
  | (some (got, _), k') => (some got, k')

/-- Receive `n` bytes in pieces of at most `chunk`. -/
def drainLoop (chunk : ℕ) (remaining : ℕ) (got : List UInt8) (k : Sock) :
    Option (List UInt8) × Sock :=
  if _h : remaining = 0 ∨ chunk = 0 then (some got, k)
  else
    match recvInto K (min remaining chunk) k with
    | (none, k') => (none, k')
    | (some piece, k') => drainLoop chunk (remaining - min remaining chunk) (got ++ piece) k'
termination_by remaining
decreasing_by omega

/-! ## What was received -/

variable {K}

variable {got : List UInt8} {k k' : Sock} {n ahead need chunk remaining : ℕ} {a e : List UInt8}

theorem recvLoop_some (h : recvLoop K ahead need got k = (some (a, e), k')) :
    a = got ++ k.stream.take need ∧ e = (k.stream.drop need).take e.length ∧ e.length ≤ ahead ∧
      need + e.length ≤ k.stream.length ∧ k'.stream = k.stream.drop (need + e.length) := by
  induction need using Nat.strong_induction_on generalizing got k with
  | _ need ih =>
    rw [recvLoop] at h
    split_ifs at h with hzero
    · cases h
      subst hzero
      simp
    split at h
    · cases h
    · next c hgrant =>
      dsimp only at h
      generalize hr : min (c + 1) (min (need + ahead) k.stream.length) = r at h
      split_ifs at h with hnone hover
      · cases h
      · cases h
        have hlen : ((k.stream.take r).drop need).length = r - need := by
          rw [length_drop, length_take_of_le (by omega)]
        rw [hlen, drop_take]
        refine ⟨rfl, rfl, by omega, by omega, ?_⟩
        rw [Nat.add_sub_cancel' (by omega)]
      · obtain ⟨ha, he, hahead, hlen, hk⟩ := ih (need - r) (by omega) h
        dsimp only at ha he hlen hk
        rw [length_drop] at hlen
        rw [drop_drop, Nat.add_sub_cancel' (by omega)] at he
        rw [drop_drop, ← Nat.add_assoc, Nat.add_sub_cancel' (by omega)] at hk
        refine ⟨?_, he, hahead, by omega, hk⟩
        rw [ha, append_assoc, ← take_add, Nat.add_sub_cancel' (by omega)]

theorem recvLoop_none
    (h : recvLoop K ahead need got k = (none, k')) : ∃ m ≤ need, k'.stream = k.stream.drop m := by
  induction need using Nat.strong_induction_on generalizing got k with
  | _ need ih =>
    rw [recvLoop] at h
    split_ifs at h with hzero
    · cases h
    split at h
    · cases h
      exact ⟨0, Nat.zero_le _, rfl⟩
    next c hgrant =>
    dsimp only at h
    generalize hr : min (c + 1) (min (need + ahead) k.stream.length) = r at h
    split_ifs at h with hnone hover
    · cases h
      exact ⟨0, Nat.zero_le _, by rw [hnone]⟩
    · cases h
    obtain ⟨m, hm, hk⟩ := ih (need - r) (by omega) h
    dsimp only at hk
    rw [drop_drop] at hk
    exact ⟨r + m, by omega, hk⟩

theorem recvInto_some (h : recvInto K n k = (some a, k')) :
    n ≤ k.stream.length ∧ a = k.stream.take n ∧ k'.stream = k.stream.drop n := by
  unfold recvInto at h
  split at h
  · cases h
  next got e k₁ hrecv =>
  cases h
  obtain ⟨hgot, -, he, hlen, hk⟩ := recvLoop_some hrecv
  obtain rfl := length_eq_zero_iff.mp (Nat.le_zero.mp he)
  exact ⟨hlen, hgot, hk⟩

theorem recvInto_none (h : recvInto K n k = (none, k')) : ∃ m ≤ n, k'.stream = k.stream.drop m := by
  unfold recvInto at h
  split at h
  · next k₁ hrecv =>
    cases h
    exact recvLoop_none hrecv
  · cases h

theorem drainLoop_some (hchunk : chunk ≠ 0) (h : drainLoop K chunk remaining got k = (some a, k')) :
    remaining ≤ k.stream.length ∧ a = got ++ k.stream.take remaining ∧
      k'.stream = k.stream.drop remaining := by
  induction remaining using Nat.strong_induction_on generalizing got k with
  | _ remaining ih =>
    rw [drainLoop] at h
    split_ifs at h with hend
    · obtain rfl : remaining = 0 := hend.resolve_right hchunk
      cases h
      simp
    split at h
    · cases h
    · next piece k₁ hrecv =>
      obtain ⟨hlen₁, rfl, hk₁⟩ := recvInto_some hrecv
      obtain ⟨hlen, rfl, hk⟩ := ih _ (by omega) h
      rw [hk₁] at hlen hk ⊢
      rw [length_drop] at hlen
      rw [drop_drop, Nat.add_sub_cancel' (Nat.min_le_left _ _)] at hk
      refine ⟨by omega, ?_, hk⟩
      rw [append_assoc, ← take_add, Nat.add_sub_cancel' (Nat.min_le_left _ _)]

theorem drainLoop_none (h : drainLoop K chunk remaining got k = (none, k')) :
    ∃ m ≤ remaining, k'.stream = k.stream.drop m := by
  induction remaining using Nat.strong_induction_on generalizing got k with
  | _ remaining ih =>
    rw [drainLoop] at h
    split_ifs at h with hend
    · cases h
    split at h
    · next k₁ hrecv =>
      cases h
      obtain ⟨m, hm, hk⟩ := recvInto_none hrecv
      exact ⟨m, hm.trans (Nat.min_le_left _ _), hk⟩
    · next piece k₁ hrecv =>
      obtain ⟨hlen₁, -, hk₁⟩ := recvInto_some hrecv
      obtain ⟨m, hm, hk⟩ := ih _ (by omega) h
      rw [hk₁, drop_drop] at hk
      exact ⟨min remaining chunk + m, by omega, hk⟩

/-! ## Reading only moves forward -/

/-- The second socket is the first one after some receives. -/
def Sock.Advances (k k' : Sock) : Prop := ∃ m, k'.stream = k.stream.drop m

theorem Sock.Advances.refl (k : Sock) : k.Advances k := ⟨0, rfl⟩

theorem Sock.Advances.trans {k₁ k₂ k₃ : Sock} (h : k₁.Advances k₂) (h' : k₂.Advances k₃) :
    k₁.Advances k₃ := by
  obtain ⟨m, hm⟩ := h
  obtain ⟨m', hm'⟩ := h'
  exact ⟨m + m', by rw [hm', hm, drop_drop]⟩

theorem Sock.Advances.length_le (h : k.Advances k') : k'.stream.length ≤ k.stream.length := by
  obtain ⟨m, hm⟩ := h
  rw [hm, length_drop]
  exact Nat.sub_le _ _

theorem recvAhead_advances {r : Option (List UInt8 × List UInt8)}
    (h : recvAhead K n ahead k = (r, k')) : k.Advances k' := by
  cases r with
  | none =>
    obtain ⟨m, -, hk⟩ := recvLoop_none h
    exact ⟨m, hk⟩
  | some ae => exact ⟨_, (recvLoop_some h).2.2.2.2⟩

theorem recvInto_advances {r : Option (List UInt8)} (h : recvInto K n k = (r, k')) :
    k.Advances k' := by
  cases r with
  | none =>
    obtain ⟨m, -, hk⟩ := recvInto_none h
    exact ⟨m, hk⟩
  | some a => exact ⟨n, (recvInto_some h).2.2⟩

end KVStash.Foundation.Socket
