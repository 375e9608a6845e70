/- GID: KVStash/Eviction/Ghost
   digest: The ghost of a domain is a bounded queue of distinct fingerprints, through every call
     that fills or resizes it. -/

import KVStash.Eviction.Domain
import Mathlib.Data.List.GetD
import Mathlib.Data.Nat.ModEq

set_option autoImplicit false

namespace KVStash.Eviction

open List

/-- A call on a ghost: a victim's fingerprint, or one of the sections that resize it, in any state
of its domain. -/
inductive GhostCall
  | push (fp : UInt64)
  | grow (d : Domain)
  | decay (d : Domain) (now : Int64)

namespace GhostRing

variable (p : Settings)

def call (g : GhostRing) : GhostCall → GhostRing
  | .push fp => g.push fp
  | .grow d => ({ d with ghost := g }.maybeGrowGhost p).ghost
  | .decay d now => ({ d with ghost := g }.maybeDecay p now).ghost

/-- The live part of the ring, from the oldest fingerprint on. -/
def live (g : GhostRing) : List UInt64 := g.window 0 g.n

/-- A ghost after some calls, with the fingerprints that were new when they were pushed. -/
def record : GhostRing × List UInt64 → GhostCall → GhostRing × List UInt64
  | (g, log), c => (g.call p c, match c with
    | .push fp => if g.contains fp then log else log ++ [fp]
    | _ => log)

def runCalls (calls : List GhostCall) : GhostRing × List UInt64 :=
  calls.foldl (record p) (.empty, [])

variable {p} {g : GhostRing} {fp : UInt64} {log l : List UInt64}

/-! ### The live part -/

@[simp] theorem length_live (g : GhostRing) : g.live.length = g.n := by
  rw [live, window, length_map, length_range]

theorem getElem?_live {i : ℕ} (h : i < g.n) :
    g.live[i]? = some (g.ring.getD ((g.head + i) % g.capacity) 0) := by
  simp [live, window, capacity, h]

theorem live_rebuilt (l : List UInt64) (set : Finset UInt64) (c : ℕ) :
    (rebuilt l set c).live = l := by
  refine ext_getElem? fun i => ?_
  by_cases hi : i < l.length
  · have hpos : (0 + i) % (l ++ replicate (c - l.length) 0).length = i := by
      rw [Nat.zero_add, Nat.mod_eq_of_lt]
      rw [length_append]
      omega
    have hget := getElem?_live (g := rebuilt l set c) hi
    rw [hget]
    change some ((l ++ replicate (c - l.length) 0).getD
      ((0 + i) % (l ++ replicate (c - l.length) 0).length) 0) = _
    rw [hpos, getD_append _ _ _ _ hi, getD_eq_getElem _ _ hi, getElem?_eq_getElem hi]
  · rw [getElem?_eq_none (not_lt.mp hi), getElem?_eq_none ((length_live _).trans_le (not_lt.mp hi))]

theorem live_of_nil (h : g.ring = []) : g.live = [] := by
  have hn := g.n_le
  rw [h, length_nil, Nat.le_zero] at hn
  rw [← length_eq_zero_iff, length_live, hn]

theorem window_eq_drop (g : GhostRing) (s c : ℕ) : g.window s c = (g.window 0 (s + c)).drop s := by
  refine ext_getElem (by simp [window]) fun i hi hi' => ?_
  simp [window, Nat.add_assoc]

/-- Different offsets are different positions. -/
theorem offset_inj {h i j n : ℕ} (hi : i < n) (hj : j < n) (he : (h + i) % n = (h + j) % n) :
    i = j :=
  (Nat.ModEq.add_left_cancel' h he).eq_of_lt_of_lt hi hj

/-- A fingerprint is written where the next one goes, and the ones before it stay. -/
theorem live_append {m : GhostRing} {k j : ℕ} (hn : g.n = k + 1) (hring : g.ring = m.ring.set j fp)
    (hj : j < m.capacity) (hlast : (g.head + k) % m.capacity = j) (hk : k < m.capacity)
    (hl : l.length = k) (hold : ∀ i < k, l[i]? = some (m.ring.getD ((g.head + i) % m.capacity) 0)) :
    g.live = l ++ [fp] := by
  have hcap : g.capacity = m.capacity := by rw [capacity, hring, length_set, capacity]
  refine ext_getElem? fun i => ?_
  by_cases hi : i < k + 1
  · rw [getElem?_live (hn ▸ hi), hcap, hring]
    by_cases hik : i < k
    · have hne : j ≠ (g.head + i) % m.capacity := fun he =>
        hik.ne (offset_inj (hik.trans hk) hk (he.symm.trans hlast.symm))
      rw [getElem?_append_left (hl ▸ hik), hold i hik]
      simp [hne]
    · obtain rfl : i = k := by omega
      rw [hlast, getElem?_append_right hl.le]
      simp [hl, show j < m.ring.length from hj]
  · rw [getElem?_eq_none (by simp [hn]; omega), getElem?_eq_none (by simp [hl]; omega)]

/-- A ring that was never filled behaves like a full one of length zero. -/
theorem materialised_cases (g : GhostRing) :
    g.materialised = g ∨ g.live = [] ∧ g.n = g.capacity ∧ g.materialised = rebuilt
      [] ∅ ghostFloor := by
  unfold materialised
  split
  next h =>
    have hn := g.n_le
    rw [h, length_nil, Nat.le_zero] at hn
    exact .inr ⟨live_of_nil h, by rw [capacity, h, hn, length_nil], rfl⟩
  next => exact .inl rfl

theorem push_cases {m : GhostRing} (hm : g.materialised = m) (fp : UInt64) :
    (fp ∈ m.set ∧ g.push fp = m) ∨ fp ∉ m.set ∧
      ((m.n = m.capacity ∧ (g.push fp).ring = m.ring.set m.head fp ∧
        (g.push fp).head = (m.head + 1) % m.capacity ∧
        (g.push fp).n = m.n ∧ (g.push fp).set = insert fp (m.set.erase (m.ring.getD m.head 0))) ∨
      (m.n ≠ m.capacity ∧ (g.push fp).ring = m.ring.set ((m.head + m.n) % m.capacity) fp ∧
        (g.push fp).head = m.head ∧ (g.push fp).n = m.n + 1 ∧
          (g.push fp).set = insert fp m.set)) := by
  subst hm
  unfold push
  dsimp only
  split
  next h => exact .inl ⟨of_decide_eq_true h, rfl⟩
  next h =>
    refine .inr ⟨by simpa [contains] using h, ?_⟩
    split
    next hfull => exact .inl ⟨hfull, rfl, rfl, rfl, rfl⟩
    next hroom => exact .inr ⟨hroom, rfl, rfl, rfl, rfl⟩

theorem live_push_materialised {m : GhostRing} (hm : g.materialised = m)
    (hset : fp ∈ m.set ↔ fp ∈ m.live) :
    (g.push fp).live = if fp ∈ m.live then m.live
      else (if m.n = m.capacity then m.live.tail else m.live) ++ [fp] := by
  have hne : m.ring ≠ [] := hm ▸ g.materialised_ne
  have hhead : m.head < m.capacity := m.head_lt hne
  have hn : m.n ≤ m.capacity := m.n_le
  have hlen := length_live m
  rcases push_cases hm fp with ⟨hin, heq⟩ |
    ⟨hnew, ⟨hfull, hring, hpos, hcount, -⟩ | ⟨hroom, hring, hpos, hcount, -⟩⟩
  · rw [if_pos (hset.mp hin), heq]
  · rw [if_neg (mt hset.mpr hnew), if_pos hfull]
    obtain ⟨k, hk⟩ : ∃ k, m.n = k + 1 := ⟨m.n - 1, by omega⟩
    have hwrap : ∀ i, ((g.push fp).head + i) % m.capacity = (m.head + (i + 1)) % m.capacity :=
      fun i => by
      rw [hpos, Nat.mod_add_mod, Nat.add_assoc, Nat.add_comm 1]
    refine live_append (hcount.trans hk) hring hhead ?_ (by omega) (by simp [hk]) fun i hi => ?_
    · rw [hwrap, ← hk, hfull, Nat.add_mod_right, Nat.mod_eq_of_lt hhead]
    · rw [getElem?_tail, getElem?_live (by omega), hwrap]
  · rw [if_neg (mt hset.mpr hnew), if_neg hroom]
    refine live_append hcount hring (Nat.mod_lt _ (by omega)) (by rw [hpos]) (by omega) hlen
      fun i hi => ?_
    rw [getElem?_live hi, hpos]

theorem live_push (hset : fp ∈ g.set ↔ fp ∈ g.live) : (g.push fp).live =
    if fp ∈ g.live then g.live else (if g.n = g.capacity then g.live.tail else g.live) ++ [fp] := by
  rcases g.materialised_cases with hm | ⟨hlive, hfull, hm⟩
  · exact live_push_materialised hm hset
  · have hnil : (rebuilt [] ∅ ghostFloor).live = [] := live_rebuilt ..
    rw [live_push_materialised hm (by rw [hnil]; simp [rebuilt]), hnil, hlive, if_pos hfull]
    simp

theorem live_grow (g : GhostRing) (c : ℕ) : (g.grow c).live = g.live := by
  unfold grow
  split
  next => rfl
  next h =>
    exact live_rebuilt ..

theorem live_shrink (g : GhostRing) (c : ℕ) :
    (g.shrink c).live = g.live.drop (g.n - max c ghostFloor) := by
  have hn := g.n_le
  unfold shrink
  dsimp only
  split
  next h =>
    rcases h with h | h
    · rw [live_of_nil h, drop_nil]
    · rw [Nat.sub_eq_zero_of_le (hn.trans h), drop_zero]
  next h =>
    have hkeep : g.n - min g.n (max c ghostFloor) = g.n - max c ghostFloor := by omega
    rw [live_rebuilt, window_eq_drop, hkeep, live]
    congr 2
    omega

/-! ### Runs of calls -/

/-- The live fingerprints are distinct, are the members, and are the last ones that were
inserted. -/
structure Ok (p : Settings) (g : GhostRing) (log : List UInt64) : Prop where
  nodup : g.live.Nodup
  members : ∀ x, x ∈ g.set ↔ x ∈ g.live
  newest : g.live <:+ log
  bounded : g.capacity ≤ max ghostFloor p.ghostMax.toNat

theorem Ok.rebuilt (h : Ok p g log) {set : Finset UInt64} {c : ℕ} (hl : l <:+ g.live)
    (hset : ∀ x, x ∈ set ↔ x ∈ l) (hlen : l.length ≤ c) (hc : c ≤ max ghostFloor p.ghostMax.toNat) :
    Ok p (rebuilt l set c) log := by
  constructor
  · rw [live_rebuilt]
    exact h.nodup.sublist hl.sublist
  · rw [live_rebuilt]
    exact hset
  · rw [live_rebuilt]
    exact hl.trans h.newest
  · rw [capacity, GhostRing.rebuilt, length_append, length_replicate]
    omega

theorem Ok.grow (h : Ok p g log) {c : ℕ} (hc : c ≤ max ghostFloor p.ghostMax.toNat) :
    Ok p (g.grow c) log := by
  have hn := g.n_le
  unfold GhostRing.grow
  split
  next => exact h
  next hlt => exact h.rebuilt suffix_rfl h.members (by rw [← live, length_live]; omega) hc

theorem Ok.shrink (h : Ok p g log) (c : ℕ) : Ok p (g.shrink c) log := by
  have hbound : g.ring.length ≤ max ghostFloor p.ghostMax.toNat := h.bounded
  unfold GhostRing.shrink
  dsimp only
  split
  next => exact h
  next hlt =>
    refine h.rebuilt ?_ (fun x => mem_toFinset)
      (by rw [window, length_map, length_range]; omega) (by omega)
    rw [window_eq_drop, live, Nat.sub_add_cancel (Nat.min_le_left ..)]
    exact drop_suffix ..

theorem Ok.materialised (h : Ok p g log) : Ok p g.materialised log := by
  rcases g.materialised_cases with hm | ⟨-, -, hm⟩
  · rwa [hm]
  · rw [hm]
    exact h.rebuilt nil_suffix (by simp) (Nat.zero_le _) (le_max_left ..)

theorem Ok.append (h : Ok p g log) {g' : GhostRing} (hl : l <:+ g.live)
    (hlive : g'.live = l ++ [fp]) (hset : ∀ x, x ∈ g'.set ↔ x = fp ∨ x ∈ l) (hnew : fp ∉ g.live)
    (hcap : g'.capacity = g.capacity) : Ok p g' (log ++ [fp]) := by
  constructor
  · rw [hlive, nodup_append]
    refine ⟨h.nodup.sublist hl.sublist, nodup_singleton fp, ?_⟩
    rintro x hx y hy rfl
    exact hnew (mem_singleton.mp hy ▸ hl.subset hx)
  · intro x
    rw [hset, hlive, mem_append, mem_singleton, or_comm]
  · rw [hlive]
    exact (suffix_append_inj_of_length_eq rfl).mpr ⟨hl.trans h.newest, rfl⟩
  · exact hcap ▸ h.bounded

theorem Ok.push (h : Ok p g log) (fp : UInt64) :
    Ok p (g.push fp) (if g.contains fp then log else log ++ [fp]) := by
  obtain ⟨m, hm⟩ : ∃ m, g.materialised = m := ⟨_, rfl⟩
  have hok : Ok p m log := hm ▸ h.materialised
  have hsame : g.contains fp = true ↔ fp ∈ m.set := by
    rw [contains, decide_eq_true_iff, h.members, hok.members]
    rcases g.materialised_cases with he | ⟨hnil, -, he⟩
    · rw [← hm, he]
    · rw [← hm, he, live_rebuilt, hnil]
  have hlive := live_push_materialised hm (hok.members fp)
  rcases push_cases hm fp with ⟨hin, heq⟩ | ⟨hnew, hcase⟩
  · rw [if_pos (hsame.mpr hin), heq]
    exact hok
  have hout := mt (hok.members fp).mpr hnew
  rw [if_neg (mt hsame.mp hnew)]
  rw [if_neg hout] at hlive
  rcases hcase with ⟨hfull, hring, -, -, hset⟩ | ⟨hroom, hring, -, -, hset⟩
  · rw [if_pos hfull] at hlive
    refine hok.append (tail_suffix _) hlive (fun x => ?_) hout
      (by rw [capacity, hring, length_set, capacity])
    have hne : m.ring ≠ [] := hm ▸ g.materialised_ne
    have hhead : m.head < m.capacity := m.head_lt hne
    have hfirst := getElem?_live (g := m) (i := 0) (by omega)
    rw [Nat.add_zero, Nat.mod_eq_of_lt hhead] at hfirst
    have hnd := hok.nodup
    rw [hset, Finset.mem_insert, Finset.mem_erase, hok.members]
    cases hl : m.live with
    | nil => simp [hl] at hfirst
    | cons a t => grind
  · rw [if_neg hroom] at hlive
    refine hok.append suffix_rfl hlive (fun x => ?_) hout
      (by rw [capacity, hring, length_set, capacity])
    rw [hset, Finset.mem_insert, hok.members]

theorem Ok.call (h : Ok p g log) (c : GhostCall) :
    Ok p (record p (g, log) c).1 (record p (g, log) c).2 := by
  cases c with
  | push fp => exact h.push fp
  | grow d =>
    change Ok p (({ d with ghost := g }.maybeGrowGhost p).ghost) log
    unfold Domain.maybeGrowGhost
    dsimp only
    split
    next => exact h
    next =>
      split
      next => exact h
      next => exact h.grow (by omega)
  | decay d now =>
    change Ok p (({ d with ghost := g }.maybeDecay p now).ghost) log
    unfold Domain.maybeDecay
    dsimp only
    split
    next => exact h
    next =>
      split
      next => exact h
      next =>
        split
        next => exact h
        next => exact h.shrink _

theorem Ok.runCalls (p : Settings) (calls : List GhostCall) :
    Ok p (runCalls p calls).1 (runCalls p calls).2 := by
  induction calls using reverseRecOn with
  | nil =>
    exact ⟨nodup_nil, by simp [GhostRing.runCalls, empty, live, window], suffix_rfl, Nat.zero_le _⟩
  | append_singleton calls c ih =>
    rw [GhostRing.runCalls, foldl_append]
    exact ih.call c

/-- After any calls the members are the live part of the ring: distinct, in the order of their
insertion, the oldest first. A push that finds the ring full forgets the oldest, growth forgets
nothing, and a smaller ring, which is never below the floor, keeps the newest. -/
theorem ghost_fifo (p : Settings) (calls : List GhostCall) : ∃ g log, runCalls p calls = (g, log) ∧
    g.live.Nodup ∧ (∀ x, x ∈ g.set ↔ x ∈ g.live) ∧ g.live <:+ log ∧
    g.capacity ≤ max ghostFloor p.ghostMax.toNat ∧
    (∀ fp, (g.push fp).live = if fp ∈ g.live then g.live
      else (if g.n = g.capacity then g.live.tail else g.live) ++ [fp]) ∧
    (∀ c, (g.grow c).live = g.live) ∧ ∀ c, (g.shrink c).live = g.live.drop
    (g.n - max c ghostFloor) :=
  have h := Ok.runCalls p calls
  ⟨_, _, rfl, h.nodup, h.members, h.newest, h.bounded, fun fp => live_push (h.members fp),
    live_grow _, live_shrink _⟩

/-- With a ceiling below the floor, a decay shrinks to the ceiling and forgets nothing. -/
theorem shrink_stays_at_floor :
    ∃ g log, runCalls ⟨0, 10⟩ ((range 11).map fun i => .push (UInt64.ofNat i)) = (g, log) ∧
    g.call ⟨0, 10⟩ (.decay { Domain.new with lastDecay := 1 } 60000000001) = g.shrink 10 ∧
    g.live.length = 11 ∧ (g.shrink 10).live = g.live := by
  have hn : (runCalls ⟨0, 10⟩ ((range 11).map fun i => .push (UInt64.ofNat i))).1.n = 11 := by
    decide +kernel
  obtain ⟨⟨g, log⟩, hg⟩ :
    ∃ x, runCalls ⟨0, 10⟩ ((range 11).map fun i => .push (UInt64.ofNat i)) = x := ⟨_, rfl⟩
  rw [hg] at hn
  have hwant : climb Domain.new.mainHi ghostFloor = ghostFloor := by
    rw [climb]
    rfl
  refine ⟨g, log, hg, ?_, hn ▸ length_live g, ?_⟩
  · rw [call, Domain.maybeDecay, if_neg (by decide), if_neg (show ¬(1 : Int64) = 0 by decide),
      if_neg (show ¬(60000000001 - 1 : Int64) < Domain.ghostDecayEpoch by decide)]
    change g.shrink (if 0 < (10 : ℤ) ∧ (10 : ℤ) < climb Domain.new.mainHi ghostFloor
      then 10 else _) = _
    rw [hwant, if_pos (by decide)]
  · rw [live_shrink, show g.n = 11 from hn]
    rfl

end GhostRing

end KVStash.Eviction
