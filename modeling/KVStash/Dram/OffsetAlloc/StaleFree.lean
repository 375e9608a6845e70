/- GID: KVStash/Dram/OffsetAlloc/StaleFree
   digest: The generation tag rejects a handle that was freed before, unless a split has
     re-initialised its slot. -/

import KVStash.Dram.OffsetAlloc.Runs

set_option autoImplicit false

namespace KVStash.Dram.OffsetAlloc

open Foundation.Run Option
open Allocator

namespace Allocator

def call (a : Allocator) : Op → Option Allocator
  | .alloc n =>
    if n < 2 ^ 32 then
      some (match a.alloc n with
        | none => a
        | some (_, a') => a')
    else none
  | .free al => some (a.free al)

def handedSlot (a : Allocator) : Op → Option ℕ
  | .alloc n => (a.alloc n).map (fun res => res.1.slot)
  | .free _ => none

def remainderSlot (a : Allocator) : Op → Option ℕ
  | .alloc n => (a.alloc n).bind (fun res =>
      if res.2.freeOffset < a.freeOffset then some a.popNode.1 else none)
  | .free _ => none

def handouts (i : ℕ) : Allocator → List Op → ℕ
  | _, [] => 0
  | a, op :: ops =>
    (if a.handedSlot op = some i then 1 else 0) +
      match a.call op with
      | none => 0
      | some a' => handouts i a' ops

variable {a a' t : Allocator} {L : List ℕ} {B : ℕ → List ℕ} {size maxAllocs n : ℕ}
  {al : Allocation} {op : Op} {ops before since : List Op}

theorem WellFormed.mem_of_accepts (h : WellFormed a L B) (ha : a.accepts al = true) :
    al.slot ∈ L ∧ a.inUse al.slot = true := by
  rw [accepts, decide_eq_true_iff] at ha
  obtain ⟨_, hlt, hu, _⟩ := ha
  have hu : a.inUse al.slot = true := hu
  have hm : al.slot ∈ a.stack ++ L := by
    rw [h.pool.mem_iff]
    exact List.mem_range.mpr hlt
  rcases List.mem_append.mp hm with hs | hL
  · rw [h.idle _ hs] at hu
    cases hu
  · exact ⟨hL, hu⟩

theorem WellFormed.free (h : WellFormed a L B) (al : Allocation) :
    (∃ L' B', WellFormed (a.free al) L' B') ∧
      (∀ j, ((a.free al).nodes j).gen = (a.nodes j).gen) ∧
      (∀ j, (a.free al).inUse j = true → a.inUse j = true) ∧
      (a.accepts al = true → (a.free al).inUse al.slot = false) := by
  by_cases ha : a.accepts al = true
  · obtain ⟨hL, hu⟩ := h.mem_of_accepts ha
    obtain ⟨l, r, rfl⟩ := List.append_of_mem hL
    obtain ⟨l', r', B', hw, hrel⟩ := h.freeSlot hu
    have heq : a.free al = a.freeSlot al.slot := by
      rw [Allocator.free, if_pos ha]
      rfl
    rw [heq]
    refine ⟨⟨_, B', hw⟩, hrel.gens, ?_, fun _ => hrel.free⟩
    intro j hj
    by_cases hji : j = al.slot
    · rw [hji]
      exact hu
    · exact (congrArg View.used (hrel.others j hji)).symm.trans hj
  · have heq : a.free al = a := by rw [Allocator.free, if_neg ha]
    rw [heq]
    exact ⟨⟨L, B, h⟩, fun _ => rfl, fun _ hj => hj, fun hacc => absurd hacc ha⟩

/-- Alloc moves the generation of the slot it hands out by one and resets that of
a split remainder; every other generation stays. -/
theorem WellFormed.alloc_gens (h : WellFormed a L B) (hp : a.poolLen ≤ 2 ^ 18) (hn : n < 2 ^ 32)
    (ha : a.alloc n = some (al, a')) {i : ℕ} (hr : a.remainderSlot (.alloc n) ≠ some i) :
    (al.slot = i → (a'.nodes i).gen = ((a.nodes i).gen + 1) &&& genMask) ∧
      (al.slot ≠ i → a'.view i = a.view i) := by
  obtain ⟨k, L', B', hw, hh⟩ := h.alloc hn ha
  have hk : k < 2 ^ 18 := Nat.lt_of_lt_of_le (h.slot_lt hh.member) hp
  have hslot : al.slot = k := by
    rw [Allocation.slot, hh.word]
    exact slot_of_word hk
  constructor
  · rintro rfl
    rw [hslot]
    exact congrArg View.gen hh.slot
  intro hne
  rw [hslot] at hne
  rcases hh.rest with ⟨_, _, _, hv⟩ | ⟨l, r, q, _, _, _, hst, _, hv⟩
  · exact hv i (Ne.symm hne)
  refine hv i (Ne.symm hne) ?_
  rintro rfl
  apply hr
  -- the stack has lost its top, which is the remainder's slot
  have hlen := congrArg List.length hst
  rw [List.length_append, stack_length, stack_length, List.length_singleton] at hlen
  have htop := stack_pop (a := a) (by omega)
  rw [hst] at htop
  have hq := (List.cons.inj (List.append_inj_right' htop rfl)).1
  rw [remainderSlot, ha]
  change (if a'.freeOffset < a.freeOffset then some a.popNode.1 else none) = some i
  rw [if_pos (by omega), hq]

theorem WellFormed.call (h : WellFormed a L B) (hc : a.call op = some a') :
    (∃ L' B', WellFormed a' L' B') ∧ a'.maxAllocs = a.maxAllocs := by
  cases op with
  | alloc n =>
    simp only [Allocator.call] at hc
    split at hc
    · rename_i hn
      rw [some.injEq] at hc
      cases ha : a.alloc n with
      | none =>
        simp only [ha] at hc
        subst hc
        exact ⟨⟨L, B, h⟩, rfl⟩
      | some res =>
        obtain ⟨al, heap⟩ := res
        simp only [ha] at hc
        subst hc
        obtain ⟨_, L', B', hw, _⟩ := h.alloc hn ha
        exact ⟨⟨L', B', hw⟩, (alloc_capacity ha).2⟩
    · cases hc
  | free al =>
    rw [Allocator.call, some.injEq] at hc
    subst hc
    exact ⟨(h.free al).1, (free_capacity a al).2⟩

/-- What a run since a handle was returned knows about its slot: the generation
has moved by the number `k` of handouts, and a freed handle that was not followed
by a handout left the slot free. -/
structure Tracked (A : Allocation) (a : Allocator) (k : ℕ) (freed : Prop) : Prop where
  heap : ∃ L B, WellFormed a L B
  pool : a.poolLen ≤ 2 ^ 18
  slot : A.slot < a.poolLen
  gen : (a.nodes A.slot).gen = (A.gen + k) % 2 ^ 14
  idle : freed → k = 0 → a.inUse A.slot = false

theorem Tracked.after_call {A : Allocation} {k : ℕ} {freed : Prop} (h : Tracked A a k freed)
    (hword : A.metaWord ≠ unusedIndex) (hg : A.gen < 2 ^ 14)
    (hr : a.remainderSlot op ≠ some A.slot) (hc : a.call op = some a') :
    Tracked A a' (k + if a.handedSlot op = some A.slot then 1 else 0) (freed ∨ op = .free A) := by
  obtain ⟨L, B, hw⟩ := h.heap
  obtain ⟨hheap, hmax⟩ := hw.call hc
  have hlen : a'.poolLen = a.poolLen := by rw [poolLen, poolLen, hmax]
  refine ⟨hheap, hlen ▸ h.pool, hlen ▸ h.slot, ?_, ?_⟩
  · cases op with
    | alloc n =>
      simp only [Allocator.call] at hc
      split at hc
      · rename_i hn
        rw [some.injEq] at hc
        cases ha : a.alloc n with
        | none =>
          simp only [ha] at hc
          subst hc
          simp only [handedSlot, ha, map_none, reduceCtorEq, if_false, Nat.add_zero]
          exact h.gen
        | some res =>
          obtain ⟨al, heap⟩ := res
          simp only [ha] at hc
          subst hc
          obtain ⟨hin, hout⟩ := hw.alloc_gens h.pool hn ha hr
          simp only [handedSlot, ha, map_some, some.injEq]
          by_cases he : al.slot = A.slot
          · rw [if_pos he, hin he, h.gen]
            change ((A.gen + k) % 2 ^ 14 + 1) &&& (1 <<< 14 - 1) = _
            rw [Nat.one_shiftLeft, Nat.and_two_pow_sub_one_eq_mod, Nat.mod_add_mod, Nat.add_assoc]
          · rw [if_neg he, Nat.add_zero, ← h.gen]
            exact congrArg View.gen (hout he)
      · cases hc
    | free al =>
      rw [Allocator.call, some.injEq] at hc
      subst hc
      simp only [handedSlot, reduceCtorEq, if_false, Nat.add_zero]
      rw [(hw.free al).2.1]
      exact h.gen
  · cases op with
    | alloc n =>
      intro hf hk
      have hf : freed := hf.resolve_right (by simp)
      simp only [Allocator.call] at hc
      split at hc
      · rename_i hn
        rw [some.injEq] at hc
        cases ha : a.alloc n with
        | none =>
          simp only [ha] at hc
          subst hc
          exact h.idle hf (by omega)
        | some res =>
          obtain ⟨al, heap⟩ := res
          simp only [ha] at hc
          subst hc
          have hout := (hw.alloc_gens h.pool hn ha hr).2
          simp only [handedSlot, ha, map_some, some.injEq] at hk
          have he : al.slot ≠ A.slot := by
            intro he
            rw [if_pos he] at hk
            omega
          exact (congrArg View.used (hout he)).trans (h.idle hf (by omega))
      · cases hc
    | free al =>
      intro hf hk
      simp only [handedSlot, reduceCtorEq, if_false, Nat.add_zero] at hk
      rw [Allocator.call, some.injEq] at hc
      subst hc
      obtain ⟨_, _, hmono, hacc⟩ := hw.free al
      rcases hf with hf | hf
      · -- the slot was free already
        by_contra hu
        rw [Bool.not_eq_false] at hu
        have := hmono A.slot hu
        rw [h.idle hf hk] at this
        cases this
      · -- the handle's own release: accepted unless the slot is free already
        rw [Op.free.injEq] at hf
        subst hf
        by_cases hu : a.inUse al.slot = true
        · apply hacc
          have hgen := h.gen
          rw [hk, Nat.add_zero, Nat.mod_eq_of_lt hg] at hgen
          rw [accepts, decide_eq_true_iff]
          exact ⟨hword, h.slot, hu, hgen⟩
        · by_contra hu'
          rw [Bool.not_eq_false] at hu'
          exact hu (hmono _ hu')

theorem Tracked.after_run {A : Allocation} {k : ℕ} {freed : Prop} (h : Tracked A a k freed)
    (hword : A.metaWord ≠ unusedIndex) (hg : A.gen < 2 ^ 14)
    (hr : Along call (fun a op => a.remainderSlot op ≠ some A.slot) a ops)
    (hc : run call a ops = some t) :
    Tracked A t (k + handouts A.slot a ops) (freed ∨ .free A ∈ ops) := by
  induction ops generalizing a k freed with
  | nil =>
    rw [run_nil, some.injEq] at hc
    subst hc
    obtain ⟨h1, h2, h3, h4, h5⟩ := h
    refine ⟨h1, h2, h3, h4, ?_⟩
    intro hf hk
    exact h5 (hf.resolve_right (by simp)) hk
  | cons op ops ih =>
    obtain ⟨b, hb, hrun⟩ := run_cons_eq_some hc
    have hnext := ih (h.after_call hword hg hr.1 hb) (hr.2 b hb) hrun
    have hcount : handouts A.slot a (op :: ops) =
        (if a.handedSlot op = some A.slot then 1 else 0) + handouts A.slot b ops := by
      simp only [handouts, hb]
    obtain ⟨h1, h2, h3, h4, h5⟩ := hnext
    rw [Nat.add_assoc, ← hcount] at h4 h5
    refine ⟨h1, h2, h3, h4, ?_⟩
    intro hf hk
    refine h5 ?_ hk
    rw [List.mem_cons] at hf
    rcases hf with hf | hf | hf
    · exact Or.inl (Or.inl hf)
    · exact Or.inl (Or.inr hf.symm)
    · exact Or.inr hf

theorem run_call_wellFormed (hs : size < 2 ^ 32) (hm : 1 ≤ maxAllocs)
    (hr : run call (newAllocator size maxAllocs) ops = some a) :
    (∃ L B, WellFormed a L B) ∧ a.maxAllocs = maxAllocs := by
  obtain ⟨L, B, hw, _⟩ := newAllocator_wellFormed hs hm
  refine run_invariant (I := fun a => (∃ L B, WellFormed a L B) ∧ a.maxAllocs = maxAllocs) ?_
    ⟨⟨L, B, hw⟩, newAllocator_capacity.2⟩ along_true hr
  rintro a op b ⟨⟨L, B, h⟩, hmax⟩ _ hb
  obtain ⟨hw', hmax'⟩ := h.call hb
  exact ⟨hw', hmax'.trans hmax⟩

/-- Freeing a handle again changes nothing, whatever happened since it was
returned, as long as its slot was handed out fewer than `2 ^ 14` times and was
never re-initialised as the remainder of a split. -/
theorem stale_free_ignored {A : Allocation} (hs : size < 2 ^ 32) (hm1 : 1 ≤ maxAllocs)
    (hm : maxAllocs ≤ 2 ^ 17) (hbefore : run call (newAllocator size maxAllocs) before = some a)
    (hn : n < 2 ^ 32) (hA : a.alloc n = some (A, a')) (hsince : run call a' since = some t)
    (hfreed : Op.free A ∈ since) (hcount : handouts A.slot a' since < 2 ^ 14)
    (hkeep : Along call (fun a op => a.remainderSlot op ≠ some A.slot) a' since) :
    t.free A = t := by
  by_cases hword : A.metaWord = unusedIndex
  · rw [Allocator.free, if_neg]
    rw [accepts, decide_eq_true_iff]
    exact fun hc => hc.1 hword
  obtain ⟨⟨L, B, hw⟩, hmax⟩ := run_call_wellFormed hs hm1 hbefore
  have hpool : a.poolLen ≤ 2 ^ 18 := by
    rw [poolLen, hmax]
    omega
  obtain ⟨i, L', B', hw', hh⟩ := hw.alloc hn hA
  have hi := hw.slot_lt hh.member
  have hlen : a'.poolLen = a.poolLen := by rw [poolLen, poolLen, (alloc_capacity hA).2]
  have hslot : A.slot = i := by
    rw [Allocation.slot, hh.word]
    exact slot_of_word (Nat.lt_of_lt_of_le hi hpool)
  have hgen : A.gen = (a'.nodes i).gen := by
    rw [Allocation.gen, hh.word]
    exact gen_of_word (Nat.lt_of_lt_of_le hi hpool)
  have hg : A.gen < 2 ^ 14 := by
    rw [hgen]
    exact hw'.gens i
  have hstart : Tracked A a' 0 False := by
    refine ⟨⟨L', B', hw'⟩, hlen ▸ hpool, ?_, ?_, fun hf => hf.elim⟩
    · rw [hslot, hlen]
      exact hi
    · rw [hslot, Nat.add_zero, Nat.mod_eq_of_lt hg, hgen]
  have hend := hstart.after_run hword hg hkeep hsince
  rw [Nat.zero_add] at hend
  rw [Allocator.free, if_neg]
  rw [accepts, decide_eq_true_iff]
  rintro ⟨_, _, hu, hgt⟩
  -- an unchanged generation means no handout, and then the release left the slot free
  have hsame : (A.gen + handouts A.slot a' since) % 2 ^ 14 = A.gen := by
    rw [← hend.gen]
    exact hgt
  have hzero : handouts A.slot a' since = 0 := by omega
  have hfree := hend.idle (Or.inr hfreed) hzero
  rw [inUse] at hfree
  rw [← Allocation.slot, hfree] at hu
  cases hu

theorem stale_free_ignored_small :
    ∃ a' t, (newAllocator 8 4).alloc 3 = some (⟨0, 2 ^ 18⟩, a') ∧
      run call a' [.free ⟨0, 2 ^ 18⟩, .alloc 7] = some t ∧ t.free ⟨0, 2 ^ 18⟩ = t := by
  have hrun : ∃ x ∈ (newAllocator 8 4).alloc 3, x.1 = ⟨0, 2 ^ 18⟩ ∧
      ∃ t ∈ run call x.2 [.free ⟨0, 2 ^ 18⟩, .alloc 7],
        handouts 0 x.2 [.free ⟨0, 2 ^ 18⟩, .alloc 7] < 2 ^ 14 ∧
        (x.2.free ⟨0, 2 ^ 18⟩).remainderSlot (.alloc 7) ≠ some 0 := by
    decide +kernel
  obtain ⟨⟨A, a'⟩, hA, rfl, t, ht, hcheck⟩ := hrun
  have hkeep : Along call (fun a op => a.remainderSlot op ≠ some 0) a'
      [.free ⟨0, 2 ^ 18⟩, .alloc 7] := by
    refine ⟨by simp [remainderSlot], fun b hb => ⟨?_, fun _ _ => trivial⟩⟩
    obtain rfl := some.inj hb
    exact hcheck.2
  exact ⟨a', t, hA, ht, stale_free_ignored (show 8 < 2 ^ 32 by decide) (show 1 ≤ 4 by decide)
    (by decide) (show run call (newAllocator 8 4) [] = some (newAllocator 8 4) from rfl)
    (show 3 < 2 ^ 32 by decide) hA ht (by decide) hcheck.1 hkeep⟩

/-- A split that takes over a freed handle's slot starts its generation again, so
the freed handle comes to name a later live range and releases it. -/
theorem stale_free_hits_live_range :
    ∃ a' t B b, (newAllocator 8 4).alloc 1 = some (⟨0, 2 ^ 18⟩, a') ∧
      run call a'
        [.alloc 1, .free ⟨0, 2 ^ 18⟩, .free ⟨1, 2 ^ 18 + 1⟩, .alloc 1, .alloc 1] = some b ∧
      b.alloc 1 = some (B, t) ∧
      handouts 0 a' [.alloc 1, .free ⟨0, 2 ^ 18⟩, .free ⟨1, 2 ^ 18 + 1⟩, .alloc 1, .alloc 1,
        .alloc 1] < 2 ^ 14 ∧
      t.accepts B = true ∧ (t.free ⟨0, 2 ^ 18⟩).accepts B = false ∧
      (t.free ⟨0, 2 ^ 18⟩).freeStorage = t.freeStorage + 1 := by
  have hrun : ∃ x ∈ (newAllocator 8 4).alloc 1, x.1 = ⟨0, 2 ^ 18⟩ ∧
      ∃ b ∈ run call x.2 [.alloc 1, .free ⟨0, 2 ^ 18⟩, .free ⟨1, 2 ^ 18 + 1⟩, .alloc 1, .alloc 1],
      ∃ y ∈ b.alloc 1, handouts 0 x.2 [.alloc 1, .free ⟨0, 2 ^ 18⟩, .free ⟨1, 2 ^ 18 + 1⟩, .alloc 1,
          .alloc 1, .alloc 1] < 2 ^ 14 ∧ y.2.accepts y.1 = true ∧
        (y.2.free ⟨0, 2 ^ 18⟩).accepts y.1 = false ∧
        (y.2.free ⟨0, 2 ^ 18⟩).freeStorage = y.2.freeStorage + 1 := by
    decide +kernel
  obtain ⟨⟨A, a'⟩, hA, rfl, b, hb, ⟨B, t⟩, ht, hcheck⟩ := hrun
  exact ⟨a', t, B, b, hA, hb, ht, hcheck⟩

end Allocator

end KVStash.Dram.OffsetAlloc
