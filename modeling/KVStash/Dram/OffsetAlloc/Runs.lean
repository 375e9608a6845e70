/- GID: KVStash/Dram/OffsetAlloc/Runs
   digest: Every run of Alloc and Free keeps the partition, the bins and the free storage exact,
     as long as no live handle carries the failed-Alloc word. -/

import KVStash.Foundation.Run
import KVStash.Dram.OffsetAlloc.Owned
import Mathlib.Algebra.Order.BigOperators.Group.List

set_option autoImplicit false

namespace KVStash.Dram.OffsetAlloc

open Foundation.BitMask List
open Foundation.LinkedSegment
open Foundation.Run
open Dram.SmallFloat
open Allocator

/-- The allocator together with the handles its client holds and their lengths. -/
structure Ledger where
  heap : Allocator
  live : List (Allocation × ℕ)

inductive Op where
  | alloc (n : ℕ)
  | free (al : Allocation)
  deriving DecidableEq, Repr

namespace Ledger

def start (size cap : ℕ) : Ledger := ⟨newAllocator size cap, []⟩

/-- A client asks for at least one unit and frees only what it holds. A refused
request changes nothing. -/
def step (s : Ledger) : Op → Option Ledger
  | .alloc n =>
    if 1 ≤ n ∧ n < 2 ^ 32 then
      some (match s.heap.alloc n with
        | none => s
        | some (al, heap) => ⟨heap, (al, n) :: s.live⟩)
    else none
  | .free al =>
    if al ∈ s.live.map Prod.fst then
      some ⟨s.heap.free al, s.live.filter (fun x => x.1 ≠ al)⟩
    else none

/-- No handle that is freed carries the word that Alloc returns on failure. -/
def Distinct (_ : Ledger) : Op → Prop
  | .alloc _ => True
  | .free al => al.metaWord ≠ unusedIndex

/-- The exact state of a correct allocator over `size` units. `L` are the nodes
in neighbour order and `B` the bin lists. -/
structure Sound (size : ℕ) (s : Ledger) (L : List ℕ) (B : ℕ → List ℕ) : Prop where
  pool : (s.heap.stack ++ L).Perm (range s.heap.poolLen)
  linked : Linked s.heap.nbNext s.heap.nbPrev none L none
  ascending : Tiles s.heap.off s.heap.sz 0 L size
  coalesced : s.heap.Coalesced L
  binLists : ∀ b, Linked s.heap.binNext s.heap.binPrev none (B b) none ∧
    s.heap.binIndices b = first (B b) none ∧ (B b).Nodup
  binned : ∀ b i, i ∈ B b ↔
    i ∈ L ∧ s.heap.inUse i = false ∧ uintToFloatRoundDown (s.heap.sz i) = b
  leafMask : ∀ t l, l < 8 → ((s.heap.usedBins t).testBit l = true ↔ B (8 * t + l) ≠ [])
  topMask : ∀ t, s.heap.usedBinsTop.testBit t = true ↔ ∃ l < 8, B (8 * t + l) ≠ []
  storage : s.heap.freeStorage + (s.live.map Prod.snd).sum = size
  owners : ∀ al n, (al, n) ∈ s.live → ∃ i ∈ L, s.heap.inUse i = true ∧
    s.heap.off i = al.offset ∧ s.heap.sz i = n
  handedOut : ∀ i ∈ L, s.heap.inUse i = true → ∃ al n, (al, n) ∈ s.live ∧
    s.heap.off i = al.offset ∧ s.heap.sz i = n
  served : ∀ n al heap, 1 ≤ n → n < 2 ^ 32 → s.heap.alloc n = some (al, heap) →
    (∃ i, heap.inUse i = true ∧ heap.off i = al.offset ∧ heap.sz i = n) ∧ al.offset + n ≤ size ∧
      ∀ al' n', (al', n') ∈ s.live → al.offset + n ≤ al'.offset ∨ al'.offset + n' ≤ al.offset
  emptied : s.live = [] → 0 < size →
    ∃ i, L = [i] ∧ s.heap.inUse i = false ∧ s.heap.off i = 0 ∧ s.heap.sz i = size

structure Inv (size cap : ℕ) (s : Ledger) (L : List ℕ) (B : ℕ → List ℕ) : Prop where
  heap : WellFormed s.heap L B
  owned : Owned s.heap L s.live
  capacity : s.heap.size = size
  budget : s.heap.maxAllocs = cap

variable {size cap : ℕ} {s t : Ledger} {L : List ℕ} {B : ℕ → List ℕ} {op : Op}
  {ops : List Op}

theorem start_inv (hs : size < 2 ^ 32) (hm : 1 ≤ cap) :
    ∃ L B, Inv size cap (start size cap) L B := by
  obtain ⟨L, B, hw, hfree⟩ := newAllocator_wellFormed hs hm
  refine ⟨L, B, hw, ⟨?_, ?_, ?_⟩, ?_, ?_⟩
  · intro x hx
    cases hx
  · exact nodup_nil
  · intro i
    constructor
    · intro hi
      cases hi
    · rintro ⟨hi, hu⟩
      rw [start, hfree i hi] at hu
      cases hu
  · exact newAllocator_capacity.1
  · exact newAllocator_capacity.2

variable {n : ℕ} {al : Allocation} {i k offset gen g : ℕ} {heap a : Allocator}

theorem Inv.alloc (hm : cap ≤ 2 ^ 17) (h : Inv size cap s L B) (hn : n < 2 ^ 32)
    (ha : s.heap.alloc n = some (al, heap)) :
    ∃ i L' B', Inv size cap ⟨heap, (al, n) :: s.live⟩ L' B' ∧
      Handout s.heap n al heap i L L' := by
  have hpool : s.heap.poolLen ≤ 2 ^ 18 := by
    rw [poolLen, h.budget]
    omega
  obtain ⟨i, L', B', hw, hh⟩ := h.heap.alloc hn ha
  obtain ⟨hc, hb⟩ := alloc_capacity ha
  exact ⟨i, L', B', ⟨hw, h.owned.alloc h.heap hpool hh, hc.trans h.capacity, hb.trans h.budget⟩, hh⟩

theorem Inv.free {l r : List ℕ}
    (h : Inv size cap s (l ++ i :: r) B) (hal : (al, n) ∈ s.live) (hi : al.slot = i)
    (hword : al.metaWord ≠ unusedIndex) :
    ∃ t l' r' B', s.step (.free al) = some t ∧ Inv size cap t (l' ++ i :: r') B' ∧
      Release s.heap i t.heap l r l' r' := by
  subst hi
  have hstep : s.step (.free al) = some ⟨s.heap.free al, s.live.filter (fun x => x.1 ≠ al)⟩ :=
    if_pos (mem_map_of_mem (f := Prod.fst) hal)
  obtain ⟨_, hu⟩ := (h.owned.members al.slot).mp (mem_map_of_mem hal)
  have heq : s.heap.free al = s.heap.freeSlot al.slot := by
    rw [Allocator.free, if_pos (h.owned.accepts h.heap hal hword)]
    rfl
  obtain ⟨l', r', B', hw, hrel⟩ := h.heap.freeSlot hu
  obtain ⟨hc, hb⟩ := free_capacity s.heap al
  rw [heq] at hc hb hstep
  exact ⟨_, l', r', B', hstep,
    ⟨hw, h.owned.release hal hrel, hc.trans h.capacity, hb.trans h.budget⟩, hrel⟩

theorem Inv.step (hm : cap ≤ 2 ^ 17) (h : Inv size cap s L B)
    (hd : s.Distinct op) (hs : s.step op = some t) : ∃ L' B', Inv size cap t L' B' := by
  cases op with
  | alloc n =>
    simp only [Ledger.step] at hs
    split at hs
    · rename_i hn
      rw [Option.some.injEq] at hs
      cases ha : s.heap.alloc n with
      | none =>
        simp only [ha] at hs
        exact ⟨L, B, hs ▸ h⟩
      | some res =>
        obtain ⟨al, heap⟩ := res
        simp only [ha] at hs
        obtain ⟨i, L', B', hinv, _⟩ := h.alloc hm hn.2 ha
        exact ⟨L', B', hs ▸ hinv⟩
    · cases hs
  | free al =>
    have hal : al ∈ s.live.map Prod.fst := by
      by_contra hno
      simp only [Ledger.step, if_neg hno] at hs
      cases hs
    obtain ⟨⟨al', n⟩, hx, rfl⟩ := mem_map.mp hal
    obtain ⟨hL, _⟩ := (h.owned.members al'.slot).mp (mem_map_of_mem hx)
    obtain ⟨l, r, rfl⟩ := append_of_mem hL
    obtain ⟨t', l', r', B', hstep, hinv, _⟩ := h.free hx rfl hd
    rw [hstep, Option.some.injEq] at hs
    exact ⟨l' ++ al'.slot :: r', B', hs ▸ hinv⟩

theorem run_inv (hs : size < 2 ^ 32) (hm1 : 1 ≤ cap) (hm : cap ≤ 2 ^ 17)
    (hd : Along step Distinct (start size cap) ops) (hr : run step (start size cap) ops = some s) :
    ∃ L B, Inv size cap s L B := by
  refine run_invariant (I := fun s => ∃ L B, Inv size cap s L B) ?_ (start_inv hs hm1) hd hr
  rintro s op t ⟨L, B, h⟩ hc ht
  exact h.step hm hc ht

private theorem Inv.storage (h : Inv size cap s L B) :
    s.heap.freeStorage + (s.live.map Prod.snd).sum = size := by
  have hnd : L.Nodup := (nodup_append.mp h.heap.nodup).2.1
  have hall : ∑ i ∈ L.toFinset, s.heap.sz i = size := by
    rw [sum_toFinset _ hnd, ← h.capacity]
    have hsum := h.heap.tiles.sum
    rw [Nat.zero_add] at hsum
    exact hsum
  have hused : ∑ i ∈ L.toFinset.filter (fun i => ¬ s.heap.inUse i = false), s.heap.sz i =
      (s.live.map Prod.snd).sum := by
    have hset : L.toFinset.filter (fun i => ¬ s.heap.inUse i = false) =
        (s.live.map (fun x => x.1.slot)).toFinset := by
      ext i
      rw [Finset.mem_filter, mem_toFinset, mem_toFinset, h.owned.members, Bool.not_eq_false]
    rw [hset, sum_toFinset _ h.owned.slots, map_map]
    congr 1
    apply map_congr_left
    intro x hx
    exact congrArg View.size (h.owned.record x hx)
  rw [h.heap.storage, ← hused, ← hall]
  exact Finset.sum_filter_add_sum_filter_not _ _ _

private theorem disjoint_of_tiles {m : ℕ} (h : Tiles a.off a.sz m L n)
    {j : ℕ} (hi : i ∈ L) (hj : j ∈ L) (hij : i ≠ j) :
    a.off i + a.sz i ≤ a.off j ∨ a.off j + a.sz j ≤ a.off i := by
  obtain ⟨u, v, rfl⟩ := append_of_mem hi
  have hp := pairwise_append.mp h.pairwise
  rcases mem_append.mp hj with hu | hv
  · exact Or.inr (hp.2.2 j hu i mem_cons_self)
  · rcases mem_cons.mp hv with rfl | hv
    · exact absurd rfl hij
    · exact Or.inl ((pairwise_cons.mp hp.2.1).1 j hv)

private theorem Inv.served (h : Inv size cap s L B) (hn : n < 2 ^ 32)
    (ha : s.heap.alloc n = some (al, heap)) :
    (∃ i, heap.inUse i = true ∧ heap.off i = al.offset ∧ heap.sz i = n) ∧ al.offset + n ≤ size ∧
      ∀ al' n', (al', n') ∈ s.live → al.offset + n ≤ al'.offset ∨ al'.offset + n' ≤ al.offset := by
  obtain ⟨i, L', B', _, hh⟩ := h.heap.alloc hn ha
  have hself := hh.slot
  have hin := h.heap.tiles.bounds hh.member
  have hfits := hh.fits
  refine ⟨⟨i, ?_, ?_, ?_⟩, ?_, ?_⟩
  · exact congrArg View.used hself
  · rw [hh.offset]
    exact congrArg View.offset hself
  · exact congrArg View.size hself
  · rw [hh.offset, ← h.capacity]
    omega
  intro al' n' hx
  have hrec := h.owned.record (al', n') hx
  obtain ⟨hL, hu⟩ := (h.owned.members al'.slot).mp (mem_map_of_mem hx)
  have hne : i ≠ al'.slot := by
    intro he
    rw [← he, hh.free] at hu
    cases hu
  have hoff : s.heap.off al'.slot = al'.offset := congrArg View.offset hrec
  have hsz : s.heap.sz al'.slot = n' := congrArg View.size hrec
  have hdis := disjoint_of_tiles h.heap.tiles hh.member hL hne
  rw [hh.offset]
  omega

private theorem Inv.emptied (h : Inv size cap s L B) (hl : s.live = []) (hpos : 0 < size) :
    ∃ i, L = [i] ∧ s.heap.inUse i = false ∧ s.heap.off i = 0 ∧ s.heap.sz i = size := by
  have hfree : ∀ i ∈ L, s.heap.inUse i = false := by
    intro i hi
    by_contra hu
    rw [Bool.not_eq_false] at hu
    have hm := (h.owned.members i).mpr ⟨hi, hu⟩
    rw [hl] at hm
    cases hm
  have htiles := h.heap.tiles
  rw [h.capacity] at htiles
  cases L with
  | nil =>
    have : 0 = size := htiles
    omega
  | cons i L =>
    cases L with
    | nil =>
      obtain ⟨ho, _, hs⟩ := htiles
      refine ⟨i, rfl, hfree i mem_cons_self, ho, ?_⟩
      have : 0 + s.heap.sz i = size := hs
      omega
    | cons j L =>
      have hc := (isChain_cons_cons.mp h.heap.coalesced).1
      rw [hfree i (by simp), hfree j (by simp)] at hc
      simp at hc

theorem Inv.sound (h : Inv size cap s L B) : Sound size s L B where
  pool := h.heap.pool
  linked := h.heap.linked
  ascending := by
    rw [← h.capacity]
    exact h.heap.tiles
  coalesced := h.heap.coalesced
  binLists b := ⟨h.heap.bins.linked b, h.heap.bins.head b, h.heap.bins.nodup b⟩
  binned b i := by
    rw [h.heap.bins.mem, mem_freeSlots, and_assoc]
    rfl
  leafMask := h.heap.bins.masks.leaf
  topMask t := by
    rw [h.heap.bins.masks.top, h.heap.bins.masks.row_ne_zero]
  storage := h.storage
  owners al n hx := by
    have hrec := h.owned.record (al, n) hx
    obtain ⟨hL, hu⟩ := (h.owned.members al.slot).mp (mem_map_of_mem hx)
    exact ⟨al.slot, hL, hu, congrArg View.offset hrec, congrArg View.size hrec⟩
  handedOut i hi hu := by
    obtain ⟨⟨al, n⟩, hx, rfl⟩ := mem_map.mp ((h.owned.members i).mpr ⟨hi, hu⟩)
    have hrec := h.owned.record (al, n) hx
    exact ⟨al, n, hx, congrArg View.offset hrec, congrArg View.size hrec⟩
  served n al heap _ hn ha := h.served hn ha
  emptied := h.emptied

/-- Every state that Alloc and Free of live handles can reach is exact, as long
as no freed handle carries the failed-Alloc word. -/
theorem every_run_sound (hs : size < 2 ^ 32) (hm1 : 1 ≤ cap) (hm : cap ≤ 2 ^ 17)
    (hd : Along step Distinct (start size cap) ops)
    (hr : run step (start size cap) ops = some s) : ∃ L B, Sound size s L B := by
  obtain ⟨L, B, h⟩ := run_inv hs hm1 hm hd hr
  exact ⟨L, B, h.sound⟩

theorem every_run_sound_small :
    ∃ s, run step (start 8 4) [.alloc 3, .alloc 2, .free ⟨0, 2 ^ 18⟩] = some s ∧
      ∃ L B, Sound 8 s L B := by
  have hd : Along step Distinct (start 8 4) [.alloc 3, .alloc 2, .free ⟨0, 2 ^ 18⟩] :=
    ⟨trivial,
      fun _ _ => ⟨trivial, fun _ _ => ⟨show 2 ^ 18 ≠ unusedIndex by decide, fun _ _ => trivial⟩⟩⟩
  exact ⟨_, rfl, every_run_sound (by decide) (by decide) (by decide) hd rfl⟩

/-- The state after `k` requests for one unit each: slots below `k` are handed
out in order and slot `k` is the rest of the capacity. -/
private structure Filled (size m k : ℕ) (s : Ledger) : Prop where
  inv : ∃ B, Inv size m s (range (k + 1)) B
  used : ∀ j < k, s.heap.view j = ⟨j, 1, true, 1⟩
  last : s.heap.view k = ⟨k, size - k, false, 0⟩
  stack : s.heap.stack = (range' (k + 1) (m * 2 - 1 - k)).reverse

private theorem start_filled (hs : size < 2 ^ 32) (hpos : 0 < size) (hm : 1 ≤ cap) :
    Filled size cap 0 (start size cap) := by
  obtain ⟨hstack, hview⟩ := newAllocator_first hpos hm
  obtain ⟨L, B, h⟩ := start_inv hs hm
  have hL : L = [0] := by
    have hp := h.heap.pool
    rw [poolLen, h.budget] at hp
    change ((newAllocator size cap).stack ++ L).Perm _ at hp
    have hr : range (cap * 2) = 0 :: range' 1 (cap * 2 - 1) := by
      rw [range_eq_range', range'_eq_cons_iff]
      exact ⟨rfl, by omega, rfl⟩
    rw [hstack, hr] at hp
    have hp' := hp.trans (perm_append_singleton 0 (range' 1 (cap * 2 - 1))).symm
    have hp'' := ((reverse_perm _).symm.append_right L).trans hp'
    exact perm_singleton.mp ((perm_append_left_iff _).mp hp'')
  subst hL
  exact ⟨⟨B, h⟩, fun j hj => absurd hj (Nat.not_lt_zero j), hview, hstack⟩

private theorem step_alloc_at (hm : cap ≤ 2 ^ 17) (h : Inv size cap s L B)
    (hn : 1 ≤ n) (hn32 : n < 2 ^ 32) (hpool : 0 < s.heap.freeOffset) (hi : i ∈ L)
    (hu : s.heap.inUse i = false) (hfit : uintToFloatRoundUp n ≤ s.heap.binOf i)
    (honly : ∀ j ∈ L, s.heap.inUse j = false → n ≤ s.heap.sz j → j = i) :
    ∃ al heap L' B', s.step (.alloc n) = some ⟨heap, (al, n) :: s.live⟩ ∧
      Inv size cap ⟨heap, (al, n) :: s.live⟩ L' B' ∧
      Handout s.heap n al heap i L L' := by
  obtain ⟨al, heap, ha⟩ := h.heap.alloc_succeeds hn hpool hi hu hfit
  obtain ⟨j, L', B', hinv, hh⟩ := h.alloc hm hn32 ha
  have hj := honly j hh.member hh.free hh.fits
  subst hj
  refine ⟨al, heap, L', B', ?_, hinv, hh⟩
  simp only [step, if_pos (And.intro hn hn32), ha]

private theorem Filled.next (hs : size < 2 ^ 32) (hm : cap ≤ 2 ^ 17)
    (h : Filled size cap k s) (hk : k + 1 < cap * 2) (hks : k + 1 < size) :
    ∃ t, s.step (.alloc 1) = some t ∧ Filled size cap (k + 1) t := by
  obtain ⟨B, hinv⟩ := h.inv
  have hku : s.heap.inUse k = false := congrArg View.used h.last
  have hksz : s.heap.sz k = size - k := congrArg View.size h.last
  have hkoff : s.heap.off k = k := congrArg View.offset h.last
  have hkgen : (s.heap.nodes k).gen = 0 := congrArg View.gen h.last
  have hlen : s.heap.freeOffset = cap * 2 - 1 - k := by
    have hl := congrArg length h.stack
    simpa using hl
  have hfit : uintToFloatRoundUp 1 ≤ s.heap.binOf k := by
    change _ ≤ uintToFloatRoundDown (s.heap.sz k)
    rw [hksz]
    exact roundDown_pos (by omega) (by omega)
  have honly : ∀ j ∈ range (k + 1), s.heap.inUse j = false → 1 ≤ s.heap.sz j → j = k := by
    intro j hj hju _
    by_contra hne
    have hlt : j < k := by
      have := mem_range.mp hj
      omega
    have hjt : s.heap.inUse j = true := congrArg View.used (h.used j hlt)
    rw [hjt] at hju
    cases hju
  obtain ⟨al, heap, L', B', hstep, hinv', hh⟩ := step_alloc_at hm hinv le_rfl (by omega)
    (by omega) (mem_range.mpr (by omega)) hku hfit honly
  have hself := hh.slot
  rw [hkoff, hkgen] at hself
  -- the rest is longer than the request, so the request splits it
  rcases hh.rest with ⟨hone, _⟩ | ⟨l, r, q, _, hL, hL', hst, hq, hv⟩
  · omega
  have hq1 : q = k + 1 ∧ heap.stack = (range' (k + 2) (cap * 2 - 1 - (k + 1))).reverse := by
    have hr : range' (k + 1) (cap * 2 - 1 - k) =
        (k + 1) :: range' (k + 2) (cap * 2 - 1 - (k + 1)) := by
      rw [range'_eq_cons_iff]
      exact ⟨rfl, by omega, rfl⟩
    rw [h.stack, hr, reverse_cons] at hst
    have hlast := append_inj_right' hst rfl
    have hinit := append_inj_left' hst rfl
    exact ⟨(cons.inj hlast).1.symm, hinit.symm⟩
  obtain ⟨rfl, hstack⟩ := hq1
  have hsplit : l = range k ∧ r = [] := by
    rw [range_succ] at hL
    have hkr : k ∉ range k := by simp
    obtain ⟨hleft, _, hright⟩ := (append_cons_inj_of_notMem hkr not_mem_nil).mp hL
    exact ⟨hleft.symm, hright.symm⟩
  obtain ⟨rfl, rfl⟩ := hsplit
  have hL2 : L' = range (k + 2) := by
    rw [hL', range_succ, range_succ, append_assoc]
    rfl
  subst hL2
  refine ⟨_, hstep, ⟨B', hinv'⟩, ?_, ?_, hstack⟩
  · intro j hj
    by_cases hjk : j = k
    · rw [hjk]
      exact hself
    · change heap.view j = _
      rw [hv j hjk (by omega)]
      exact h.used j (by omega)
  · change heap.view (k + 1) = _
    rw [hq, hkoff, hksz, Nat.sub_add_eq]

private theorem filled_run (hs : size < 2 ^ 32) (hm1 : 1 ≤ cap) (hm : cap ≤ 2 ^ 17)
    (hk : k < cap * 2) (hks : k < size) :
    ∃ s, run step (start size cap) (replicate k (.alloc 1)) = some s ∧ Filled size cap k s := by
  induction k with
  | zero => exact ⟨_, rfl, start_filled hs hks hm1⟩
  | succ k ih =>
    obtain ⟨s, hr, hf⟩ := ih (by omega) (by omega)
    obtain ⟨t, ht, hft⟩ := hf.next hs hm hk hks
    refine ⟨t, ?_, hft⟩
    rw [replicate_succ']
    exact run_concat_of hr ht

private theorem Inv.handle (h : Inv size cap s L B) (hi : i ∈ L)
    (hv : s.heap.view i = ⟨offset, n, true, gen⟩) :
    ∃ al, (al, n) ∈ s.live ∧ al.slot = i ∧ al.gen = gen ∧ al.offset = offset := by
  have hu : s.heap.inUse i = true := congrArg View.used hv
  obtain ⟨⟨al, m⟩, hx, rfl⟩ := mem_map.mp ((h.owned.members i).mpr ⟨hi, hu⟩)
  have hrec : s.heap.view al.slot = ⟨al.offset, m, true, al.gen⟩ := h.owned.record (al, m) hx
  rw [hv, View.mk.injEq] at hrec
  obtain ⟨ho, hn, _, hg⟩ := hrec
  subst hn
  exact ⟨al, hx, rfl, hg.symm, ho.symm⟩

private theorem handle_eq (ho : al.offset = offset)
    (hg : al.gen = gen) (hi : al.slot = i) : al = ⟨offset, gen <<< metaSlotBits ||| i⟩ := by
  have hword : al.gen <<< metaSlotBits ||| al.slot = al.metaWord := by
    have hlt : al.metaWord % 2 ^ 18 < 2 ^ 18 := Nat.mod_lt _ (by decide)
    change (al.metaWord >>> 18) <<< 18 ||| (al.metaWord &&& (1 <<< 18 - 1)) = al.metaWord
    rw [Nat.one_shiftLeft, Nat.and_two_pow_sub_one_eq_mod, ← Nat.shiftLeft_add_eq_or_of_lt hlt,
      Nat.shiftLeft_eq, Nat.shiftRight_eq_div_pow, Nat.mul_comm]
    exact Nat.div_add_mod _ _
  rw [← ho, ← hg, ← hi, hword]

/-- The state in which the last slot of the pool is free with generation `g` and three units, the
first two requests were released and the others are live. -/
private structure Wound (m g : ℕ) (s : Ledger) : Prop where
  inv : ∃ B, Inv (m * 2 + 2) m s (range' 1 (m * 2 - 2) ++ [m * 2 - 1]) B
  head : s.heap.sz 1 = 2
  used : ∀ j, 2 ≤ j → j < m * 2 - 1 → s.heap.inUse j = true
  last : s.heap.view (m * 2 - 1) = ⟨m * 2 - 1, 3, false, g⟩

private theorem Filled.wind (hm2 : 2 ≤ cap) (h : Filled (cap * 2 + 2) cap (cap * 2 - 1) s) :
    ∃ t, run step s [.free ⟨0, 1 <<< metaSlotBits ||| 0⟩, .free ⟨1, 1 <<< metaSlotBits ||| 1⟩] =
      some t ∧ Wound cap 0 t := by
  obtain ⟨B, hinv⟩ := h.inv
  have hord : range (cap * 2 - 1 + 1) =
      [] ++ 0 :: 1 :: 2 :: range' 3 (cap * 2 - 3) := by
    rw [range_eq_range', nil_append, range'_eq_cons_iff]
    refine ⟨rfl, by omega, ?_⟩
    symm
    rw [range'_eq_cons_iff]
    refine ⟨rfl, by omega, ?_⟩
    symm
    rw [range'_eq_cons_iff]
    exact ⟨rfl, by omega, rfl⟩
  rw [hord] at hinv
  -- slot 0 has no free neighbour
  obtain ⟨al, hlive, hslot, hgen, hoff⟩ := hinv.handle (by simp) (h.used 0 (by omega))
  have hal := handle_eq hoff hgen hslot
  obtain ⟨t₁, l', r', B₁, hstep, hinv₁, hrel⟩ := hinv.free hlive hslot (by rw [hal]; decide)
  have hu1 : s.heap.inUse 1 = true := congrArg View.used (h.used 1 (by omega))
  have hl : l' = [] := by
    rcases hrel.left with ⟨he, _⟩ | ⟨p, he, _⟩
    · exact he
    · simp at he
  have hr : r' = 1 :: 2 :: range' 3 (cap * 2 - 3) := by
    rcases hrel.right with ⟨he, _⟩ | ⟨q, he, hq⟩
    · exact he
    · obtain ⟨rfl, _⟩ := cons.inj he
      rw [hu1] at hq
      cases hq
  subst hl hr
  -- slot 1 swallows slot 0
  change Inv _ _ t₁ ([0] ++ 1 :: 2 :: range' 3 (cap * 2 - 3)) B₁ at hinv₁
  obtain ⟨al', hlive', hslot', hgen', hoff'⟩ := hinv₁.handle (i := 1) (by simp)
    ((hrel.others 1 (by omega)).trans (h.used 1 (by omega)))
  have hal' := handle_eq hoff' hgen' hslot'
  obtain ⟨t₂, l', r', B₂, hstep', hinv₂, hrel'⟩ := hinv₁.free hlive' hslot'
    (by rw [hal']; exact (by decide : 1 <<< metaSlotBits ||| 1 ≠ unusedIndex))
  have hu2 : t₁.heap.inUse 2 = true :=
    (congrArg View.used (hrel.others 2 (by omega))).trans (congrArg View.used (h.used 2 (by omega)))
  have hl : l' = [] := by
    rcases hrel'.left with ⟨_, hc⟩ | ⟨p, he, _⟩
    · have hbad := hc 0 rfl
      rw [hrel.free] at hbad
      cases hbad
    · cases l' with
      | nil => rfl
      | cons x l' => simp at he
  have hr : r' = 2 :: range' 3 (cap * 2 - 3) := by
    rcases hrel'.right with ⟨he, _⟩ | ⟨q, he, hq⟩
    · exact he
    · obtain ⟨rfl, _⟩ := cons.inj he
      rw [hu2] at hq
      cases hq
  subst hl hr
  have hview : ∀ j, j ≠ 0 → j ≠ 1 → t₂.heap.view j = s.heap.view j := by
    intro j hj hj'
    rw [hrel'.others j hj', hrel.others j hj]
  refine ⟨t₂, ?_, ⟨B₂, ?_⟩, ?_, ?_, ?_⟩
  · rw [← hal, ← hal']
    exact run_cons_of hstep (run_cons_of hstep' run_nil)
  · have hord₂ : range' 1 (cap * 2 - 2) ++ [cap * 2 - 1] =
        [] ++ 1 :: 2 :: range' 3 (cap * 2 - 3) := by
      obtain ⟨k, hk⟩ : ∃ k, cap * 2 = k + 3 := ⟨cap * 2 - 3, by omega⟩
      rw [hk]
      have hlast : range' 1 (k + 1) ++ [k + 2] = range' 1 (k + 2) := by
        rw [range'_concat (n := k + 1)]
        congr 2
        omega
      exact hlast
    rw [hord₂]
    exact hinv₂
  · obtain ⟨_, _, h2, _⟩ := hinv₂.heap.tiles
    have hoff2 : t₂.heap.off 2 = 2 :=
      (congrArg View.offset (hview 2 (by omega) (by omega))).trans
        (congrArg View.offset (h.used 2 (by omega)))
    omega
  · intro j hj hjm
    exact (congrArg View.used (hview j (by omega) (by omega))).trans
      (congrArg View.used (h.used j hjm))
  · rw [hview _ (by omega) (by omega), h.last]
    congr 1
    omega

def lastHandle (m g : ℕ) : Allocation := ⟨m * 2 - 1, g <<< metaSlotBits ||| (m * 2 - 1)⟩

private theorem Wound.take (hm : cap ≤ 2 ^ 17) (hm2 : 2 ≤ cap) (h : Wound cap g s)
    (hg : g + 1 < 2 ^ 14) :
    ∃ t B, s.step (.alloc 3) = some t ∧ t.live = (lastHandle cap (g + 1), 3) :: s.live ∧
      Inv (cap * 2 + 2) cap t (range' 1 (cap * 2 - 2) ++ [cap * 2 - 1]) B ∧
      t.heap.view (cap * 2 - 1) = ⟨cap * 2 - 1, 3, true, g + 1⟩ ∧
      ∀ j, j ≠ cap * 2 - 1 → t.heap.view j = s.heap.view j := by
  obtain ⟨B, hinv⟩ := h.inv
  have hlu : s.heap.inUse (cap * 2 - 1) = false := congrArg View.used h.last
  have hlsz : s.heap.sz (cap * 2 - 1) = 3 := congrArg View.size h.last
  have hloff : s.heap.off (cap * 2 - 1) = cap * 2 - 1 := congrArg View.offset h.last
  have hlgen : (s.heap.nodes (cap * 2 - 1)).gen = g := congrArg View.gen h.last
  have hpool : 0 < s.heap.freeOffset := by
    have hlen := hinv.heap.pool.length_eq
    rw [poolLen, hinv.budget] at hlen
    simp only [length_append, stack_length, length_range', length_cons,
      length_nil, length_range] at hlen
    omega
  have hfit : uintToFloatRoundUp 3 ≤ s.heap.binOf (cap * 2 - 1) := by
    change _ ≤ uintToFloatRoundDown (s.heap.sz (cap * 2 - 1))
    rw [hlsz]
    decide
  have honly : ∀ j ∈ range' 1 (cap * 2 - 2) ++ [cap * 2 - 1],
      s.heap.inUse j = false → 3 ≤ s.heap.sz j → j = cap * 2 - 1 := by
    intro j hj hju hjs
    by_contra hne
    have hr : 1 ≤ j ∧ j < cap * 2 - 1 := by
      rcases mem_append.mp hj with hj | hj
      · have := mem_range'_1.mp hj
        omega
      · exact absurd (mem_singleton.mp hj) hne
    by_cases h1 : j = 1
    · rw [h1, h.head] at hjs
      omega
    · rw [h.used j (by omega) hr.2] at hju
      cases hju
  obtain ⟨al, heap, L', B', hstep, hinv', hh⟩ := step_alloc_at hm hinv (by omega) (by omega) hpool
    (mem_append_right _ (mem_singleton.mpr rfl)) hlu hfit honly
  have hself := hh.slot
  have hmask : (g + 1) &&& genMask = g + 1 := by
    change (g + 1) &&& (1 <<< 14 - 1) = g + 1
    rw [Nat.one_shiftLeft, Nat.and_two_pow_sub_one_eq_mod, Nat.mod_eq_of_lt hg]
  rw [hloff, hlgen, hmask] at hself
  have hgen' : (heap.nodes (cap * 2 - 1)).gen = g + 1 := congrArg View.gen hself
  have hal : al = lastHandle cap (g + 1) := by
    have ho := hh.offset
    have hw := hh.word
    rw [hloff] at ho
    rw [hgen'] at hw
    obtain ⟨o, w⟩ := al
    exact congrArg₂ Allocation.mk ho hw
  rcases hh.rest with ⟨_, hL, _, hv⟩ | ⟨_, _, _, hlt, _⟩
  · subst hL
    exact ⟨_, B', hstep, by rw [hal], hinv', hself, hv⟩
  · omega

private theorem Wound.turn (hm : cap ≤ 2 ^ 17) (hm2 : 2 ≤ cap) (h : Wound cap g s)
    (hg : g + 2 < 2 ^ 14) :
    ∃ t, run step s [.alloc 3, .free (lastHandle cap (g + 1))] = some t ∧ Wound cap (g + 1) t := by
  obtain ⟨t, B, hstep, hlive, hinv, hlast, hother⟩ := h.take hm hm2 (by omega)
  have hlt : cap * 2 - 1 < 2 ^ 18 := by omega
  have hslot : (lastHandle cap (g + 1)).slot = cap * 2 - 1 := slot_of_word hlt
  have hword : (lastHandle cap (g + 1)).metaWord ≠ unusedIndex := by
    intro he
    have hgen : (lastHandle cap (g + 1)).gen = g + 1 := gen_of_word hlt
    rw [Allocation.gen, he] at hgen
    have : unusedIndex >>> metaSlotBits = 2 ^ 14 - 1 := by decide
    omega
  have hmem : (lastHandle cap (g + 1), 3) ∈ t.live := by
    rw [hlive]
    exact mem_cons_self
  obtain ⟨u, l', r', B', hstep', hinv', hrel⟩ := hinv.free hmem hslot hword
  have huse : ∀ j, 2 ≤ j → j < cap * 2 - 1 → t.heap.inUse j = true := by
    intro j hj hjm
    exact (congrArg View.used (hother j (by omega))).trans (h.used j hj hjm)
  have hr : r' = [] := by
    rcases hrel.right with ⟨he, _⟩ | ⟨q, he, _⟩
    · exact he
    · simp at he
  have hl : l' = range' 1 (cap * 2 - 2) := by
    rcases hrel.left with ⟨he, _⟩ | ⟨p, he, hp⟩
    · exact he
    -- the slot before the last one is handed out
    obtain ⟨k, hk⟩ : ∃ k, cap * 2 - 2 = k + 1 := ⟨cap * 2 - 3, by omega⟩
    rw [hk, range'_concat] at he
    have hpk := (cons.inj (append_inj_right' he rfl)).1
    rw [huse p (by omega) (by omega)] at hp
    cases hp
  subst hl hr
  have hview : ∀ j, j ≠ cap * 2 - 1 → u.heap.view j = s.heap.view j := by
    intro j hj
    rw [hrel.others j hj, hother j hj]
  refine ⟨u, ?_, ⟨B', hinv'⟩, ?_, ?_, ?_⟩
  · exact run_cons_of hstep (run_cons_of hstep' run_nil)
  · exact (congrArg View.size (hview 1 (by omega))).trans h.head
  · intro j hj hjm
    exact (congrArg View.used (hview j (by omega))).trans (h.used j hj hjm)
  -- the sizes around the slot have not changed, so its range has not either
  have hsz : ∀ j ∈ range' 1 (cap * 2 - 2), u.heap.sz j = t.heap.sz j := by
    intro j hj
    have := mem_range'_1.mp hj
    exact congrArg View.size (hrel.others j (by omega))
  obtain ⟨ho, hs⟩ := hinv'.heap.range_eq
  obtain ⟨ho', hs'⟩ := hinv.heap.range_eq
  rw [map_congr_left hsz] at ho
  rw [hinv'.capacity] at hs
  rw [hinv.capacity] at hs'
  rw [map_nil, sum_nil] at hs hs'
  have hoff : t.heap.off (cap * 2 - 1) = cap * 2 - 1 := congrArg View.offset hlast
  have hsize : t.heap.sz (cap * 2 - 1) = 3 := congrArg View.size hlast
  have hgen : (u.heap.nodes (cap * 2 - 1)).gen = g + 1 :=
    (hrel.gens _).trans (congrArg View.gen hlast)
  have hfree := hrel.free
  rw [view, hgen, hfree]
  congr 1
  · omega
  · omega

def turns (m k : ℕ) : List Op :=
  (range k).flatMap fun g => [.alloc 3, .free (lastHandle m (g + 1))]

/-- Fill a pool of `m` allocations, give the stack one slot back, and turn the last slot's
generation `k` times. -/
def wind (m k : ℕ) : List Op :=
  replicate (m * 2 - 1) (.alloc 1) ++
    ([.free ⟨0, 1 <<< metaSlotBits ||| 0⟩, .free ⟨1, 1 <<< metaSlotBits ||| 1⟩] ++ turns m k)

private theorem turns_succ (m k : ℕ) :
    turns m (k + 1) = turns m k ++ [.alloc 3, .free (lastHandle m (k + 1))] := by
  rw [turns, range_succ, flatMap_append]
  rfl

private theorem Wound.turns (hm : cap ≤ 2 ^ 17) (hm2 : 2 ≤ cap) (h : Wound cap 0 s)
    (hk : k + 1 < 2 ^ 14) : ∃ t, run step s (turns cap k) = some t ∧ Wound cap k t := by
  induction k with
  | zero => exact ⟨s, rfl, h⟩
  | succ k ih =>
    obtain ⟨t, hr, ht⟩ := ih (by omega)
    obtain ⟨u, hu, ht'⟩ := ht.turn hm hm2 (by omega)
    refine ⟨u, ?_, ht'⟩
    rw [turns_succ]
    exact run_append_of hr hu

private theorem leaks_of_word (hm : cap ≤ 2 ^ 17) (hm2 : 2 ≤ cap)
    (hk : k + 1 < 2 ^ 14) (hword : (lastHandle cap (k + 1)).metaWord = unusedIndex) :
    ∃ s, run step (start (cap * 2 + 2) cap) (wind cap (k + 1)) = some s ∧
      ¬ ∃ L B, Sound (cap * 2 + 2) s L B := by
  obtain ⟨s₁, hr₁, hf⟩ := filled_run (show cap * 2 + 2 < 2 ^ 32 by omega) (by omega) hm
    (show cap * 2 - 1 < cap * 2 by omega) (by omega)
  obtain ⟨s₂, hr₂, hw₂⟩ := hf.wind hm2
  obtain ⟨s₃, hr₃, hw₃⟩ := hw₂.turns hm hm2 hk
  obtain ⟨s₄, B, hstep, hlive, hinv, -, -⟩ := hw₃.take hm hm2 hk
  have hr : run step (start (cap * 2 + 2) cap) (wind cap k) = some s₃ :=
    run_append_of hr₁ (run_append_of hr₂ hr₃)
  rw [wind, turns_succ, ← append_assoc, ← append_assoc, append_assoc _ _ (turns cap k), ← wind]
  generalize lastHandle cap (k + 1) = al at *
  have hmem : al ∈ s₄.live.map Prod.fst := by
    rw [hlive]
    exact mem_cons_self
  -- the release passes no check, so only the client's ledger changes
  have hfree : s₄.heap.free al = s₄.heap := by
    rw [Allocator.free, if_neg]
    rw [Allocator.accepts, decide_eq_true_iff]
    exact fun hc => hc.1 hword
  have hlast : s₄.step (.free al) = some ⟨s₄.heap, s₄.live.filter (fun x => x.1 ≠ al)⟩ := by
    rw [step, if_pos hmem, hfree]
  refine ⟨⟨s₄.heap, s₄.live.filter (fun x => x.1 ≠ al)⟩, ?_, ?_⟩
  · exact run_append_of hr (run_cons_of hstep (run_cons_of hlast run_nil))
  rintro ⟨L, B', hsound⟩
  have hbefore := hinv.sound.storage
  have hafter : s₄.heap.freeStorage +
      ((s₄.live.filter (fun x => x.1 ≠ al)).map Prod.snd).sum = cap * 2 + 2 :=
    hsound.storage
  have hle : ((s₄.live.filter (fun x => x.1 ≠ al)).map Prod.snd).sum ≤
      (s₃.live.map Prod.snd).sum := by
    rw [hlive, filter_cons_of_neg (by simp)]
    exact ((filter_sublist).map _).sum_le_sum (fun _ _ => Nat.zero_le _)
  rw [hlive, map_cons, sum_cons] at hbefore
  omega

/-- At the full node-pool budget the last slot's last generation is the failed-Alloc
word: releasing that live handle is ignored and its three units stay handed out. -/
theorem last_slot_leaks :
    ∃ s, run step (start (2 ^ 17 * 2 + 2) (2 ^ 17)) (wind (2 ^ 17) (2 ^ 14 - 2 + 1)) = some s ∧
      ¬ ∃ L B, Sound (2 ^ 17 * 2 + 2) s L B :=
  leaks_of_word (Nat.le_refl _) (by decide) (by decide) (by decide)

end Ledger

end KVStash.Dram.OffsetAlloc
