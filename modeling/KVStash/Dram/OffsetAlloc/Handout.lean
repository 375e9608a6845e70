/- GID: KVStash/Dram/OffsetAlloc/Handout
   digest: The bin search finds a fitting range, and Alloc keeps the representation invariant. -/

import KVStash.Dram.OffsetAlloc.Invariant

set_option autoImplicit false

namespace KVStash.Dram.OffsetAlloc

open Foundation.BitMask Option List
open Foundation.LinkedSegment
open Dram.SmallFloat

private theorem testBit_from (mask start k : ℕ) :
    (andNot mask ((1 <<< start) - 1)).testBit k = (mask.testBit k && decide (start ≤ k)) := by
  rw [testBit_andNot, Nat.one_shiftLeft, Nat.testBit_two_pow_sub_one]
  by_cases h : k < start
  · simp [h]
  · simp [h, Nat.le_of_not_lt h]

variable {mask start k b j : ℕ}

theorem findLowestSetBitAfter_some (h32 : mask < 2 ^ 32)
    (h : findLowestSetBitAfter mask start = some k) : mask.testBit k = true ∧ start ≤ k := by
  unfold findLowestSetBitAfter at h
  dsimp only at h
  split at h
  · cases h
  rename_i hne
  rw [some.injEq] at h
  have hbit := (trailingZeros32_spec (andNot_lt h32) hne).1
  rw [h, testBit_from, Bool.and_eq_true, decide_eq_true_iff] at hbit
  exact hbit

theorem findLowestSetBitAfter_none
    (h : findLowestSetBitAfter mask start = none) (hk : start ≤ k) : mask.testBit k = false := by
  unfold findLowestSetBitAfter at h
  dsimp only at h
  split at h
  · rename_i hz
    have hbit := testBit_from mask start k
    rw [hz, Nat.zero_testBit] at hbit
    simpa [hk] using hbit.symm
  · cases h

namespace Allocator

variable {a a' : Allocator} {S : Finset ℕ} {L l r : List ℕ} {i n t leaf offset rem : ℕ}
  {B : ℕ → List ℕ} {al : Allocation}

theorem BinsOk.findBin_sound (h : BinsOk a S B) (hf : a.findBin n = some (t, leaf)) :
    leaf < 8 ∧ B (8 * t + leaf) ≠ [] ∧ uintToFloatRoundUp n ≤ 8 * t + leaf := by
  obtain ⟨hsplit, hleaf⟩ := bin_split (uintToFloatRoundUp n)
  have hrow : ∀ t, a.usedBins t < 2 ^ 32 :=
    fun t => Nat.lt_of_lt_of_le (h.masks.leafWidth t) (by decide)
  have hbin : ∀ t l, (a.usedBins t).testBit l = true → l < 8 ∧ B (8 * t + l) ≠ [] := by
    intro t l hb
    have hlt := testBit_lt_width (h.masks.leafWidth t) hb
    exact ⟨hlt, (h.masks.leaf t l hlt).mp hb⟩
  unfold findBin at hf
  dsimp only at hf
  split at hf
  · -- the request's own row has a leaf at or above the request's leaf
    rename_i leaf' hs
    obtain ⟨rfl, rfl⟩ := Prod.mk.inj (some.inj hf)
    split at hs
    · obtain ⟨hb, hle⟩ := findLowestSetBitAfter_some (hrow _) hs
      obtain ⟨hlt, hne⟩ := hbin _ _ hb
      exact ⟨hlt, hne, by omega⟩
    · cases hs
  · split at hf
    · -- any leaf of a higher row will do
      rename_i top hs
      obtain ⟨rfl, rfl⟩ := Prod.mk.inj (some.inj hf)
      obtain ⟨hb, hle⟩ := findLowestSetBitAfter_some h.masks.topWidth hs
      have hz := (trailingZeros32_spec (hrow top) ((h.masks.top top).mp hb)).1
      obtain ⟨hlt, hne⟩ := hbin _ _ hz
      exact ⟨hlt, hne, by omega⟩
    · cases hf

theorem BinsOk.findBin_complete (h : BinsOk a S B) (hb : B b ≠ [])
    (hle : uintToFloatRoundUp n ≤ b) : a.findBin n ≠ none := by
  obtain ⟨hsplit, hleaf⟩ := bin_split (uintToFloatRoundUp n)
  obtain ⟨hsplit', hleaf'⟩ := bin_split b
  have hbit : (a.usedBins (b >>> topBinsIndexShift)).testBit (b &&& leafBinsIndexMask) = true := by
    rw [h.masks.leaf _ _ hleaf', hsplit']
    exact hb
  have htop : a.usedBinsTop.testBit (b >>> topBinsIndexShift) = true := by
    rw [h.masks.top, ne_zero_iff_testBit]
    exact ⟨_, hbit⟩
  intro hf
  unfold findBin at hf
  dsimp only at hf
  split at hf
  · cases hf
  rename_i hsame
  split at hf
  · cases hf
  rename_i habove
  by_cases ht : b >>> topBinsIndexShift = uintToFloatRoundUp n >>> topBinsIndexShift
  · rw [ht] at hbit htop
    rw [if_pos ((and_bit_ne_zero _ _).mpr htop)] at hsame
    have hno := findLowestSetBitAfter_none hsame
      (k := b &&& leafBinsIndexMask) (by omega)
    rw [hno] at hbit
    cases hbit
  · have hno := findLowestSetBitAfter_none habove
      (k := b >>> topBinsIndexShift) (by omega)
    rw [hno] at htop
    cases htop

/-- The links aside, what a slot's record says. -/
structure View where
  offset : ℕ
  size : ℕ
  used : Bool
  gen : ℕ
  deriving DecidableEq, Repr

def view (a : Allocator) (i : ℕ) : View :=
  ⟨a.off i, a.sz i, a.inUse i, (a.nodes i).gen⟩

/-- What a successful Alloc of `n` units does: slot `i` of the neighbour order
`L` is handed out, and a remainder, if any, becomes the slot after it in `L'`. -/
structure Handout (a : Allocator) (n : ℕ) (al : Allocation) (a' : Allocator) (i : ℕ)
    (L L' : List ℕ) : Prop where
  member : i ∈ L
  free : a.inUse i = false
  fits : n ≤ a.sz i
  pos : 0 < n
  offset : al.offset = a.off i
  word : al.metaWord = (a'.nodes i).gen <<< metaSlotBits ||| i
  slot : a'.view i = ⟨a.off i, n, true, ((a.nodes i).gen + 1) &&& genMask⟩
  rest : (a.sz i = n ∧ L' = L ∧ a'.stack = a.stack ∧ ∀ j, j ≠ i → a'.view j = a.view j) ∨
    ∃ l r k, n < a.sz i ∧ L = l ++ i :: r ∧ L' = l ++ i :: k :: r ∧ a.stack = a'.stack ++ [k] ∧
      a'.view k = ⟨a.off i + n, a.sz i - n, false, 0⟩ ∧
      ∀ j, j ≠ i → j ≠ k → a'.view j = a.view j

theorem SameRanges.view_eq (h : SameRanges a a') (hu : ∀ j, a'.inUse j = a.inUse j) (j : ℕ) :
    a'.view j = a.view j := by
  rw [view, view, off, off, sz, sz, h.dataOffset, h.dataSize, h.gen, hu]

theorem stack_pop (h : 0 < a.freeOffset) : a.stack = a.popNode.2.stack ++ [a.popNode.1] := by
  have hs : a.freeOffset = a.freeOffset - 1 + 1 := by omega
  rw [stack, hs, range_succ, map_append]
  rfl

/-- The state of `splitAfter` before the remainder is parked. -/
private def carved (a : Allocator) (i n rem : ℕ) : Allocator :=
  let k := a.popNode.1
  let nd := a.nodes i
  let a := a.popNode.2.setNode k {
    dataOffset := nd.dataOffset + n
    dataSize := rem
    neighborPrev := some i
    neighborNext := nd.neighborNext }
  let a := a.onSlot nd.neighborNext fun m => { m with neighborPrev := some k }
  a.onSlot (some i) fun m => { m with neighborNext := some k }

private theorem splitAfter_eq (a : Allocator) (i n rem : ℕ) :
    a.splitAfter i n rem = (a.carved i n rem).insertExistingNodeIntoBin a.popNode.1 := rfl

private theorem carved_new (n rem : ℕ) (hi : a.popNode.1 ≠ i) (hn : a.nbNext i ≠ some a.popNode.1) :
    (a.carved i n rem).nodes a.popNode.1 =
      { dataOffset := a.off i + n, dataSize := rem, neighborPrev := some i,
        neighborNext := a.nbNext i } := by
  have h1 : (some i : Option ℕ) ≠ some a.popNode.1 := fun he => hi (some.inj he).symm
  have h2 : (a.nodes i).neighborNext ≠ some a.popNode.1 := hn
  simp only [carved, onSlot_nodes, if_neg h1, if_neg h2, setNode_nodes, Function.update_self]
  rfl

private theorem carved_old (i n rem : ℕ) (hj : j ≠ a.popNode.1) :
    (a.carved i n rem).nodes j =
      { a.nodes j with
        neighborPrev :=
          if (a.nodes i).neighborNext = some j then some a.popNode.1
          else (a.nodes j).neighborPrev
        neighborNext := if i = j then some a.popNode.1 else (a.nodes j).neighborNext } := by
  simp only [carved, onSlot_nodes, setNode_nodes, Function.update_of_ne hj, some.injEq]
  by_cases h1 : i = j
  · by_cases h2 : (a.nodes i).neighborNext = some j
    · simp only [if_pos h1, if_pos h2]
      rfl
    · simp only [if_pos h1, if_neg h2]
      rfl
  · by_cases h2 : (a.nodes i).neighborNext = some j
    · simp only [if_neg h1, if_pos h2]
      rfl
    · simp only [if_neg h1, if_neg h2]
      rfl

private theorem carved_fields (a : Allocator) (i n rem : ℕ) :
    (a.carved i n rem).size = a.size ∧ (a.carved i n rem).maxAllocs = a.maxAllocs ∧
      (a.carved i n rem).freeStorage = a.freeStorage ∧
      (a.carved i n rem).usedBinsTop = a.usedBinsTop ∧
      (a.carved i n rem).usedBins = a.usedBins ∧
      (a.carved i n rem).binIndices = a.binIndices ∧
      (a.carved i n rem).stack = a.popNode.2.stack := by
  refine ⟨?_, ?_, ?_, ?_, ?_, ?_, ?_⟩
  iterate 6
    · simp [carved, popNode]
  · exact stack_congr (by simp [carved]) (by simp [carved])

private theorem carved_view_old (i n rem : ℕ) (hj : j ≠ a.popNode.1) :
    (a.carved i n rem).view j = a.view j := by
  rw [view, view, off, off, sz, sz, inUse, inUse, carved_old i n rem hj]

section Carve

variable (h : InHand a l i r offset (n + rem) B) (hpool : 0 < a.freeOffset)
include h hpool

private theorem InHand.popped_not_mem : a.popNode.1 ∉ l ++ i :: r := by
  apply h.stack_not_mem
  rw [stack_pop hpool]
  exact mem_append_right _ (mem_singleton.mpr rfl)

private theorem InHand.carved_new_node :
    (a.carved i n rem).nodes a.popNode.1 =
      { dataOffset := a.off i + n, dataSize := rem, neighborPrev := some i,
        neighborNext := a.nbNext i } := by
  have hk := h.popped_not_mem hpool
  refine carved_new n rem (fun he => hk (he ▸ mem_append_right l mem_cons_self)) fun he => ?_
  rw [h.linked.at_member.2] at he
  exact hk (mem_append_right l (mem_cons_of_mem i (mem_of_first_none he)))

private theorem InHand.carved_view {j : ℕ} (hj : j ∈ l ++ i :: r) :
    (a.carved i n rem).view j = a.view j :=
  carved_view_old i n rem fun he => h.popped_not_mem hpool (he ▸ hj)

private theorem InHand.carved_linked :
    Linked (a.carved i n rem).nbNext (a.carved i n rem).nbPrev none
      ((l ++ [i]) ++ a.popNode.1 :: r) none := by
  have hk := h.popped_not_mem hpool
  have hnew := h.carved_new_node hpool
  obtain ⟨_, hnext⟩ := h.linked.at_member
  have hlk := h.linked
  have hnd := h.order_nodup
  rw [append_cons] at hlk hnd hk
  have hold : ∀ j ∈ (l ++ [i]) ++ r, (a.carved i n rem).nodes j = _ := fun j hj =>
    carved_old i n rem fun he => hk (he ▸ hj)
  refine hlk.insert hnd ?_ ?_ ?_ ?_
  · rw [nbPrev, hnew, final_concat]
  · rw [nbNext, hnew]
    exact hnext
  · intro j hj
    rw [nbNext, hold j hj, final_concat]
    simp only [some.injEq]
    rfl
  · intro j hj
    rw [nbPrev, hold j hj, ← hnext]
    rfl

private theorem InHand.carved_bins (hu : a.inUse i = true) :
    BinsOk (a.carved i n rem) ((a.carved i n rem).freeSlots ((l ++ [i]) ++ r)) B ∧
      (a.carved i n rem).freeStorage =
        ∑ j ∈ (a.carved i n rem).freeSlots ((l ++ [i]) ++ r), (a.carved i n rem).sz j := by
  obtain ⟨-, -, fstore, ftop, fleaf, fbin, -⟩ := carved_fields a i n rem
  have huse : ∀ j ∈ l ++ i :: r, (a.carved i n rem).inUse j = a.inUse j := fun j hj =>
    congrArg View.used (h.carved_view hpool hj)
  have hfree : (a.carved i n rem).freeSlots ((l ++ [i]) ++ r) = a.freeSlots (l ++ r) := by
    rw [append_assoc, singleton_append, freeSlots_congr huse, freeSlots_used hu]
  have hsub : ∀ j ∈ a.freeSlots (l ++ r), j ∈ l ++ i :: r := fun j hj =>
    ((sublist_cons_self i r).append_left l).subset (mem_freeSlots.mp hj).1
  have hsz : ∀ j ∈ a.freeSlots (l ++ r), (a.carved i n rem).sz j = a.sz j := fun j hj =>
    congrArg View.size (h.carved_view hpool (hsub j hj))
  have hold : ∀ j ∈ a.freeSlots (l ++ r), (a.carved i n rem).nodes j = _ := fun j hj =>
    carved_old i n rem fun he => h.popped_not_mem hpool (he ▸ hsub j hj)
  rw [hfree]
  refine ⟨h.bins.frame fbin fleaf ftop (fun j hj => ?_) (fun j hj => ?_) hsz, ?_⟩
  · rw [binNext, hold j hj]
    rfl
  · rw [binPrev, hold j hj]
    rfl
  · rw [fstore, h.storage]
    exact Finset.sum_congr rfl fun j hj => (hsz j hj).symm

private theorem InHand.carved_pool :
    ((a.carved i n rem).stack ++ ((l ++ [i]) ++ a.popNode.1 :: r)).Perm
        (range (a.carved i n rem).poolLen) ∧
      ∀ j ∈ (a.carved i n rem).stack, (a.carved i n rem).inUse j = false := by
  obtain ⟨-, fmax, -, -, -, -, fstack⟩ := carved_fields a i n rem
  have hstack := stack_pop hpool
  rw [fstack, poolLen, fmax]
  constructor
  · refine List.Perm.trans ?_ h.pool
    rw [hstack, append_assoc, append_assoc]
    apply List.Perm.append_left
    rw [← append_assoc]
    refine perm_middle.trans ?_
    simp
  · intro j hj
    have hmem : j ∈ a.stack := by
      rw [hstack]
      exact mem_append_left _ hj
    have hjk : j ≠ a.popNode.1 := by
      rintro rfl
      have hsn := (nodup_append.mp h.nodup).1
      rw [hstack] at hsn
      exact (nodup_append.mp hsn).2.2 _ hj _ (mem_singleton.mpr rfl) rfl
    exact (congrArg View.used (carved_view_old i n rem hjk)).trans (h.idle j hmem)

private theorem InHand.carved_gens (j : ℕ) : ((a.carved i n rem).nodes j).gen < 2 ^ 14 := by
  by_cases hj : j = a.popNode.1
  · rw [hj, h.carved_new_node hpool]
    exact Nat.two_pow_pos 14
  · rw [carved_old i n rem hj]
    exact h.gens j

private theorem InHand.carve (hu : a.inUse i = true)
    (ho : a.off i = offset) (hs : a.sz i = n) (hn : 0 < n) (hrem : 0 < rem) :
    InHand (a.carved i n rem) (l ++ [i]) a.popNode.1 r (offset + n) rem B := by
  obtain ⟨fsize, -⟩ := carved_fields a i n rem
  have hleft : ∀ j ∈ l ++ [i], (a.carved i n rem).view j = a.view j := fun j hj =>
    h.carved_view hpool (by rw [append_cons]; exact mem_append_left r hj)
  have hright : ∀ j ∈ r, (a.carved i n rem).view j = a.view j := fun j hj =>
    h.carved_view hpool (mem_append_right l (mem_cons_of_mem i hj))
  have htiles : Tiles a.off a.sz 0 (l ++ [i]) (offset + n) :=
    tiles_append.mpr ⟨offset, h.before, ho, hs.symm ▸ hn, hs.symm ▸ rfl⟩
  have hcl : a.Coalesced (l ++ [i]) :=
    coalesced_around.mpr ⟨h.coalescedBefore, List.IsChain.nil, Or.inl hu⟩
  obtain ⟨hbins, hstore⟩ := h.carved_bins hpool hu
  obtain ⟨hperm, hidle⟩ := h.carved_pool hpool
  refine ⟨h.carved_linked hpool, ?_, ?_, hrem, ?_, ?_, hbins, hstore, hperm, hidle,
    h.carved_gens hpool, ?_⟩
  · exact htiles.congr (fun j hj => congrArg View.offset (hleft j hj))
      fun j hj => congrArg View.size (hleft j hj)
  · rw [fsize, Nat.add_assoc]
    exact h.after.congr (fun j hj => congrArg View.offset (hright j hj))
      fun j hj => congrArg View.size (hright j hj)
  · exact hcl.congr fun j hj => congrArg View.used (hleft j hj)
  · exact h.coalescedAfter.congr fun j hj => congrArg View.used (hright j hj)
  · rw [fsize]
    exact h.bound

end Carve

private theorem InHand.splitAfter (h : InHand a l i r offset (n + rem) B)
    (hu : a.inUse i = true) (ho : a.off i = offset) (hs : a.sz i = n) (hn : 0 < n)
    (hrem : 0 < rem) (hpool : 0 < a.freeOffset) (hr : a.Closed (first r none)) :
    ∃ k B', WellFormed (a.splitAfter i n rem) (l ++ i :: k :: r) B' ∧ k ≠ i ∧
      a.stack = (a.splitAfter i n rem).stack ++ [k] ∧
      (a.splitAfter i n rem).view k = ⟨offset + n, rem, false, 0⟩ ∧
      ∀ j, j ≠ k → (a.splitAfter i n rem).view j = a.view j := by
  have hcarve := h.carve hpool hu ho hs hn hrem
  have hki : a.popNode.1 ≠ i := by
    intro he
    exact hcarve.slot_not_mem (by simp [he])
  have hnew := h.carved_new_node hpool
  have hclosed : (a.carved i n rem).Closed (first r none) := by
    intro j hj
    have hjk : j ≠ a.popNode.1 := by
      rintro rfl
      exact hcarve.slot_not_mem (mem_append_right _ (mem_of_first_none hj))
    exact (congrArg View.used (carved_view_old i n rem hjk)).trans (hr j hj)
  have hclosed' : (a.carved i n rem).Closed (final none (l ++ [i])) := by
    intro j hj
    rw [final_concat, some.injEq] at hj
    subst hj
    exact (congrArg View.used (carved_view_old _ n rem hki.symm)).trans hu
  have hpark := hcarve.park (by rw [off, hnew, ho]) (by rw [sz, hnew]) hclosed' hclosed
  have hsame := insert_sameRanges (a.carved i n rem) a.popNode.1
  rw [← append_cons] at hpark
  refine ⟨a.popNode.1, _, hpark, hki, ?_, ?_, ?_⟩
  · rw [splitAfter_eq, stack_congr hsame.freeNodes hsame.freeOffset]
    obtain ⟨_, _, _, _, _, _, hst⟩ := carved_fields a i n rem
    rw [hst]
    exact stack_pop hpool
  · rw [splitAfter_eq, view, off, sz, inUse, insert_used, if_pos rfl, hsame.dataOffset,
      hsame.dataSize, hsame.gen, hnew, ho]
  · intro j hj
    rw [splitAfter_eq, ← carved_view_old i n rem hj, view, view, off, off,
      sz, sz, inUse, inUse, hsame.dataOffset, hsame.dataSize, hsame.gen, insert_used,
      if_neg (Ne.symm hj)]

theorem alloc_some (h : a.alloc n = some (al, a')) :
    n ≠ 0 ∧ 0 < a.freeOffset ∧ ∃ t leaf i, a.findBin n = some (t, leaf) ∧
      a.binIndices (t <<< topBinsIndexShift ||| leaf) = some i ∧
      a' = (if a.sz i - n > 0 then (a.takeHead i t leaf n).splitAfter i n (a.sz i - n)
        else a.takeHead i t leaf n) ∧
      al = ⟨a'.off i, (a'.nodes i).gen <<< metaSlotBits ||| i⟩ := by
  unfold alloc at h
  split at h
  · cases h
  rename_i hn
  split at h
  · cases h
  rename_i hpool
  split at h
  · cases h
  rename_i t leaf hfind
  split at h
  · cases h
  rename_i i hhead
  obtain ⟨rfl, rfl⟩ := Prod.mk.inj (some.inj h)
  exact ⟨hn, by omega, t, leaf, i, hfind, hhead, rfl, rfl⟩

theorem alloc_capacity (h : a.alloc n = some (al, a')) :
    a'.size = a.size ∧ a'.maxAllocs = a.maxAllocs := by
  obtain ⟨_, _, t, leaf, i, _, _, ha', _⟩ := alloc_some h
  have hsame := unlinkHead_sameRanges a i (t <<< topBinsIndexShift ||| leaf) t leaf
  have htake : (a.takeHead i t leaf n).size = a.size ∧
      (a.takeHead i t leaf n).maxAllocs = a.maxAllocs := by
    simp only [takeHead, onSlot_size, onSlot_maxAllocs]
    exact ⟨hsame.size, hsame.maxAllocs⟩
  rw [ha']
  split
  · rw [splitAfter_eq]
    have hpark := insert_sameRanges ((a.takeHead i t leaf n).carved i n (a.sz i - n))
      (a.takeHead i t leaf n).popNode.1
    obtain ⟨hs, hm, _⟩ := carved_fields (a.takeHead i t leaf n) i n (a.sz i - n)
    exact ⟨hpark.size.trans (hs.trans htake.1), hpark.maxAllocs.trans (hm.trans htake.2)⟩
  · exact htake

private theorem WellFormed.takeHead (h : WellFormed a (l ++ i :: r) B) {rest : List ℕ}
    (hB : B b = i :: rest) (hb : 8 * t + leaf = b) (hl : leaf < 8) (hu : a.inUse i = false) :
    InHand (a.takeHead i t leaf n) l i r (a.off i) (a.sz i) (fun b => (B b).erase i) ∧
      (a.takeHead i t leaf n).view i = ⟨a.off i, n, true, ((a.nodes i).gen + 1) &&& genMask⟩ ∧
      (∀ j, j ≠ i → (a.takeHead i t leaf n).view j = a.view j) ∧
      (a.takeHead i t leaf n).stack = a.stack ∧
      (a.takeHead i t leaf n).freeOffset = a.freeOffset := by
  have hbin : t <<< topBinsIndexShift ||| leaf = b := (bin_join hl).trans hb
  have hsame := unlinkHead_sameRanges a i b t leaf
  obtain ⟨h1, h2, h3, h4, h5, h6, h7, h8, h9⟩ := hsame
  -- the state with the head unlinked and its size taken off the free storage
  let u : Allocator := { a.unlinkHead i b t leaf with freeStorage := a.freeStorage - a.sz i }
  have hsame' : SameRanges a u := ⟨h1, h2, h3, h4, h5, h6, h7, h8, h9⟩
  have huse : ∀ j, u.inUse j = a.inUse j := fun j => unlinkHead_used a i b t leaf j
  have hbins : BinsOk u ((a.freeSlots (l ++ i :: r)).erase i) (fun b => (B b).erase i) :=
    (h.bins.unlinkHead hB hb hl).frame rfl rfl rfl (fun _ _ => rfl) (fun _ _ => rfl)
      (fun _ _ => rfl)
  have hhand := h.take hu hsame' huse hbins rfl
  have htake : a.takeHead i t leaf n = u.onSlot (some i) fun nd =>
      { nd with
        dataSize := n
        used := true
        gen := (nd.gen + 1) &&& genMask
        binListPrev := none
        binListNext := none } := by
    simp only [Allocator.takeHead, hbin, unlinkHead_freeStorage]
    rfl
  have hgen : ((u.nodes i).gen + 1) &&& genMask < 2 ^ 14 := by
    have hle : ((u.nodes i).gen + 1) &&& genMask ≤ genMask := Nat.and_le_right
    have hmask : genMask < 2 ^ 14 := by decide
    omega
  refine ⟨?_, ?_, ?_, ?_, ?_⟩
  · rw [htake]
    exact hhand.rewrite rfl rfl hgen
  · rw [htake, view, off, sz, inUse, onSlot_nodes, if_pos rfl]
    simp only [View.mk.injEq, true_and]
    exact ⟨hsame'.dataOffset i, by rw [hsame'.gen]⟩
  · intro j hj
    rw [← hsame'.view_eq huse j, htake]
    simp only [view, off, sz, inUse, onSlot_nodes]
    rw [if_neg (fun he => hj (some.inj he).symm)]
  · rw [htake]
    refine stack_congr ?_ ?_
    · rw [onSlot_freeNodes]
      exact hsame'.freeNodes
    · rw [onSlot_freeOffset]
      exact hsame'.freeOffset
  · rw [htake, onSlot_freeOffset]
    exact hsame'.freeOffset

private theorem WellFormed.head_fits (h : WellFormed a L B) (hn : n < 2 ^ 32)
    (hfind : a.findBin n = some (t, leaf))
    (hhead : a.binIndices (t <<< topBinsIndexShift ||| leaf) = some i) :
    leaf < 8 ∧ (∃ rest, B (8 * t + leaf) = i :: rest) ∧ i ∈ L ∧ a.inUse i = false ∧
      n ≤ a.sz i := by
  obtain ⟨hl, _, hle⟩ := h.bins.findBin_sound hfind
  rw [bin_join hl, h.bins.head] at hhead
  obtain ⟨rest, hB⟩ := eq_cons_of_first hhead
  have hm : i ∈ B (8 * t + leaf) := by rw [hB]; exact mem_cons_self
  obtain ⟨hfree, hbin⟩ := (h.bins.mem _ i).mp hm
  obtain ⟨hL, hu⟩ := mem_freeSlots.mp hfree
  refine ⟨hl, ⟨rest, hB⟩, hL, hu, ?_⟩
  apply le_of_roundUp_le_roundDown hn (h.bins.small i hfree)
  rw [← hbin] at hle
  exact hle

theorem WellFormed.alloc (h : WellFormed a L B) (hn : n < 2 ^ 32) (ha : a.alloc n = some (al, a')) :
    ∃ i L' B', WellFormed a' L' B' ∧ Handout a n al a' i L L' := by
  obtain ⟨hpos, hpool, t, leaf, i, hfind, hhead, ha', hal⟩ := alloc_some ha
  obtain ⟨hl, ⟨rest, hB⟩, hL, hu, hfit⟩ := h.head_fits hn hfind hhead
  obtain ⟨l, r, rfl⟩ := append_of_mem hL
  obtain ⟨hhand, hview, hother, hstack, hoff⟩ := h.takeHead (n := n) hB rfl hl hu
  have vo : (a.takeHead i t leaf n).off i = a.off i := congrArg View.offset hview
  have vs : (a.takeHead i t leaf n).sz i = n := congrArg View.size hview
  have vu : (a.takeHead i t leaf n).inUse i = true := congrArg View.used hview
  by_cases hrem : a.sz i - n > 0
  · -- the range is longer than asked for: the remainder is parked right after it
    rw [if_pos hrem] at ha'
    have hsum : a.sz i = n + (a.sz i - n) := by omega
    rw [hsum] at hhand
    have hclosed : (a.takeHead i t leaf n).Closed (first r none) := by
      rcases (coalesced_around.mp h.coalesced).2.2 with hbad | ⟨_, hr⟩
      · simp [hu] at hbad
      intro j hj
      have hji : j ≠ i := by
        rintro rfl
        exact hhand.slot_not_mem (mem_append_right _ (mem_of_first_none hj))
      exact (congrArg View.used (hother j hji)).trans (hr j hj)
    obtain ⟨k, B', hwf, hki, hpop, hnew, hold⟩ := hhand.splitAfter vu vo vs (by omega) hrem
      (by rw [hoff]; exact hpool) hclosed
    rw [← ha'] at hwf hpop hnew hold
    refine ⟨i, l ++ i :: k :: r, B', hwf, hL, hu, hfit, by omega, ?_, ?_, ?_,
      Or.inr ⟨l, r, k, by omega, rfl, rfl, ?_, hnew, ?_⟩⟩
    · rw [hal]
      exact (congrArg View.offset (hold i hki.symm)).trans vo
    · rw [hal]
    · rw [hold i hki.symm]
      exact hview
    · rw [← hstack]
      exact hpop
    · intro j hji hjk
      rw [hold j hjk]
      exact hother j hji
  · rw [if_neg hrem] at ha'
    have hsz : a.sz i = n := by omega
    rw [hsz] at hhand
    subst ha'
    refine ⟨i, l ++ i :: r, _, hhand.handOut vu vo vs, hL, hu, hfit, by omega, ?_, ?_, hview,
      Or.inl ⟨hsz, rfl, hstack, hother⟩⟩
    · rw [hal]
      exact vo
    · rw [hal]

/-- A request is refused only when the node pool is exhausted or no bin that
guarantees a fit has a member. -/
theorem WellFormed.alloc_succeeds (h : WellFormed a L B) (hn : 0 < n) (hpool : 0 < a.freeOffset)
    (hi : i ∈ L) (hu : a.inUse i = false) (hfit : uintToFloatRoundUp n ≤ a.binOf i) :
    ∃ al a', a.alloc n = some (al, a') := by
  have hm : i ∈ B (a.binOf i) := (h.bins.mem _ i).mpr ⟨mem_freeSlots.mpr ⟨hi, hu⟩, rfl⟩
  have hfind := h.bins.findBin_complete (ne_nil_of_mem hm) hfit
  obtain ⟨⟨t, leaf⟩, hf⟩ := ne_none_iff_exists'.mp hfind
  obtain ⟨hl, hne, _⟩ := h.bins.findBin_sound hf
  obtain ⟨k, rest, hB⟩ := exists_cons_of_ne_nil hne
  have hhead : a.binIndices (t <<< topBinsIndexShift ||| leaf) = some k := by
    rw [bin_join hl, h.bins.head, hB]
    rfl
  unfold Allocator.alloc
  rw [if_neg (by omega), if_neg (by omega), hf]
  simp only [hhead]
  exact ⟨_, _, rfl⟩

end Allocator

end KVStash.Dram.OffsetAlloc
