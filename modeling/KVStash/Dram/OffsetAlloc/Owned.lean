/- GID: KVStash/Dram/OffsetAlloc/Owned
   digest: Live handles correspond one to one to handed-out slots, from a new allocator on. -/

import KVStash.Dram.OffsetAlloc.Coalesce

set_option autoImplicit false

namespace KVStash.Dram.OffsetAlloc

open Foundation.BitMask List
open Foundation.LinkedSegment
open Dram.SmallFloat

def Allocation.slot (al : Allocation) : ℕ := al.metaWord &&& metaSlotMask

def Allocation.gen (al : Allocation) : ℕ := al.metaWord >>> metaSlotBits

variable {size maxAllocs gen i j : ℕ}

theorem slot_of_word (hi : i < 2 ^ 18) : (gen <<< metaSlotBits ||| i) &&& metaSlotMask = i := by
  change (gen <<< 18 ||| i) &&& (1 <<< 18 - 1) = i
  rw [Nat.one_shiftLeft, Nat.and_two_pow_sub_one_eq_mod, ← Nat.shiftLeft_add_eq_or_of_lt hi,
    Nat.shiftLeft_eq, Nat.mul_add_mod_self_right, Nat.mod_eq_of_lt hi]

theorem gen_of_word (hi : i < 2 ^ 18) : (gen <<< metaSlotBits ||| i) >>> metaSlotBits = gen := by
  change (gen <<< 18 ||| i) >>> 18 = gen
  rw [← Nat.shiftLeft_add_eq_or_of_lt hi, Nat.shiftLeft_eq, Nat.shiftRight_eq_div_pow,
    Nat.mul_comm, Nat.mul_add_div (Nat.two_pow_pos 18), Nat.div_eq_of_lt hi, Nat.add_zero]

namespace Allocator

variable {a a' : Allocator} {L L' l l' r r' : List ℕ} {i n : ℕ} {B : ℕ → List ℕ} {al : Allocation}
  {live : List (Allocation × ℕ)}

private def blank (size maxAllocs : ℕ) : Allocator := {
  size := size
  maxAllocs := maxAllocs
  freeStorage := 0
  usedBinsTop := 0
  usedBins := fun _ => 0
  binIndices := fun _ => none
  nodes := fun _ => {}
  freeNodes := fun i => maxAllocs * 2 - i - 1
  freeOffset := maxAllocs * 2 }

private theorem blank_stack (size maxAllocs : ℕ) :
    (blank size maxAllocs).stack = (range (maxAllocs * 2)).reverse := by
  conv_rhs => rw [range_eq_range', reverse_range']
  apply map_congr_left
  intro i _
  simp only [blank]
  omega

private theorem bins_empty {a : Allocator} (hi : a.binIndices = fun _ => none)
    (hu : a.usedBins = fun _ => 0) (ht : a.usedBinsTop = 0) : BinsOk a ∅ (fun _ => []) where
  linked _ := trivial
  head _ := by rw [hi]; rfl
  nodup _ := nodup_nil
  mem b i := by simp
  small i hi := by simp at hi
  masks := by
    rw [hu, ht]
    exact ⟨fun t l _ => by simp, fun t => by simp, fun t => by simp, by simp⟩

theorem newAllocator_wellFormed (hs : size < 2 ^ 32) (hm : 1 ≤ maxAllocs) :
    ∃ L B, WellFormed (newAllocator size maxAllocs) L B ∧ ∀ i ∈ L,
      (newAllocator size maxAllocs).inUse i = false := by
  change ∃ L B, WellFormed (if size > 0 then (blank size maxAllocs).insertNodeIntoBin size 0
    else blank size maxAllocs) L B ∧ ∀ i ∈ L, (if size > 0 then
    (blank size maxAllocs).insertNodeIntoBin size 0 else blank size maxAllocs).inUse i = false
  have hpool : (blank size maxAllocs).stack.Perm (range (maxAllocs * 2)) := by
    rw [blank_stack]
    exact reverse_perm _
  by_cases hpos : size > 0
  · rw [if_pos hpos]
    have hoff : 0 < (blank size maxAllocs).freeOffset := by
      change 0 < maxAllocs * 2
      omega
    have hstack := stack_pop hoff
    generalize hk : (blank size maxAllocs).popNode.1 = k at hstack
    -- the popped slot, filled in with the whole capacity, is in hand
    let c := (blank size maxAllocs).popNode.2.setNode k { dataOffset := 0, dataSize := size }
    have hself : c.nodes k = { dataOffset := 0, dataSize := size } := Function.update_self _ _ _
    have hrest : ∀ j, j ≠ k → c.nodes j = {} := by
      intro j hj
      change Function.update (fun _ => ({} : Node)) k _ j = {}
      rw [Function.update_of_ne hj]
    have hcs : c.stack = (blank size maxAllocs).popNode.2.stack := rfl
    have hempty : c.freeSlots ([] ++ []) = ∅ := by
      ext j
      simp [mem_freeSlots]
    have hhand : InHand c [] k [] 0 size (fun _ => []) := by
      refine ⟨⟨?_, ?_, trivial⟩, rfl, ?_, hpos, List.IsChain.nil, List.IsChain.nil, ?_, ?_, ?_, ?_,
        ?_, hs⟩
      · rw [nbPrev, hself]
      · rw [nbNext, hself]
        rfl
      · exact Nat.zero_add size
      · rw [hempty]
        exact bins_empty rfl rfl rfl
      · rw [hempty]
        rfl
      · rw [hcs, nil_append, ← hstack]
        exact hpool
      · intro j hj
        have hjk : j ≠ k := by
          rintro rfl
          have hnd := hpool.nodup_iff.mpr nodup_range
          rw [hstack] at hnd
          exact (nodup_append.mp hnd).2.2 j hj j (mem_singleton.mpr rfl) rfl
        rw [inUse, hrest j hjk]
      · intro j
        by_cases hj : j = k
        · rw [hj, hself]
          exact Nat.two_pow_pos 14
        · rw [hrest j hj]
          exact Nat.two_pow_pos 14
    have hins : (blank size maxAllocs).insertNodeIntoBin size 0 =
        c.insertExistingNodeIntoBin k := by
      subst hk
      rfl
    have hclosed : c.Closed none := fun j hj => by simp at hj
    have hpark := hhand.park (by rw [off, hself]) (by rw [sz, hself]) hclosed hclosed
    rw [hins]
    refine ⟨_, _, hpark, ?_⟩
    intro j hj
    rw [nil_append, mem_singleton] at hj
    rw [hj, inUse, insert_used, if_pos rfl]
  · rw [if_neg hpos]
    have hz : size = 0 := by omega
    subst hz
    refine ⟨[], fun _ => [], ⟨trivial, rfl, List.IsChain.nil, ?_, rfl, ?_, ?_, ?_, hs⟩, ?_⟩
    · exact bins_empty rfl rfl rfl
    · rw [append_nil]
      exact hpool
    · intro i _
      rfl
    · intro i
      exact Nat.two_pow_pos 14
    · intro i hi
      simp at hi

theorem newAllocator_first (hpos : 0 < size) (hm : 1 ≤ maxAllocs) :
    (newAllocator size maxAllocs).stack = (range' 1 (maxAllocs * 2 - 1)).reverse ∧
      (newAllocator size maxAllocs).view 0 = ⟨0, size, false, 0⟩ := by
  have hoff : 0 < (blank size maxAllocs).freeOffset := by
    change 0 < maxAllocs * 2
    omega
  have hk : (blank size maxAllocs).popNode.1 = 0 := by
    change maxAllocs * 2 - (maxAllocs * 2 - 1) - 1 = 0
    omega
  have hstack := stack_pop hoff
  rw [hk, blank_stack] at hstack
  have hnew : newAllocator size maxAllocs =
      ((blank size maxAllocs).popNode.2.setNode (blank size maxAllocs).popNode.1
        { dataOffset := 0, dataSize := size }).insertExistingNodeIntoBin
          (blank size maxAllocs).popNode.1 := by
    change (if size > 0 then (blank size maxAllocs).insertNodeIntoBin size 0
      else blank size maxAllocs) = _
    rw [if_pos hpos]
    rfl
  rw [hk] at hnew
  have hsame := insert_sameRanges ((blank size maxAllocs).popNode.2.setNode 0
    { dataOffset := 0, dataSize := size }) 0
  rw [hnew]
  constructor
  · rw [stack_congr hsame.freeNodes hsame.freeOffset]
    change (blank size maxAllocs).popNode.2.stack = _
    have hr : range (maxAllocs * 2) = 0 :: range' 1 (maxAllocs * 2 - 1) := by
      rw [range_eq_range', range'_eq_cons_iff]
      exact ⟨rfl, by omega, rfl⟩
    rw [hr, reverse_cons] at hstack
    exact (append_inj_left' hstack rfl).symm
  · rw [view, off, sz, inUse, insert_used, if_pos rfl, hsame.dataOffset, hsame.dataSize, hsame.gen,
      setNode_nodes, Function.update_self]

theorem newAllocator_capacity :
    (newAllocator size maxAllocs).size = size ∧
      (newAllocator size maxAllocs).maxAllocs = maxAllocs := by
  unfold newAllocator
  dsimp only
  split
  · unfold insertNodeIntoBin
    exact ⟨(insert_sameRanges _ _).size, (insert_sameRanges _ _).maxAllocs⟩
  · exact ⟨rfl, rfl⟩

/-- Every live handle names a handed-out slot with its own range and generation,
and every handed-out slot has one live handle. -/
structure Owned (a : Allocator) (L : List ℕ) (live : List (Allocation × ℕ)) : Prop where
  record : ∀ x ∈ live, a.view x.1.slot = ⟨x.1.offset, x.2, true, x.1.gen⟩
  slots : (live.map (fun x => x.1.slot)).Nodup
  members : ∀ i, i ∈ live.map (fun x => x.1.slot) ↔ i ∈ L ∧ a.inUse i = true

theorem WellFormed.slot_lt (h : WellFormed a L B) (hi : i ∈ L) : i < a.poolLen := by
  have hm : i ∈ a.stack ++ L := mem_append_right _ hi
  rw [h.pool.mem_iff] at hm
  exact mem_range.mp hm

theorem WellFormed.stack_not_mem (h : WellFormed a L B) (hi : i ∈ a.stack) : i ∉ L := by
  intro hm
  exact (nodup_append.mp h.nodup).2.2 i hi i hm rfl

theorem Handout.mem_iff (h : Handout a n al a' i L L') (hj : j ∈ L) : j ∈ L' := by
  rcases h.rest with ⟨_, he, _⟩ | ⟨l, r, k, _, hL, he, _⟩
  · exact he ▸ hj
  rw [hL] at hj
  rw [he]
  simp only [mem_append, mem_cons] at hj ⊢
  tauto

theorem Owned.alloc (h : Owned a L live) (hw : WellFormed a L B)
    (hp : a.poolLen ≤ 2 ^ 18) (hh : Handout a n al a' i L L') : Owned a' L' ((al, n) :: live) := by
  have hi : i < 2 ^ 18 := Nat.lt_of_lt_of_le (hw.slot_lt hh.member) hp
  have hslot : al.slot = i := by
    rw [Allocation.slot, hh.word]
    exact slot_of_word hi
  have hgen : al.gen = (a'.nodes i).gen := by
    rw [Allocation.gen, hh.word]
    exact gen_of_word hi
  have hself := hh.slot
  have hg : (a'.nodes i).gen = ((a.nodes i).gen + 1) &&& genMask := congrArg View.gen hself
  have huse : a'.inUse i = true := congrArg View.used hself
  -- slots of the old order other than `i` keep their view
  have hold : ∀ j ∈ L, j ≠ i → a'.view j = a.view j := by
    intro j hj hne
    rcases hh.rest with ⟨_, _, _, hv⟩ | ⟨l, r, k, _, _, _, hstack, _, hv⟩
    · exact hv j hne
    refine hv j hne ?_
    rintro rfl
    refine hw.stack_not_mem ?_ hj
    rw [hstack]
    exact mem_append_right _ (mem_singleton.mpr rfl)
  have hnew : ∀ j ∈ L', j ∉ L → a'.inUse j = false := by
    intro j hj hout
    rcases hh.rest with ⟨_, he, _⟩ | ⟨l, r, k, _, hL, he, _, hv, _⟩
    · exact absurd (he ▸ hj) hout
    have hjk : j = k := by
      rw [hL] at hout
      rw [he] at hj
      simp only [mem_append, mem_cons, not_or] at hj hout
      tauto
    rw [hjk]
    exact congrArg View.used hv
  have hlive : ∀ j, j ∈ live.map (fun x => x.1.slot) → j ∈ L ∧ j ≠ i ∧ a.inUse j = true := by
    intro j hj
    obtain ⟨hjL, hu⟩ := (h.members j).mp hj
    refine ⟨hjL, ?_, hu⟩
    rintro rfl
    rw [hh.free] at hu
    cases hu
  refine ⟨?_, ?_, ?_⟩
  · intro x hx
    rcases mem_cons.mp hx with rfl | hx
    · change a'.view al.slot = ⟨al.offset, n, true, al.gen⟩
      rw [hslot, hself, hh.offset, hgen, hg]
    · obtain ⟨hjL, hne, _⟩ := hlive x.1.slot (mem_map_of_mem hx)
      rw [hold _ hjL hne]
      exact h.record x hx
  · refine nodup_cons.mpr ⟨?_, h.slots⟩
    change al.slot ∉ live.map (fun x => x.1.slot)
    rw [hslot]
    intro hm
    exact (hlive i hm).2.1 rfl
  · intro j
    rw [map_cons, mem_cons]
    constructor
    · rintro (rfl | hj)
      · change al.slot ∈ L' ∧ a'.inUse al.slot = true
        rw [hslot]
        exact ⟨hh.mem_iff hh.member, huse⟩
      · obtain ⟨hjL, hne, hu⟩ := hlive j hj
        exact ⟨hh.mem_iff hjL, (congrArg View.used (hold j hjL hne)).trans hu⟩
    · rintro ⟨hj, hu⟩
      by_cases hne : j = i
      · refine Or.inl ?_
        change j = al.slot
        rw [hslot, hne]
      · refine Or.inr ((h.members j).mpr ?_)
        by_cases hjL : j ∈ L
        · exact ⟨hjL, (congrArg View.used (hold j hjL hne)).symm.trans hu⟩
        · rw [hnew j hj hjL] at hu
          cases hu

theorem Owned.accepts (h : Owned a L live)
    (hw : WellFormed a L B) (hal : (al, n) ∈ live) (hword : al.metaWord ≠ unusedIndex) :
    a.accepts al = true := by
  have hview : a.view al.slot = ⟨al.offset, n, true, al.gen⟩ := h.record (al, n) hal
  obtain ⟨hL, hu⟩ := (h.members al.slot).mp (mem_map_of_mem hal)
  rw [Allocator.accepts, decide_eq_true_iff]
  exact ⟨hword, hw.slot_lt hL, hu, congrArg View.gen hview⟩

theorem Owned.release (h : Owned a (l ++ al.slot :: r) live)
    (hal : (al, n) ∈ live) (hrel : Release a al.slot a' l r l' r') :
    Owned a' (l' ++ al.slot :: r') (live.filter (fun x => x.1 ≠ al)) := by
  obtain ⟨hl, hr, hfree, _, hview⟩ := hrel
  refine ⟨?_, ?_, ?_⟩
  · intro x hx
    obtain ⟨hx, hne⟩ := mem_filter.mp hx
    have hne : x.1 ≠ al := of_decide_eq_true hne
    rw [hview]
    · exact h.record x hx
    · intro he
      have hinj := inj_on_of_nodup_map h.slots hx hal he
      exact hne (congrArg Prod.fst hinj)
  · exact (h.slots.sublist ((filter_sublist).map _))
  · intro j
    -- a slot that left the order was free
    have hsub : ∀ k, k ∈ l' ++ al.slot :: r' → k ∈ l ++ al.slot :: r := by
      intro k hk
      rcases hl with ⟨rfl, _⟩ | ⟨p, rfl, _⟩ <;> rcases hr with ⟨rfl, _⟩ | ⟨q, rfl, _⟩ <;>
        simp only [mem_append, mem_cons] at hk ⊢ <;> tauto
    have hback : ∀ k, k ∈ l ++ al.slot :: r → a.inUse k = true → k ∈ l' ++ al.slot :: r' := by
      intro k hk huk
      rcases hl with ⟨rfl, _⟩ | ⟨p, rfl, hp⟩ <;> rcases hr with ⟨rfl, _⟩ | ⟨q, rfl, hq⟩ <;>
        simp only [mem_append, mem_cons, not_mem_nil, or_false] at hk ⊢
      · exact hk
      · rcases hk with hk | rfl | rfl | hk
        · exact Or.inl hk
        · exact Or.inr (Or.inl rfl)
        · simp [hq] at huk
        · exact Or.inr (Or.inr hk)
      · rcases hk with (hk | rfl) | hk | hk
        · exact Or.inl hk
        · simp [hp] at huk
        · exact Or.inr (Or.inl hk)
        · exact Or.inr (Or.inr hk)
      · rcases hk with (hk | rfl) | rfl | rfl | hk
        · exact Or.inl hk
        · simp [hp] at huk
        · exact Or.inr (Or.inl rfl)
        · simp [hq] at huk
        · exact Or.inr (Or.inr hk)
    constructor
    · intro hj
      obtain ⟨x, hx, rfl⟩ := mem_map.mp hj
      obtain ⟨hx, hne⟩ := mem_filter.mp hx
      have hne : x.1 ≠ al := of_decide_eq_true hne
      obtain ⟨hxL, hxu⟩ := (h.members x.1.slot).mp (mem_map_of_mem hx)
      have hslot : x.1.slot ≠ al.slot := by
        intro he
        exact hne (congrArg Prod.fst (inj_on_of_nodup_map h.slots hx hal he))
      exact ⟨hback _ hxL hxu, (congrArg View.used (hview _ hslot)).trans hxu⟩
    · rintro ⟨hj, hju⟩
      have hne : j ≠ al.slot := by
        rintro rfl
        rw [hfree] at hju
        cases hju
      have hju' : a.inUse j = true := (congrArg View.used (hview j hne)).symm.trans hju
      obtain ⟨x, hx, rfl⟩ := mem_map.mp ((h.members j).mpr ⟨hsub j hj, hju'⟩)
      refine mem_map_of_mem (mem_filter.mpr ⟨hx, ?_⟩)
      rw [decide_eq_true_iff]
      rintro rfl
      exact hne rfl

end Allocator

end KVStash.Dram.OffsetAlloc
