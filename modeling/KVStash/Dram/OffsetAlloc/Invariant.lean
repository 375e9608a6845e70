/- GID: KVStash/Dram/OffsetAlloc/Invariant
   digest: The allocator's representation invariant, also while one slot is held out of the bins. -/

import KVStash.Dram.OffsetAlloc.Bins

set_option autoImplicit false

namespace KVStash.Dram.OffsetAlloc

open Foundation.BitMask List
open Foundation.LinkedSegment
open Dram.SmallFloat

namespace Allocator

def nbNext (a : Allocator) (i : ℕ) : Option ℕ := (a.nodes i).neighborNext
def nbPrev (a : Allocator) (i : ℕ) : Option ℕ := (a.nodes i).neighborPrev
def off (a : Allocator) (i : ℕ) : ℕ := (a.nodes i).dataOffset
def sz (a : Allocator) (i : ℕ) : ℕ := (a.nodes i).dataSize
def inUse (a : Allocator) (i : ℕ) : Bool := (a.nodes i).used

def stack (a : Allocator) : List ℕ := (range a.freeOffset).map a.freeNodes

def freeSlots (a : Allocator) (L : List ℕ) : Finset ℕ :=
  L.toFinset.filter (fun i => a.inUse i = false)

def Coalesced (a : Allocator) (L : List ℕ) : Prop :=
  L.IsChain (fun i j => a.inUse i = true ∨ a.inUse j = true)

def Closed (a : Allocator) (link : Option ℕ) : Prop := ∀ i, link = some i → a.inUse i = true

/-- The representation invariant. `L` lists the slots in neighbour order and `B`
the members of each bin. -/
structure WellFormed (a : Allocator) (L : List ℕ) (B : ℕ → List ℕ) : Prop where
  linked : Linked a.nbNext a.nbPrev none L none
  tiles : Tiles a.off a.sz 0 L a.size
  coalesced : a.Coalesced L
  bins : BinsOk a (a.freeSlots L) B
  storage : a.freeStorage = ∑ i ∈ a.freeSlots L, a.sz i
  pool : (a.stack ++ L).Perm (range a.poolLen)
  idle : ∀ i ∈ a.stack, a.inUse i = false
  gens : ∀ i, (a.nodes i).gen < 2 ^ 14
  bound : a.size < 2 ^ 32

/-- The invariant while slot `i`, between `l` and `r`, is in no bin and stands
for the range of `size` units at `offset`, whatever its record says. -/
structure InHand (a : Allocator) (l : List ℕ) (i : ℕ) (r : List ℕ) (offset size : ℕ)
    (B : ℕ → List ℕ) : Prop where
  linked : Linked a.nbNext a.nbPrev none (l ++ i :: r) none
  before : Tiles a.off a.sz 0 l offset
  after : Tiles a.off a.sz (offset + size) r a.size
  pos : 0 < size
  coalescedBefore : a.Coalesced l
  coalescedAfter : a.Coalesced r
  bins : BinsOk a (a.freeSlots (l ++ r)) B
  storage : a.freeStorage = ∑ j ∈ a.freeSlots (l ++ r), a.sz j
  pool : (a.stack ++ (l ++ i :: r)).Perm (range a.poolLen)
  idle : ∀ j ∈ a.stack, a.inUse j = false
  gens : ∀ j, (a.nodes j).gen < 2 ^ 14
  bound : a.size < 2 ^ 32

variable {a a' : Allocator} {L l r : List ℕ} {i p q offset size : ℕ} {B : ℕ → List ℕ}

theorem mem_freeSlots : i ∈ a.freeSlots L ↔ i ∈ L ∧ a.inUse i = false := by
  simp [freeSlots]

@[simp] theorem stack_length (a : Allocator) : a.stack.length = a.freeOffset := by
  simp [stack]

theorem final_eq_getLast (l : List ℕ) : final none l = l.getLast? := by
  rcases eq_nil_or_concat l with rfl | ⟨r, j, rfl⟩
  · rfl
  · rw [concat_eq_append, final_concat, getLast?_concat]

/-- A list around one slot is coalesced when both sides are and the slot does not
meet a free neighbour, or is itself handed out. -/
theorem coalesced_around :
    a.Coalesced (l ++ i :: r) ↔
      a.Coalesced l ∧ a.Coalesced r ∧
        (a.inUse i = true ∨ a.Closed (final none l) ∧ a.Closed (first r none)) := by
  unfold Coalesced Closed
  rw [isChain_append, isChain_cons, final_eq_getLast, first_none]
  constructor
  · rintro ⟨hl, ⟨hi, hr⟩, hj⟩
    refine ⟨hl, hr, ?_⟩
    by_cases hu : a.inUse i = true
    · exact Or.inl hu
    · refine Or.inr ⟨fun j hj' => ?_, fun j hj' => ?_⟩
      · exact (hj j hj' i rfl).resolve_right hu
      · exact (hi j hj').resolve_left hu
  · rintro ⟨hl, hr, hc⟩
    refine ⟨hl, ⟨?_, hr⟩, ?_⟩
    · intro j hj
      rcases hc with hu | ⟨_, hc⟩
      · exact Or.inl hu
      · exact Or.inr (hc j hj)
    · intro j hj k hk
      rw [head?_cons, Option.mem_some_iff] at hk
      rcases hc with hu | ⟨hc, _⟩
      · exact Or.inr (hk ▸ hu)
      · exact Or.inl (hc j hj)

theorem Coalesced.congr (h : a.Coalesced L) (hu : ∀ i ∈ L, a'.inUse i = a.inUse i) :
    a'.Coalesced L := by
  unfold Coalesced at *
  induction L with
  | nil => exact List.IsChain.nil
  | cons i L ih =>
    rw [isChain_cons] at h ⊢
    refine ⟨?_, ih h.2 (fun j hj => hu j (mem_cons_of_mem i hj))⟩
    intro j hj
    rw [hu i mem_cons_self, hu j (mem_cons_of_mem i (mem_of_mem_head? hj))]
    exact h.1 j hj

theorem WellFormed.nodup (h : WellFormed a L B) : (a.stack ++ L).Nodup :=
  h.pool.nodup_iff.mpr nodup_range

theorem InHand.nodup (h : InHand a l i r offset size B) : (a.stack ++ (l ++ i :: r)).Nodup :=
  h.pool.nodup_iff.mpr nodup_range

theorem InHand.order_nodup (h : InHand a l i r offset size B) : (l ++ i :: r).Nodup :=
  (nodup_append.mp h.nodup).2.1

theorem InHand.slot_not_mem (h : InHand a l i r offset size B) : i ∉ l ++ r := by
  have hnd := h.order_nodup
  rw [nodup_append] at hnd
  intro hm
  rcases mem_append.mp hm with hl | hr
  · exact hnd.2.2 i hl i mem_cons_self rfl
  · exact (nodup_cons.mp hnd.2.1).1 hr

theorem InHand.stack_not_mem (h : InHand a l i r offset size B) {j : ℕ} (hj : j ∈ a.stack) :
    j ∉ l ++ i :: r := by
  intro hm
  exact (nodup_append.mp h.nodup).2.2 j hj j hm rfl

theorem freeSlots_used (hu : a.inUse i = true) :
    a.freeSlots (l ++ i :: r) = a.freeSlots (l ++ r) := by
  ext j
  simp only [mem_freeSlots, mem_append, mem_cons]
  constructor
  · rintro ⟨hj | rfl | hj, hf⟩
    · exact ⟨Or.inl hj, hf⟩
    · simp [hu] at hf
    · exact ⟨Or.inr hj, hf⟩
  · rintro ⟨hj | hj, hf⟩
    · exact ⟨Or.inl hj, hf⟩
    · exact ⟨Or.inr (Or.inr hj), hf⟩

theorem freeSlots_free (hu : a.inUse i = false) :
    a.freeSlots (l ++ i :: r) = insert i (a.freeSlots (l ++ r)) := by
  ext j
  simp only [mem_freeSlots, Finset.mem_insert, mem_append, mem_cons]
  constructor
  · rintro ⟨hj | rfl | hj, hf⟩
    · exact Or.inr ⟨Or.inl hj, hf⟩
    · exact Or.inl rfl
    · exact Or.inr ⟨Or.inr hj, hf⟩
  · rintro (rfl | ⟨hj | hj, hf⟩)
    · exact ⟨Or.inr (Or.inl rfl), hu⟩
    · exact ⟨Or.inl hj, hf⟩
    · exact ⟨Or.inr (Or.inr hj), hf⟩

theorem freeSlots_congr (hu : ∀ j ∈ L, a'.inUse j = a.inUse j) :
    a'.freeSlots L = a.freeSlots L := by
  ext j
  rw [mem_freeSlots, mem_freeSlots]
  refine and_congr_right (fun hj => ?_)
  rw [hu j hj]

theorem stack_congr (hn : a'.freeNodes = a.freeNodes) (ho : a'.freeOffset = a.freeOffset) :
    a'.stack = a.stack := by
  rw [stack, stack, hn, ho]

theorem WellFormed.hold (h : WellFormed a (l ++ i :: r) B) (hu : a.inUse i = true) :
    InHand a l i r (a.off i) (a.sz i) B := by
  obtain ⟨m, hl, ho, hs, hr⟩ := tiles_append.mp h.tiles
  obtain ⟨cl, cr, _⟩ := coalesced_around.mp h.coalesced
  have hbins := h.bins
  have hstore := h.storage
  rw [freeSlots_used hu] at hbins hstore
  refine ⟨h.linked, ?_, ?_, hs, cl, cr, hbins, hstore, h.pool, h.idle, h.gens, h.bound⟩
  · rw [ho]
    exact hl
  · rw [ho]
    exact hr

theorem InHand.tiles (h : InHand a l i r offset size B) (ho : a.off i = offset)
    (hs : a.sz i = size) : Tiles a.off a.sz 0 (l ++ i :: r) a.size := by
  refine tiles_append.mpr ⟨offset, h.before, ho, ?_, ?_⟩
  · rw [hs]
    exact h.pos
  · rw [hs]
    exact h.after

theorem InHand.handOut (h : InHand a l i r offset size B) (hu : a.inUse i = true)
    (ho : a.off i = offset) (hs : a.sz i = size) : WellFormed a (l ++ i :: r) B := by
  refine ⟨h.linked, h.tiles ho hs, ?_, ?_, ?_, h.pool, h.idle, h.gens, h.bound⟩
  · exact coalesced_around.mpr ⟨h.coalescedBefore, h.coalescedAfter, Or.inl hu⟩
  · rw [freeSlots_used hu]
    exact h.bins
  · rw [freeSlots_used hu]
    exact h.storage

theorem WellFormed.range_eq (h : WellFormed a (l ++ i :: r) B) :
    a.off i = (l.map a.sz).sum ∧ a.off i + a.sz i + (r.map a.sz).sum = a.size := by
  obtain ⟨m, hl, ho, _, hr⟩ := tiles_append.mp h.tiles
  have h1 := hl.sum
  have h2 := hr.sum
  omega

theorem InHand.size_lt (h : InHand a l i r offset size B) : size < 2 ^ 32 := by
  have hle := h.after.le
  have hb := h.bound
  omega

theorem InHand.park (h : InHand a l i r offset size B) (ho : a.off i = offset)
    (hs : a.sz i = size) (hl : a.Closed (final none l)) (hr : a.Closed (first r none)) :
    WellFormed (a.insertExistingNodeIntoBin i) (l ++ i :: r)
      (Function.update B (a.binOf i) (i :: B (a.binOf i))) := by
  have hsame := insert_sameRanges a i
  have hout := h.slot_not_mem
  have hne : ∀ j ∈ l ++ r, i ≠ j := fun j hj he => hout (he ▸ hj)
  have huse : ∀ j ∈ l ++ r, (a.insertExistingNodeIntoBin i).inUse j = a.inUse j := by
    intro j hj
    rw [inUse, insert_used, if_neg (hne j hj)]
    rfl
  have hi : (a.insertExistingNodeIntoBin i).inUse i = false := by
    rw [inUse, insert_used, if_pos rfl]
  have hstack := stack_congr hsame.freeNodes hsame.freeOffset
  have hfree : (a.insertExistingNodeIntoBin i).freeSlots (l ++ i :: r) =
      insert i (a.freeSlots (l ++ r)) := by
    rw [freeSlots_free hi, freeSlots_congr huse]
  have hinot : i ∉ a.freeSlots (l ++ r) := fun hm => hout (mem_freeSlots.mp hm).1
  have hclosed : ∀ link : Option ℕ, (∀ j, link = some j → j ∈ l ++ r) → a.Closed link →
      (a.insertExistingNodeIntoBin i).Closed link := by
    intro link hlink hc j hj
    rw [huse j (hlink j hj)]
    exact hc j hj
  refine ⟨?_, ?_, ?_, ?_, ?_, ?_, ?_, ?_, ?_⟩
  · exact h.linked.congr (fun j _ => hsame.neighborNext j) (fun j _ => hsame.neighborPrev j)
  · rw [hsame.size]
    exact (h.tiles ho hs).congr (fun j _ => hsame.dataOffset j) (fun j _ => hsame.dataSize j)
  · refine coalesced_around.mpr ⟨?_, ?_, Or.inr ⟨?_, ?_⟩⟩
    · exact h.coalescedBefore.congr (fun j hj => huse j (mem_append_left r hj))
    · exact h.coalescedAfter.congr (fun j hj => huse j (mem_append_right l hj))
    · refine hclosed _ (fun j hj => ?_) hl
      exact mem_append_left r (mem_of_final_none hj)
    · refine hclosed _ (fun j hj => ?_) hr
      exact mem_append_right l (mem_of_first_none hj)
  · rw [hfree]
    refine h.bins.insert hinot ?_
    have := h.size_lt
    rw [← hs] at this
    exact this
  · rw [hfree, Finset.sum_insert hinot, insert_freeStorage, h.storage, Nat.add_comm]
    congr 1
    · exact (hsame.dataSize i).symm
    · exact Finset.sum_congr rfl (fun j _ => (hsame.dataSize j).symm)
  · rw [hstack, poolLen, hsame.maxAllocs]
    exact h.pool
  · intro j hj
    rw [hstack] at hj
    rw [inUse, insert_used]
    split
    · rfl
    · exact h.idle j hj
  · intro j
    rw [hsame.gen]
    exact h.gens j
  · rw [hsame.size]
    exact h.bound

theorem WellFormed.take (h : WellFormed a (l ++ i :: r) B) (hu : a.inUse i = false)
    {B' : ℕ → List ℕ} (hsame : SameRanges a a') (huse : ∀ j, a'.inUse j = a.inUse j)
    (hbins : BinsOk a' ((a.freeSlots (l ++ i :: r)).erase i) B')
    (hstore : a'.freeStorage = a.freeStorage - a.sz i) : InHand a' l i r (a.off i) (a.sz i) B' := by
  obtain ⟨m, hl, ho, hs, hr⟩ := tiles_append.mp h.tiles
  obtain ⟨cl, cr, _⟩ := coalesced_around.mp h.coalesced
  have hnd := (nodup_append.mp h.nodup).2.1
  have hinot : i ∉ a.freeSlots (l ++ r) := by
    intro hm
    rcases mem_append.mp (mem_freeSlots.mp hm).1 with hil | hir
    · exact (nodup_append.mp hnd).2.2 i hil i mem_cons_self rfl
    · exact (nodup_cons.mp (nodup_append.mp hnd).2.1).1 hir
  have hfree : (a.freeSlots (l ++ i :: r)).erase i = a'.freeSlots (l ++ r) := by
    rw [freeSlots_free hu, Finset.erase_insert hinot, freeSlots_congr (fun j _ => huse j)]
  have hstack := stack_congr hsame.freeNodes hsame.freeOffset
  have hout : ∀ x : List ℕ, a.Coalesced x → a'.Coalesced x :=
    fun x hx => hx.congr (fun j _ => huse j)
  refine ⟨?_, ?_, ?_, hs, hout l cl, hout r cr, ?_, ?_, ?_, ?_, ?_, ?_⟩
  · exact h.linked.congr (fun j _ => hsame.neighborNext j) (fun j _ => hsame.neighborPrev j)
  · rw [ho]
    exact hl.congr (fun j _ => hsame.dataOffset j) (fun j _ => hsame.dataSize j)
  · rw [ho, hsame.size]
    exact hr.congr (fun j _ => hsame.dataOffset j) (fun j _ => hsame.dataSize j)
  · rw [← hfree]
    exact hbins
  · rw [hstore, h.storage, freeSlots_free hu, Finset.sum_insert hinot, Nat.add_sub_cancel_left,
      freeSlots_congr (fun j _ => huse j)]
    exact Finset.sum_congr rfl (fun j _ => (hsame.dataSize j).symm)
  · rw [hstack, poolLen, hsame.maxAllocs]
    exact h.pool
  · intro j hj
    rw [hstack] at hj
    rw [huse]
    exact h.idle j hj
  · intro j
    rw [hsame.gen]
    exact h.gens j
  · rw [hsame.size]
    exact h.bound

theorem InHand.rewrite (h : InHand a l i r offset size B) {f : Node → Node}
    (hp : (f (a.nodes i)).neighborPrev = a.nbPrev i)
    (hn : (f (a.nodes i)).neighborNext = a.nbNext i) (hg : (f (a.nodes i)).gen < 2 ^ 14) :
    InHand (a.onSlot (some i) f) l i r offset size B := by
  have hout := h.slot_not_mem
  have hstay : ∀ j, i ≠ j → (a.onSlot (some i) f).nodes j = a.nodes j := by
    intro j hj
    rw [onSlot_nodes, if_neg (fun he => hj (Option.some.inj he))]
  have hself : (a.onSlot (some i) f).nodes i = f (a.nodes i) := by
    rw [onSlot_nodes, if_pos rfl]
  have hne : ∀ j ∈ l ++ r, i ≠ j := fun j hj he => hout (he ▸ hj)
  have hnode : ∀ j ∈ l ++ r, (a.onSlot (some i) f).nodes j = a.nodes j :=
    fun j hj => hstay j (hne j hj)
  have hstack : (a.onSlot (some i) f).stack = a.stack :=
    stack_congr (onSlot_freeNodes a (some i) f) (onSlot_freeOffset a (some i) f)
  have hfree : (a.onSlot (some i) f).freeSlots (l ++ r) = a.freeSlots (l ++ r) :=
    freeSlots_congr (fun j hj => by rw [inUse, hnode j hj]; rfl)
  have hmem : ∀ j ∈ a.freeSlots (l ++ r), j ∈ l ++ r := fun j hj => (mem_freeSlots.mp hj).1
  have hleft : ∀ j ∈ l, (a.onSlot (some i) f).nodes j = a.nodes j :=
    fun j hj => hnode j (mem_append_left r hj)
  have hright : ∀ j ∈ r, (a.onSlot (some i) f).nodes j = a.nodes j :=
    fun j hj => hnode j (mem_append_right l hj)
  refine ⟨?_, ?_, ?_, h.pos, ?_, ?_, ?_, ?_, ?_, ?_, ?_, ?_⟩
  · refine h.linked.congr ?_ ?_
    · intro j _
      by_cases hj : i = j
      · rw [← hj, nbNext, hself, hn]
      · rw [nbNext, hstay j hj]
        rfl
    · intro j _
      by_cases hj : i = j
      · rw [← hj, nbPrev, hself, hp]
      · rw [nbPrev, hstay j hj]
        rfl
  · exact h.before.congr (fun j hj => by rw [off, hleft j hj]; rfl)
      (fun j hj => by rw [sz, hleft j hj]; rfl)
  · rw [onSlot_size]
    exact h.after.congr (fun j hj => by rw [off, hright j hj]; rfl)
      (fun j hj => by rw [sz, hright j hj]; rfl)
  · exact h.coalescedBefore.congr (fun j hj => by rw [inUse, hleft j hj]; rfl)
  · exact h.coalescedAfter.congr (fun j hj => by rw [inUse, hright j hj]; rfl)
  · rw [hfree]
    refine h.bins.frame (by simp) (by simp) (by simp) ?_ ?_ ?_
    · intro j hj
      rw [binNext, hnode j (hmem j hj)]
      rfl
    · intro j hj
      rw [binPrev, hnode j (hmem j hj)]
      rfl
    · intro j hj
      rw [hnode j (hmem j hj)]
  · rw [hfree, onSlot_freeStorage, h.storage]
    exact Finset.sum_congr rfl (fun j hj => by rw [sz, sz, hnode j (hmem j hj)])
  · rw [hstack, poolLen, onSlot_maxAllocs]
    exact h.pool
  · intro j hj
    rw [hstack] at hj
    have hij : i ≠ j := by
      rintro rfl
      exact h.stack_not_mem hj (by simp)
    rw [inUse, hstay j hij]
    exact h.idle j hj
  · intro j
    by_cases hj : i = j
    · rw [← hj, hself]
      exact hg
    · rw [hstay j hj]
      exact h.gens j
  · rw [onSlot_size]
    exact h.bound

end Allocator

end KVStash.Dram.OffsetAlloc
