/- GID: KVStash/Dram/OffsetAlloc/Coalesce
   digest: Free merges a range with its free neighbours and keeps the representation invariant. -/

import KVStash.Dram.OffsetAlloc.Handout

set_option autoImplicit false

namespace KVStash.Dram.OffsetAlloc

open Foundation.LinkedSegment List
open Dram.SmallFloat

namespace Allocator

variable {a a' : Allocator} {L l l' r r' : List ℕ} {i p q offset size offset' size' : ℕ}
  {B B' : ℕ → List ℕ}

private theorem InHand.absorb (h : InHand a l i r offset size B)
    (hperm : (l ++ r).Perm (p :: (l' ++ r'))) (hp : a.inUse p = false)
    (hview : ∀ j, a'.view j = a.view j)
    (hlinked : Linked a'.nbNext a'.nbPrev none (l' ++ i :: r') none)
    (hbefore : Tiles a.off a.sz 0 l' offset')
    (hafter : Tiles a.off a.sz (offset' + size') r' a.size) (hpos : 0 < size')
    (hcb : a.Coalesced l') (hca : a.Coalesced r')
    (hbins : BinsOk a' ((a.freeSlots (l ++ r)).erase p) B')
    (hstore : a'.freeStorage = a.freeStorage - a.sz p) (hstack : a'.stack = a.stack ++ [p])
    (hsize : a'.size = a.size) (hmax : a'.maxAllocs = a.maxAllocs) :
    InHand a' l' i r' offset' size' B' := by
  have hoff : ∀ j, a'.off j = a.off j := fun j => congrArg View.offset (hview j)
  have hsz : ∀ j, a'.sz j = a.sz j := fun j => congrArg View.size (hview j)
  have huse : ∀ j, a'.inUse j = a.inUse j := fun j => congrArg View.used (hview j)
  have hnd : (l ++ r).Nodup := by
    refine List.Nodup.sublist ?_ h.order_nodup
    exact (sublist_cons_self i r).append_left l
  have hpnot : p ∉ l' ++ r' := (nodup_cons.mp (hperm.nodup_iff.mp hnd)).1
  have hfree : (a.freeSlots (l ++ r)).erase p = a'.freeSlots (l' ++ r') := by
    ext j
    rw [Finset.mem_erase, mem_freeSlots, mem_freeSlots, hperm.mem_iff, mem_cons, huse]
    constructor
    · rintro ⟨hj, rfl | hm, hf⟩
      · exact absurd rfl hj
      · exact ⟨hm, hf⟩
    · rintro ⟨hm, hf⟩
      exact ⟨fun he => hpnot (he ▸ hm), Or.inr hm, hf⟩
  have hpmem : p ∈ a.freeSlots (l ++ r) := by
    refine mem_freeSlots.mpr ⟨?_, hp⟩
    rw [hperm.mem_iff]
    exact mem_cons_self
  refine ⟨hlinked, ?_, ?_, hpos, ?_, ?_, ?_, ?_, ?_, ?_, ?_, ?_⟩
  · exact hbefore.congr (fun j _ => hoff j) (fun j _ => hsz j)
  · rw [hsize]
    exact hafter.congr (fun j _ => hoff j) (fun j _ => hsz j)
  · exact hcb.congr (fun j _ => huse j)
  · exact hca.congr (fun j _ => huse j)
  · rw [← hfree]
    exact hbins
  · have hsum := Finset.add_sum_erase (a.freeSlots (l ++ r)) a.sz hpmem
    rw [hstore, h.storage, ← hsum, Nat.add_sub_cancel_left, hfree]
    exact Finset.sum_congr rfl (fun j _ => (hsz j).symm)
  · rw [hstack, poolLen, hmax]
    refine List.Perm.trans ?_ h.pool
    rw [append_assoc]
    apply List.Perm.append_left
    refine List.Perm.trans ?_ perm_middle.symm
    refine (List.Perm.cons p perm_middle).trans ?_
    exact (List.Perm.swap i p _).trans (hperm.symm.cons i)
  · intro j hj
    rw [huse]
    rw [hstack] at hj
    rcases mem_append.mp hj with hm | hm
    · exact h.idle j hm
    · rw [mem_singleton.mp hm]
      exact hp
  · intro j
    have hg : (a'.nodes j).gen = (a.nodes j).gen := congrArg View.gen (hview j)
    rw [hg]
    exact h.gens j
  · rw [hsize]
    exact h.bound

theorem stack_push (a : Allocator) (p : ℕ) : (a.pushNode p).stack = a.stack ++ [p] := by
  simp only [stack, pushNode, range_succ, map_append, map_cons, map_nil, Function.update_self]
  congr 1
  apply map_congr_left
  intro k hk
  rw [Function.update_of_ne]
  have := mem_range.mp hk
  omega

/-- What splicing a free slot `x` out of the neighbour order does: its bin and its
range are given up, its two neighbours are joined and its index is pushed. -/
private structure Joined (a a' : Allocator) (x : ℕ) (left right : Option ℕ) : Prop where
  view : ∀ j, a'.view j = a.view j
  next : ∀ j, a'.nbNext j = if left = some j then right else a.nbNext j
  prev : ∀ j, a'.nbPrev j = if right = some j then left else a.nbPrev j
  bins : ∀ S B, BinsOk a S B → x ∈ S → BinsOk a' (S.erase x) (fun b => (B b).erase x)
  storage : a'.freeStorage = a.freeStorage - a.sz x
  stack : a'.stack = a.stack ++ [x]
  size : a'.size = a.size
  maxAllocs : a'.maxAllocs = a.maxAllocs

private theorem joined_of (a : Allocator) (x : ℕ) (u v : Option ℕ) (f g : Node → Node)
    (left right : Option ℕ)
    (hf : ∀ m : Node, f m = { m with neighborPrev := (f m).neighborPrev,
                                     neighborNext := (f m).neighborNext })
    (hg : ∀ m : Node, g m = { m with neighborPrev := (g m).neighborPrev,
                                     neighborNext := (g m).neighborNext })
    (hn : ∀ j m, (if v = some j then g (if u = some j then f m else m)
      else if u = some j then f m else m).neighborNext =
        if left = some j then right else m.neighborNext)
    (hp : ∀ j m, (if v = some j then g (if u = some j then f m else m)
      else if u = some j then f m else m).neighborPrev =
        if right = some j then left else m.neighborPrev) :
    Joined a ((((a.removeNodeFromBin x).onSlot u f).onSlot v g).pushNode x) x left right := by
  have hsame := remove_sameRanges a x
  have hnode : ∀ j, (((((a.removeNodeFromBin x).onSlot u f).onSlot v g).pushNode x).nodes j) =
      if v = some j then g (if u = some j then f ((a.removeNodeFromBin x).nodes j)
        else (a.removeNodeFromBin x).nodes j)
      else if u = some j then f ((a.removeNodeFromBin x).nodes j)
        else (a.removeNodeFromBin x).nodes j := by
    intro j
    rw [pushNode, onSlot_nodes, onSlot_nodes]
  -- apart from the neighbour links the records are those of the unlink
  have hkeep : ∀ j, ∃ np nn,
      (((((a.removeNodeFromBin x).onSlot u f).onSlot v g).pushNode x).nodes j) =
        { (a.removeNodeFromBin x).nodes j with neighborPrev := np, neighborNext := nn } := by
    intro j
    rw [hnode]
    by_cases hv : v = some j
    · rw [if_pos hv, hg]
      by_cases hu : u = some j
      · rw [if_pos hu, hf]
        exact ⟨_, _, rfl⟩
      · rw [if_neg hu]
        exact ⟨_, _, rfl⟩
    · rw [if_neg hv]
      by_cases hu : u = some j
      · rw [if_pos hu, hf]
        exact ⟨_, _, rfl⟩
      · rw [if_neg hu]
        exact ⟨_, _, rfl⟩
  refine ⟨?_, ?_, ?_, ?_, ?_, ?_, ?_, ?_⟩
  · intro j
    obtain ⟨np, nn, hj⟩ := hkeep j
    rw [← hsame.view_eq (remove_used a x) j]
    simp only [Allocator.view, off, sz, inUse, hj]
  · intro j
    rw [nbNext, hnode, hn, hsame.neighborNext]
    rfl
  · intro j
    rw [nbPrev, hnode, hp, hsame.neighborPrev]
    rfl
  · intro S B hB hx
    refine (hB.remove hx).frame ?_ ?_ ?_ ?_ ?_ ?_
    · simp [pushNode]
    · simp [pushNode]
    · simp [pushNode]
    · intro j _
      obtain ⟨np, nn, hj⟩ := hkeep j
      rw [binNext, hj]
      rfl
    · intro j _
      obtain ⟨np, nn, hj⟩ := hkeep j
      rw [binPrev, hj]
      rfl
    · intro j _
      obtain ⟨np, nn, hj⟩ := hkeep j
      rw [hj]
  · simp only [pushNode, onSlot_freeStorage, remove_freeStorage]
    rfl
  · rw [stack_push]
    refine congrArg (· ++ [x]) (stack_congr ?_ ?_)
    · rw [onSlot_freeNodes, onSlot_freeNodes, hsame.freeNodes]
    · rw [onSlot_freeOffset, onSlot_freeOffset, hsame.freeOffset]
  · simp only [pushNode, onSlot_size, hsame.size]
  · simp only [pushNode, onSlot_maxAllocs, hsame.maxAllocs]

private theorem InHand.joinPrev (h : InHand a (l ++ [p]) i r offset size B)
    (hp : a.inUse p = false) (hj : Joined a a' p (final none l) (some i)) :
    InHand a' l i r (a.off p) (size + a.sz p) (fun b => (B b).erase p) ∧
      a'.Closed (final none l) := by
  obtain ⟨m, hbl, hoff, hpos, hend⟩ := tiles_append.mp h.before
  have hend : m + a.sz p = offset := hend
  obtain ⟨cl, _, hcl⟩ := coalesced_around.mp h.coalescedBefore
  have hpm : p ∈ a.freeSlots ((l ++ [p]) ++ r) := mem_freeSlots.mpr ⟨by simp, hp⟩
  have hlk := h.linked
  have hnd := h.order_nodup
  rw [← append_cons] at hlk hnd
  refine ⟨h.absorb ?_ hp hj.view ?_ ?_ ?_ ?_ cl h.coalescedAfter (hj.bins _ _ h.bins hpm)
    hj.storage hj.stack hj.size hj.maxAllocs, ?_⟩
  · rw [← append_cons]
    exact perm_middle
  · refine hlk.delete hnd ?_ ?_
    · intro j _
      exact hj.next j
    · intro j _
      exact hj.prev j
  · rw [hoff]
    exact hbl
  · have hsum : a.off p + (size + a.sz p) = offset + size := by omega
    rw [hsum]
    exact h.after
  · omega
  · rcases hcl with hbad | ⟨hc, _⟩
    · simp [hp] at hbad
    · intro j hjl
      exact (congrArg View.used (hj.view j)).trans (hc j hjl)

private theorem InHand.joinNext (h : InHand a l i (q :: r) offset size B)
    (hq : a.inUse q = false) (hj : Joined a a' q (some i) (first r none)) :
    InHand a' l i r offset (size + a.sz q) (fun b => (B b).erase q) ∧
      a'.Closed (first r none) := by
  obtain ⟨hoff, hpos, hrest⟩ := h.after
  have hca := coalesced_around (l := []).mp h.coalescedAfter
  obtain ⟨_, cr, hcr⟩ := hca
  have hqm : q ∈ a.freeSlots (l ++ q :: r) := mem_freeSlots.mpr ⟨by simp, hq⟩
  have hlk := h.linked
  have hnd := h.order_nodup
  rw [append_cons] at hlk hnd
  refine ⟨h.absorb perm_middle hq hj.view ?_ h.before ?_ ?_ h.coalescedBefore cr
    (hj.bins _ _ h.bins hqm) hj.storage hj.stack hj.size hj.maxAllocs, ?_⟩
  · rw [append_cons]
    refine hlk.delete hnd ?_ ?_
    · intro j _
      rw [final_concat]
      exact hj.next j
    · intro j _
      rw [final_concat]
      exact hj.prev j
  · rw [← Nat.add_assoc]
    exact hrest
  · omega
  · rcases hcr with hbad | ⟨_, hc⟩
    · simp [hq] at hbad
    · intro j hjr
      exact (congrArg View.used (hj.view j)).trans (hc j hjr)

private theorem InHand.mergePrev (h : InHand a l i r (a.off i) (a.sz i) B) :
    ∃ l' B', InHand (a.mergePrev i).2 l' i r (a.mergePrev i).1.1 (a.mergePrev i).1.2 B' ∧
      (a.mergePrev i).2.Closed (final none l') ∧ (∀ j, (a.mergePrev i).2.view j = a.view j) ∧
      ((l' = l ∧ a.Closed (final none l)) ∨ ∃ p, l = l' ++ [p] ∧ a.inUse p = false) := by
  have hprev : (a.nodes i).neighborPrev = final none l := h.linked.at_member.1
  unfold Allocator.mergePrev
  rcases eq_nil_or_concat l with rfl | ⟨l', p, rfl⟩
  · have hnone : (a.nodes i).neighborPrev = none := hprev
    have hc : a.Closed (final none []) := fun j hj => by simp at hj
    simp only [hnone]
    exact ⟨[], B, h, hc, fun _ => trivial, Or.inl ⟨rfl, hc⟩⟩
  rw [concat_eq_append] at *
  rw [final_concat] at hprev
  simp only [hprev]
  by_cases hu : (a.nodes p).used = true
  · have hc : a.Closed (final none (l' ++ [p])) := by
      intro j hj
      rw [final_concat, Option.some.injEq] at hj
      exact hj ▸ hu
    rw [if_pos hu]
    exact ⟨l' ++ [p], B, h, hc, fun _ => rfl, Or.inl ⟨rfl, hc⟩⟩
  · have hp : a.inUse p = false := Bool.eq_false_iff.mpr hu
    have hlk := h.linked
    rw [← append_cons] at hlk
    have hpp : (a.nodes p).neighborPrev = final none l' := hlk.at_member.1
    rw [if_neg hu, hpp]
    have hj := joined_of a p (some i) (final none l')
      (fun m => { m with neighborPrev := final none l' })
      (fun m => { m with neighborNext := some i }) (final none l') (some i) (fun _ => rfl)
        (fun _ => rfl)
      (fun j m => by split <;> split <;> rfl)
      (fun j m => by split <;> split <;> rfl)
    obtain ⟨hin, hcl⟩ := h.joinPrev hp hj
    exact ⟨l', _, hin, hcl, hj.view, Or.inr ⟨p, rfl, hp⟩⟩

private theorem InHand.mergeNext (h : InHand a l i r offset size B) :
    ∃ r' B', InHand (a.mergeNext i size).2 l i r' offset (a.mergeNext i size).1 B' ∧
      (a.mergeNext i size).2.Closed (first r' none) ∧
      (∀ j, (a.mergeNext i size).2.view j = a.view j) ∧
      ((r' = r ∧ a.Closed (first r none)) ∨ ∃ q, r = q :: r' ∧ a.inUse q = false) := by
  have hnext : (a.nodes i).neighborNext = first r none := h.linked.at_member.2
  unfold Allocator.mergeNext
  cases r with
  | nil =>
    have hnone : (a.nodes i).neighborNext = none := hnext
    have hc : a.Closed (first [] none) := fun j hj => by simp at hj
    simp only [hnone]
    exact ⟨[], B, h, hc, fun _ => trivial, Or.inl ⟨rfl, hc⟩⟩
  | cons q r' =>
    rw [first_cons] at hnext
    simp only [hnext]
    by_cases hu : (a.nodes q).used = true
    · have hc : a.Closed (first (q :: r') none) := by
        intro j hj
        rw [first_cons, Option.some.injEq] at hj
        exact hj ▸ hu
      rw [if_pos hu]
      exact ⟨q :: r', B, h, hc, fun _ => rfl, Or.inl ⟨rfl, hc⟩⟩
    · have hq : a.inUse q = false := Bool.eq_false_iff.mpr hu
      have hlk := h.linked
      rw [append_cons] at hlk
      have hqn : (a.nodes q).neighborNext = first r' none := hlk.at_member.2
      rw [if_neg hu, hqn]
      have hj := joined_of a q (some i) (first r' none)
        (fun m => { m with neighborNext := first r' none })
        (fun m => { m with neighborPrev := some i }) (some i) (first r' none) (fun _ => rfl)
          (fun _ => rfl)
        (fun j m => by split <;> split <;> rfl)
        (fun j m => by split <;> split <;> rfl)
      obtain ⟨hin, hcl⟩ := h.joinNext hq hj
      exact ⟨r', _, hin, hcl, hj.view, Or.inr ⟨q, rfl, hq⟩⟩

/-- What Free of slot `i` between `l` and `r` does: the slot swallows the free
neighbours it has, and no other record changes. -/
structure Release (a : Allocator) (i : ℕ) (a' : Allocator) (l r l' r' : List ℕ) : Prop where
  left : (l' = l ∧ a.Closed (final none l)) ∨ ∃ p, l = l' ++ [p] ∧ a.inUse p = false
  right : (r' = r ∧ a.Closed (first r none)) ∨ ∃ q, r = q :: r' ∧ a.inUse q = false
  free : a'.inUse i = false
  gens : ∀ j, (a'.nodes j).gen = (a.nodes j).gen
  others : ∀ j, j ≠ i → a'.view j = a.view j

/-- Free of a handed-out slot keeps the invariant, and this is all it does. -/
theorem WellFormed.freeSlot (h : WellFormed a (l ++ i :: r) B) (hu : a.inUse i = true) :
    ∃ l' r' B', WellFormed (a.freeSlot i) (l' ++ i :: r') B' ∧
      Release a i (a.freeSlot i) l r l' r' := by
  obtain ⟨l', B₁, h₁, hcl, hv₁, hl⟩ := (h.hold hu).mergePrev
  generalize hm₁ : a.mergePrev i = m₁ at *
  obtain ⟨⟨offset, size₁⟩, a₁⟩ := m₁
  obtain ⟨r', B₂, h₂, hcr, hv₂, hr⟩ := h₁.mergeNext
  generalize hm₂ : a₁.mergeNext i size₁ = m₂ at *
  obtain ⟨size, a₂⟩ := m₂
  simp only at h₁ h₂ hcl hcr hv₁ hv₂
  have hv : ∀ j, a₂.view j = a.view j := fun j => (hv₂ j).trans (hv₁ j)
  have heq : a.freeSlot i = (a₂.onSlot (some i) fun m =>
      { m with dataOffset := offset, dataSize := size }).insertExistingNodeIntoBin i := by
    simp only [Allocator.freeSlot, hm₁, hm₂]
  -- the slot's record gets the merged range before it is parked
  have h₃ := h₂.rewrite (f := fun m => { m with dataOffset := offset, dataSize := size }) rfl rfl
    (h₂.gens i)
  generalize hw : (a₂.onSlot (some i) fun m =>
      { m with dataOffset := offset, dataSize := size }) = w at *
  have hself : w.nodes i = { a₂.nodes i with dataOffset := offset, dataSize := size } := by
    rw [← hw, onSlot_nodes, if_pos rfl]
  have hkeep : ∀ j, i ≠ j → w.nodes j = a₂.nodes j := by
    intro j hj
    rw [← hw, onSlot_nodes, if_neg (fun he => hj (Option.some.inj he))]
  have hclosed : ∀ link : Option ℕ, link ≠ some i → a₂.Closed link → w.Closed link := by
    intro link hne hc j hj
    rw [inUse, hkeep j (fun he => hne (he ▸ hj))]
    exact hc j hj
  have hleft : a₂.Closed (final none l') := by
    intro j hj
    exact (congrArg View.used (hv₂ j)).trans (hcl j hj)
  have hpark := h₃.park (by rw [off, hself]) (by rw [sz, hself])
    (hclosed _ (fun hf => h₃.slot_not_mem (mem_append_left _ (mem_of_final_none hf))) hleft)
    (hclosed _ (fun hf => h₃.slot_not_mem (mem_append_right _ (mem_of_first_none hf))) hcr)
  have hsame := insert_sameRanges w i
  have hr' : (r' = r ∧ a.Closed (first r none)) ∨ ∃ q, r = q :: r' ∧ a.inUse q = false := by
    rcases hr with ⟨he, hc⟩ | ⟨q, he, hq⟩
    · refine Or.inl ⟨he, fun j hj => ?_⟩
      exact (congrArg View.used (hv₁ j)).symm.trans (hc j hj)
    · exact Or.inr ⟨q, he, (congrArg View.used (hv₁ q)).symm.trans hq⟩
  rw [heq]
  refine ⟨l', r', _, hpark, hl, hr', ?_, ?_, ?_⟩
  · rw [inUse, insert_used, if_pos rfl]
  · intro j
    rw [hsame.gen]
    have hg : (a₂.nodes j).gen = (a.nodes j).gen := congrArg View.gen (hv j)
    by_cases hj : i = j
    · subst hj
      rw [hself]
      exact hg
    · rw [hkeep j hj]
      exact hg
  · intro j hj
    rw [← hv j, view, view, off, off, sz, sz, inUse, inUse, hsame.dataOffset, hsame.dataSize,
      hsame.gen, insert_used, if_neg (Ne.symm hj), hkeep j (Ne.symm hj)]

theorem free_capacity (a : Allocator) (al : Allocation) :
    (a.free al).size = a.size ∧ (a.free al).maxAllocs = a.maxAllocs := by
  have hprev : ∀ (a : Allocator) (i : ℕ), (a.mergePrev i).2.size = a.size ∧
      (a.mergePrev i).2.maxAllocs = a.maxAllocs := by
    intro a i
    unfold mergePrev
    dsimp only
    split
    · exact ⟨rfl, rfl⟩
    split
    · exact ⟨rfl, rfl⟩
    · rename_i p _ _
      simp only [pushNode, onSlot_size, onSlot_maxAllocs]
      exact ⟨(remove_sameRanges a p).size, (remove_sameRanges a p).maxAllocs⟩
  have hnext : ∀ (a : Allocator) (i k : ℕ), (a.mergeNext i k).2.size = a.size ∧
      (a.mergeNext i k).2.maxAllocs = a.maxAllocs := by
    intro a i k
    unfold mergeNext
    dsimp only
    split
    · exact ⟨rfl, rfl⟩
    split
    · exact ⟨rfl, rfl⟩
    · rename_i q _ _
      simp only [pushNode, onSlot_size, onSlot_maxAllocs]
      exact ⟨(remove_sameRanges a q).size, (remove_sameRanges a q).maxAllocs⟩
  unfold free
  split
  · generalize al.metaWord &&& metaSlotMask = i
    obtain ⟨hp1, hp2⟩ := hprev a i
    obtain ⟨hn1, hn2⟩ := hnext (a.mergePrev i).2 i (a.mergePrev i).1.2
    have hpark := insert_sameRanges (((a.mergePrev i).2.mergeNext i (a.mergePrev i).1.2).2.onSlot
      (some i) fun m => { m with
        dataOffset := (a.mergePrev i).1.1
        dataSize := ((a.mergePrev i).2.mergeNext i (a.mergePrev i).1.2).1 }) i
    have hs := hpark.size
    have hm := hpark.maxAllocs
    rw [onSlot_size] at hs
    rw [onSlot_maxAllocs] at hm
    exact ⟨hs.trans (hn1.trans hp1), hm.trans (hn2.trans hp2)⟩
  · exact ⟨rfl, rfl⟩

end Allocator

end KVStash.Dram.OffsetAlloc
