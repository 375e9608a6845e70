/- GID: KVStash/Dram/OffsetAlloc/Pool
   digest: The node pool lasts as long as fewer allocations than budgeted are live, and each slot
     has one place. -/

import KVStash.Dram.OffsetAlloc.Runs

set_option autoImplicit false

namespace KVStash.Dram.OffsetAlloc

open Foundation.LinkedSegment List
open Foundation.Run
open Dram.SmallFloat

namespace Allocator

/-- An allocator with a budget of live allocations, which is cut down to what the slot field of a
handle can name. The products are 32-bit words. A capacity without a node to stand for it makes the
constructor panic: `none`. -/
def newAllocatorMax (size maxAllocs : ℕ) : Option Allocator :=
  let maxAllocs := if 1 <<< metaSlotBits < maxAllocs * 2 % 2 ^ 32 then 1 <<< (metaSlotBits - 1)
    else maxAllocs
  let poolLen := maxAllocs * 2 % 2 ^ 32
  if 0 < size ∧ poolLen = 0 then none
  else some { newAllocator size (poolLen / 2) with maxAllocs := maxAllocs }

/-! ### Where the stack of nodes is used -/

def popStates (a : Allocator) (n : ℕ) : List Allocator :=
  if n = 0 ∨ a.freeOffset < 1 then []
  else
    match a.findBin n with
    | none => []
    | some (topBinIndex, leafBinIndex) =>
      match a.binIndices (topBinIndex <<< topBinsIndexShift ||| leafBinIndex) with
      | none => []
      | some nodeIndex =>
        if 0 < (a.nodes nodeIndex).dataSize - n
          then [a.takeHead nodeIndex topBinIndex leafBinIndex n] else []

def prevPush (a : Allocator) (idx : ℕ) : Option (Allocator × ℕ) :=
  match (a.nodes idx).neighborPrev with
  | none => none
  | some prevIdx =>
    let prev := a.nodes prevIdx
    if prev.used then none
    else
      let a := a.removeNodeFromBin prevIdx
      let a := a.onSlot (some idx) fun m => { m with neighborPrev := prev.neighborPrev }
      some (a.onSlot prev.neighborPrev fun m => { m with neighborNext := some idx }, prevIdx)

def nextPush (a : Allocator) (idx : ℕ) : Option (Allocator × ℕ) :=
  match (a.nodes idx).neighborNext with
  | none => none
  | some nextIdx =>
    let next := a.nodes nextIdx
    if next.used then none
    else
      let a := a.removeNodeFromBin nextIdx
      let a := a.onSlot (some idx) fun m => { m with neighborNext := next.neighborNext }
      some (a.onSlot next.neighborNext fun m => { m with neighborPrev := some idx }, nextIdx)

def pushStates (a : Allocator) (al : Allocation) : List Allocator :=
  if a.accepts al then
    let idx := al.metaWord &&& metaSlotMask
    ((a.prevPush idx).toList ++ ((a.mergePrev idx).2.nextPush idx).toList).map Prod.fst
  else []

variable {a : Allocator} {L : List ℕ} {B : ℕ → List ℕ} {n : ℕ} {b : Allocator}

theorem mergePrev_eq (a : Allocator) (idx : ℕ) :
    (a.mergePrev idx).2 = ((a.prevPush idx).map fun x => x.1.pushNode x.2).getD a := by
  unfold mergePrev prevPush
  dsimp only
  cases (a.nodes idx).neighborPrev with
  | none => rfl
  | some j =>
    dsimp only
    split <;> rfl

theorem mergeNext_eq (a : Allocator) (idx size : ℕ) :
    (a.mergeNext idx size).2 = ((a.nextPush idx).map fun x => x.1.pushNode x.2).getD a := by
  unfold mergeNext nextPush
  dsimp only
  cases (a.nodes idx).neighborNext with
  | none => rfl
  | some j =>
    dsimp only
    split <;> rfl

/-- A request that is met pops once, where it splits what is left of the range off the state in
`popStates`, or not at all; a refused one does not pop. -/
theorem alloc_pops (a : Allocator) (n : ℕ) :
    (a.alloc n = none → a.popStates n = []) ∧
      ∀ al a', a.alloc n = some (al, a') → ∃ i t leaf,
        a' = ((a.popStates n).head?.map fun b => b.splitAfter i n (a.sz i - n)).getD
          (a.takeHead i t leaf n) := by
  constructor
  · intro h
    by_contra hne
    obtain ⟨b, hb⟩ := exists_mem_of_ne_nil _ hne
    unfold popStates at hb
    unfold alloc at h
    grind
  · intro al a' h
    obtain ⟨hn, hpool, t, leaf, i, hfind, hhead, rfl, -⟩ := alloc_some h
    refine ⟨i, t, leaf, ?_⟩
    have hpops : a.popStates n = if 0 < a.sz i - n then [a.takeHead i t leaf n] else [] := by
      rw [popStates, if_neg (fun hor => hor.elim hn fun hlt => by omega), hfind]
      dsimp only
      rw [hhead]
      rfl
    rw [hpops]
    by_cases hrem : 0 < a.sz i - n
    · rw [if_pos hrem, if_pos hrem]
      rfl
    · rw [if_neg hrem, if_neg hrem]
      rfl

theorem takeHead_freeOffset (a : Allocator) (i t leaf n : ℕ) :
    (a.takeHead i t leaf n).freeOffset = a.freeOffset := by
  simp only [takeHead, onSlot_freeOffset]
  exact (unlinkHead_sameRanges a i (t <<< topBinsIndexShift ||| leaf) t leaf).freeOffset

theorem popStates_freeOffset (h : b ∈ a.popStates n) : 0 < b.freeOffset := by
  unfold popStates at h
  split at h
  · cases h
  rename_i hguard
  split at h
  · cases h
  split at h
  · cases h
  · split at h
    · rw [mem_singleton] at h
      rw [h, takeHead_freeOffset]
      omega
    · cases h

theorem freeSlot_freeOffset (a : Allocator) (idx : ℕ) : (a.freeSlot idx).freeOffset =
    ((a.mergePrev idx).2.mergeNext idx (a.mergePrev idx).1.2).2.freeOffset := by
  have hpark :=
    insert_sameRanges (((a.mergePrev idx).2.mergeNext idx (a.mergePrev idx).1.2).2.onSlot
    (some idx) fun m => { m with
      dataOffset := (a.mergePrev idx).1.1
      dataSize := ((a.mergePrev idx).2.mergeNext idx (a.mergePrev idx).1.2).1 }) idx
  have hoff := hpark.freeOffset
  rw [onSlot_freeOffset] at hoff
  exact hoff

theorem prevPush_fields {i idx : ℕ} (h : a.prevPush idx = some (b, i)) :
    b.maxAllocs = a.maxAllocs ∧ b.freeOffset = a.freeOffset := by
  unfold prevPush at h
  split at h
  · cases h
  dsimp only at h
  split at h
  · cases h
  · cases h
    rw [onSlot_maxAllocs, onSlot_maxAllocs, onSlot_freeOffset, onSlot_freeOffset]
    exact ⟨(remove_sameRanges a i).maxAllocs, (remove_sameRanges a i).freeOffset⟩

theorem nextPush_fields {i idx : ℕ} (h : a.nextPush idx = some (b, i)) :
    b.maxAllocs = a.maxAllocs ∧ b.freeOffset = a.freeOffset := by
  unfold nextPush at h
  split at h
  · cases h
  dsimp only at h
  split at h
  · cases h
  · cases h
    rw [onSlot_maxAllocs, onSlot_maxAllocs, onSlot_freeOffset, onSlot_freeOffset]
    exact ⟨(remove_sameRanges a i).maxAllocs, (remove_sameRanges a i).freeOffset⟩

theorem mergePrev_maxAllocs (a : Allocator) (idx : ℕ) :
    (a.mergePrev idx).2.maxAllocs = a.maxAllocs := by
  rw [mergePrev_eq]
  cases h : a.prevPush idx with
  | none => rfl
  | some x => exact (prevPush_fields h).1

theorem pushStates_freeOffset {al : Allocation} (h : b ∈ a.pushStates al)
    (hroom : (a.free al).freeOffset ≤ a.poolLen) : b.freeOffset < b.poolLen := by
  unfold pushStates at h
  split at h
  · rename_i hacc
    rw [Allocator.free, if_pos hacc, freeSlot_freeOffset, mergeNext_eq] at hroom
    dsimp only at h
    generalize al.metaWord &&& metaSlotMask = idx at h hroom
    have hmax := mergePrev_maxAllocs a idx
    have hheight := congrArg Allocator.freeOffset (mergePrev_eq a idx)
    rw [map_append, mem_append] at h
    unfold poolLen at hroom ⊢
    rcases h with h | h
    · obtain ⟨⟨b', i⟩, hb, rfl⟩ := mem_map.mp h
      rw [Option.mem_toList] at hb
      rw [hb] at hheight
      rw [(prevPush_fields hb).1]
      change _ = b'.freeOffset + 1 at hheight
      cases hnext : (a.mergePrev idx).2.nextPush idx with
      | none =>
        rw [hnext] at hroom
        change (a.mergePrev idx).2.freeOffset ≤ _ at hroom
        dsimp only
        omega
      | some x =>
        have hle : (a.mergePrev idx).2.freeOffset ≤ x.1.freeOffset := (nextPush_fields hnext).2.ge
        rw [hnext] at hroom
        change x.1.freeOffset + 1 ≤ _ at hroom
        dsimp only
        omega
    · obtain ⟨⟨b', i⟩, hb, rfl⟩ := mem_map.mp h
      rw [Option.mem_toList] at hb
      rw [hb] at hroom
      rw [(nextPush_fields hb).1, hmax]
      exact hroom
  · cases h

/-- In a list without free neighbours there is at most one free slot more than handed-out ones, and
none more if the list begins with a handed-out one. -/
theorem Coalesced.countP_le (h : a.Coalesced L) :
    L.countP (fun i => !a.inUse i) ≤ L.countP a.inUse + if (L.head?.map a.inUse).getD true
      then 0 else 1 := by
  unfold Coalesced at h
  induction L with
  | nil => exact Nat.zero_le _
  | cons i L ih =>
    rw [isChain_cons] at h
    have ih := ih h.2
    rw [countP_cons, countP_cons, head?_cons, Option.map_some, Option.getD_some]
    cases hi : a.inUse i with
    | true =>
      split_ifs at ih <;> simp <;> omega
    | false =>
      -- the next slot, if there is one, is handed out
      have hnext : (L.head?.map a.inUse).getD true = true := by
        cases hL : L.head? with
        | none => rfl
        | some j =>
          have := h.1 j hL
          rw [hi] at this
          exact this.resolve_left Bool.false_ne_true
      rw [hnext] at ih
      simp
      simpa using ih

theorem Coalesced.length_le (h : a.Coalesced L) : L.length ≤ 2 * L.countP a.inUse + 1 := by
  have hfree := h.countP_le
  have hlen := length_eq_countP_add_countP (l := L) a.inUse
  have hnot : L.countP (fun i => decide ¬a.inUse i = true) = L.countP fun i => !a.inUse i := by
    congr 1
    funext i
    cases a.inUse i <;> rfl
  rw [hnot] at hlen
  split_ifs at hfree <;> omega

end Allocator

namespace Ledger

open Allocator

/-- The node pool of an allocator with `m` budgeted allocations over `size` units; `L` are the slots
in neighbour order. -/
structure PoolSound (size m : ℕ) (s : Ledger) (L : List ℕ) : Prop where
  budget : s.heap.maxAllocs = m
  neighbours : Linked s.heap.nbNext s.heap.nbPrev none L none ∧ Tiles s.heap.off s.heap.sz 0 L size
  once : ∀ i < m * 2, s.heap.stack.count i + L.count i = 1
  spare : s.live.length < m → 0 < s.heap.freeOffset
  refused : s.live.length < m → ∀ n, 1 ≤ n → s.heap.alloc n = none →
    ∀ i ∈ L, s.heap.inUse i = false → s.heap.binOf i < uintToFloatRoundUp n
  pops : ∀ n, ∀ b ∈ s.heap.popStates n, 0 < b.freeOffset
  pushes : ∀ x ∈ s.live, ∀ b ∈ s.heap.pushStates x.1, b.freeOffset < b.poolLen

variable {size maxAllocs : ℕ} {s : Ledger} {L : List ℕ} {B : ℕ → List ℕ}

theorem Inv.countP_inUse (h : Inv size maxAllocs s L B) :
    L.countP s.heap.inUse = s.live.length := by
  have hnd : L.Nodup := (nodup_append.mp h.heap.nodup).2.1
  have hperm : (L.filter s.heap.inUse).Perm (s.live.map fun x => x.1.slot) := by
    refine (perm_ext_iff_of_nodup (hnd.filter _) h.owned.slots).mpr fun i => ?_
    rw [mem_filter, h.owned.members]
  rw [countP_eq_length_filter, hperm.length_eq, length_map]

theorem Inv.freeOffset_le (h : Inv size maxAllocs s L B) :
    s.heap.freeOffset + L.length = maxAllocs * 2 := by
  have hlen := h.heap.pool.length_eq
  rw [length_append, length_range, stack_length, poolLen, h.budget] at hlen
  exact hlen

theorem Inv.poolSound (h : Inv size maxAllocs s L B) : PoolSound size maxAllocs s L where
  budget := h.budget
  neighbours := by
    have htiles := h.heap.tiles
    rw [h.capacity] at htiles
    exact ⟨h.heap.linked, htiles⟩
  once i hi := by
    rw [← count_append, h.heap.pool.count_eq, poolLen, h.budget]
    exact count_eq_one_of_mem nodup_range (mem_range.mpr hi)
  spare := spare
  refused hlive n hn hnone i hi hu := by
    by_contra hge
    obtain ⟨al, a', halloc⟩ := h.heap.alloc_succeeds hn (spare hlive) hi hu (not_lt.mp hge)
    rw [hnone] at halloc
    cases halloc
  pops _ _ := popStates_freeOffset
  pushes x hx b hb := by
    have hword : x.1.metaWord ≠ unusedIndex := by
      intro hword
      have hrefused : s.heap.accepts x.1 = false := by
        rw [accepts]
        exact decide_eq_false fun hacc => hacc.1 hword
      rw [pushStates, hrefused] at hb
      cases hb
    obtain ⟨hL, -⟩ := (h.owned.members x.1.slot).mp (mem_map_of_mem hx)
    obtain ⟨l, r, rfl⟩ := append_of_mem hL
    obtain ⟨t, l', r', B', hstep, hinv, -⟩ := h.free (n := x.2) hx rfl hword
    have hheap : t.heap = s.heap.free x.1 := by
      rw [Ledger.step, if_pos (mem_map_of_mem hx)] at hstep
      cases hstep
      rfl
    refine pushStates_freeOffset hb ?_
    have hle := hinv.freeOffset_le
    rw [hheap] at hle
    rw [poolLen, h.budget]
    omega
where
  spare (hlive : s.live.length < maxAllocs) : 0 < s.heap.freeOffset := by
    have hlen := h.heap.coalesced.length_le
    rw [h.countP_inUse] at hlen
    have hsum := h.freeOffset_le
    omega

theorem newAllocatorMax_eq (hm1 : 1 ≤ maxAllocs) (hm : maxAllocs < 2 ^ 31) :
    newAllocatorMax size maxAllocs = some (newAllocator size (min maxAllocs (2 ^ 17))) := by
  have hclamp : (if 1 <<< metaSlotBits < maxAllocs * 2 % 2 ^ 32 then 1 <<< (metaSlotBits - 1)
      else maxAllocs) =
      min maxAllocs (2 ^ 17) := by
    have hbits : 1 <<< metaSlotBits = 2 ^ 18 := by decide
    have hhalf : 1 <<< (metaSlotBits - 1) = 2 ^ 17 := by decide
    rw [hbits, hhalf]
    split_ifs <;> omega
  have hpool : min maxAllocs (2 ^ 17) * 2 % 2 ^ 32 = min maxAllocs (2 ^ 17) * 2 :=
    Nat.mod_eq_of_lt (by omega)
  have hbudget : (newAllocator size (min maxAllocs (2 ^ 17))).maxAllocs = min maxAllocs (2 ^ 17) :=
    newAllocator_capacity.2
  unfold newAllocatorMax
  dsimp only
  rw [hclamp, hpool, if_neg (by omega), Nat.mul_div_cancel _ (by decide)]
  have heta : ∀ (b : Allocator) (k : ℕ), b.maxAllocs = k → { b with maxAllocs := k } = b := by
    rintro b _ rfl
    rfl
  rw [heta _ _ hbudget]

/-- Whatever is allocated and freed, the node pool is not what refuses a request while fewer
allocations than budgeted are live, the stack of nodes is never popped empty or pushed full, and
each slot is once on it or once in the neighbour list. -/
theorem pool_never_binds (hs : size < 2 ^ 32) (hm1 : 1 ≤ maxAllocs) (hm : maxAllocs < 2 ^ 31) :
    newAllocatorMax size maxAllocs = some (start size (min maxAllocs (2 ^ 17))).heap ∧
      ∀ ops s, Along step Distinct (start size (min maxAllocs (2 ^ 17))) ops →
        run step (start size (min maxAllocs (2 ^ 17))) ops = some s →
          ∃ L, PoolSound size (min maxAllocs (2 ^ 17)) s L := by
  refine ⟨newAllocatorMax_eq hm1 hm, fun ops s hd hr => ?_⟩
  obtain ⟨L, B, h⟩ := run_inv hs (by omega) (by omega) hd hr
  exact ⟨L, h.poolSound⟩

theorem pool_never_binds_one :
    ∃ s, run step (start 8 1) [.alloc 3, .alloc 2, .free ⟨0, 2 ^ 18⟩] = some s ∧
      ∃ L, PoolSound 8 1 s L := by
  have hd : Along step Distinct (start 8 1) [.alloc 3, .alloc 2, .free ⟨0, 2 ^ 18⟩] :=
    ⟨trivial,
      fun _ _ => ⟨trivial, fun _ _ => ⟨show 2 ^ 18 ≠ unusedIndex by decide, fun _ _ => trivial⟩⟩⟩
  have hpool := pool_never_binds (show 8 < 2 ^ 32 by decide) (show 1 ≤ 1 by decide) (by decide)
  exact ⟨_, rfl, hpool.2 _ _ hd rfl⟩

/-- A budget of half a word leaves no node at all, and one more leaves two: the first request takes
the last node and the next one is refused, with one allocation live and two units free. -/
theorem budget_wraps :
    newAllocatorMax 1 (2 ^ 31) = none ∧
      ∃ a al a', newAllocatorMax 3 (2 ^ 31 + 1) = some a ∧ a.maxAllocs = 2 ^ 31 + 1 ∧
        a.alloc 1 = some (al, a') ∧
        a'.freeOffset = 0 ∧ a'.freeStorage = 2 ∧ a'.alloc 1 = none := by
  refine ⟨by decide +kernel, ?_⟩
  have hrun : ∃ a ∈ newAllocatorMax 3 (2 ^ 31 + 1), a.maxAllocs = 2 ^ 31 + 1 ∧ ∃ x ∈ a.alloc 1,
      x.2.freeOffset = 0 ∧ x.2.freeStorage = 2 ∧ (x.2.alloc 1).isNone := by decide +kernel
  obtain ⟨a, ha, hmax, ⟨al, a'⟩, halloc, hoff, hfree, hnone⟩ := hrun
  exact ⟨a, al, a', ha, hmax, halloc, hoff, hfree, Option.isNone_iff_eq_none.mp hnone⟩

end Ledger

end KVStash.Dram.OffsetAlloc
