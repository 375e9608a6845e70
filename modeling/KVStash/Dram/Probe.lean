/- GID: KVStash/Dram/Probe
   digest: The storage report names the requests that Alloc serves, and CanStore is exact. -/

import KVStash.Dram.OffsetAlloc.StaleFree
import KVStash.Dram.Tier.Model

set_option autoImplicit false

namespace KVStash.Dram.OffsetAlloc

open Foundation.BitMask SmallFloat

/-- `bits.LeadingZeros8`. -/
def leadingZeros8 (x : ℕ) : ℕ := if x = 0 then 8 else 7 - Nat.log2 x

structure StorageReport where
  totalFreeSpace : ℕ := 0
  largestFreeRegion : ℕ := 0

namespace Allocator

def highestBin (a : Allocator) : ℕ :=
  let topBinIndex := 31 - leadingZeros32 a.usedBinsTop
  let leafBinIndex := 7 - leadingZeros8 (a.usedBins topBinIndex)
  topBinIndex <<< topBinsIndexShift ||| leafBinIndex

/-- With the node pool exhausted no Alloc can succeed, and nothing is reported. -/
def storageReport (a : Allocator) : StorageReport :=
  if a.freeOffset = 0 then {}
  else
    { totalFreeSpace := a.freeStorage
      largestFreeRegion := if a.usedBinsTop ≠ 0 then floatToUint a.highestBin else 0 }

variable {a : Allocator} {L : List ℕ} {B : ℕ → List ℕ} {n : ℕ}

/-- The reported bin has a member, and no bin above it has. -/
theorem WellFormed.highestBin (h : WellFormed a L B) (ht : a.usedBinsTop ≠ 0) :
    B a.highestBin ≠ [] ∧ ∀ b, B b ≠ [] → b ≤ a.highestBin := by
  have hmasks := h.bins.masks
  obtain ⟨hrow, hlt, hne, hmax⟩ := hmasks.highest ht
  have hbin : a.highestBin = 8 * a.usedBinsTop.log2 + (a.usedBins a.usedBinsTop.log2).log2 := by
    have h8 : 7 - leadingZeros8 (a.usedBins a.usedBinsTop.log2) =
        (a.usedBins a.usedBinsTop.log2).log2 := by
      rw [leadingZeros8, if_neg hrow]
      omega
    rw [Allocator.highestBin, highest_bit ht hmasks.topWidth, h8]
    exact bin_join hlt
  rw [hbin]
  refine ⟨hne, fun b hb => ?_⟩
  rw [← Nat.div_add_mod b 8] at hb ⊢
  exact hmax _ _ (Nat.mod_lt b (by decide)) hb

/-- The report and Alloc agree on every request. -/
theorem WellFormed.report_exact (h : WellFormed a L B) (hn : 1 ≤ n) (hn32 : n < 2 ^ 32) :
    n ≤ a.storageReport.largestFreeRegion ↔ (a.alloc n).isSome = true := by
  unfold storageReport
  constructor
  · intro hle
    split_ifs at hle with hpool ht
    · exact absurd hn (Nat.not_le.mpr (Nat.lt_succ_of_le hle))
    · obtain ⟨i, hi⟩ := List.exists_mem_of_ne_nil _ (h.highestBin ht).1
      obtain ⟨hfree, hbin⟩ := (h.bins.mem _ i).mp hi
      obtain ⟨hL, hu⟩ := mem_freeSlots.mp hfree
      have hfit : uintToFloatRoundUp n ≤ a.binOf i := hbin ▸ (roundUp_le_iff hn32).mpr hle
      obtain ⟨al, a', halloc⟩ := h.alloc_succeeds hn (Nat.pos_of_ne_zero hpool) hL hu hfit
      rw [halloc]
      rfl
    · exact absurd hn (Nat.not_le.mpr (Nat.lt_succ_of_le hle))
  · intro hsome
    obtain ⟨⟨al, a'⟩, halloc⟩ := Option.isSome_iff_exists.mp hsome
    obtain ⟨-, hpool, t, leaf, i, hfind, -⟩ := alloc_some halloc
    obtain ⟨hl, hne, hle⟩ := h.bins.findBin_sound hfind
    have hrow := (h.bins.masks.row_ne_zero t).mpr ⟨leaf, hl, hne⟩
    have ht : a.usedBinsTop ≠ 0 :=
      (ne_zero_iff_testBit _).mpr ⟨t, (h.bins.masks.top t).mpr hrow⟩
    rw [if_neg hpool.ne']
    dsimp only
    rw [if_pos ht]
    exact (roundUp_le_iff hn32).mp (hle.trans ((h.highestBin ht).2 _ hne))

end Allocator

end KVStash.Dram.OffsetAlloc

namespace KVStash.Dram.Probe

open OffsetAlloc Foundation.Run Protocol
open Tier (Key bytesToUnits)

/-- A block as its reference has it: the extent's offset in units and the handle that frees it. -/
structure Block where
  offset : ℕ
  len : ℕ
  xxh3 : ℕ
  allocMeta : ℕ

/-- A store with neither a running evictor nor tenant quotas, in the hands of one caller. -/
structure Store where
  index : Key → Option Block
  alloc : Allocator
  liveAllocs : ℕ
  occGen : ℕ

namespace Store

def canStore (s : Store) (n : ℕ) : Bool :=
  if n = 0 then true
  else decide (bytesToUnits n ≤ s.alloc.storageReport.largestFreeRegion)

def publish (s : Store) (k : Key) (b : Block) : Store :=
  { s with
    index := Function.update s.index k (some b)
    liveAllocs := s.liveAllocs + 1
    occGen := s.occGen + 1 }

def put (s : Store) (k : Key) (data : List UInt8) (xxh3 : ℕ) : Status × Store :=
  match s.index k with
  | some existing => (if existing.xxh3 = xxh3 then .okExists else .errImmutableConflict, s)
  | none =>
    -- an empty block owns no extent
    if data.length = 0 then (.ok, s.publish k ⟨0, 0, xxh3, 0⟩)
    else
      match s.alloc.alloc (bytesToUnits data.length) with
      | none => (.errQuotaBytes, s)
      | some (al, alloc) =>
        (.ok, { s with alloc := alloc }.publish k ⟨al.offset, data.length, xxh3, al.metaWord⟩)

variable {s : Store} {k : Key} {data : List UInt8} {xxh3 : ℕ}

theorem put_ok_iff (hk : s.index k = none) : (s.put k data xxh3).1 = .ok ↔
    data.length = 0 ∨ (s.alloc.alloc (bytesToUnits data.length)).isSome = true := by
  rw [put, hk]
  dsimp only
  split_ifs with h0
  · simp [h0]
  · cases s.alloc.alloc (bytesToUnits data.length) with
    | none => simp [h0]
    | some r => simp

end Store

/-- In every state that calls of Alloc and Free reach, the report names exactly the requests that
Alloc serves, also with the node pool exhausted; so the probe of a store over that allocator says
whether a Put of a new key obtains its extent. -/
theorem probe_exact {size maxAllocs : ℕ} {ops : List Op} {s : Store} (hs : size < 2 ^ 32)
    (hm : 1 ≤ maxAllocs)
    (hcalls : run Allocator.call (Allocator.newAllocator size maxAllocs) ops = some s.alloc) :
    (∀ n, 1 ≤ n → n < 2 ^ 32 → (n ≤ s.alloc.storageReport.largestFreeRegion ↔
      (s.alloc.alloc n).isSome = true)) ∧
    ∀ k data xxh3, s.index k = none → data.length < 2 ^ 32 →
      (s.canStore data.length = true ↔ (s.put k data xxh3).1 = .ok) := by
  obtain ⟨⟨L, B, hw⟩, -⟩ := Allocator.run_call_wellFormed hs hm hcalls
  refine ⟨fun n hn hn32 => hw.report_exact hn hn32, fun k data xxh3 hk hlen => ?_⟩
  rw [Store.put_ok_iff hk, Store.canStore]
  split_ifs with h0
  · simp [h0]
  · have hunits : 1 ≤ bytesToUnits data.length ∧ bytesToUnits data.length < 2 ^ 32 := by
      unfold bytesToUnits Tier.AllocUnit
      omega
    rw [decide_eq_true_iff, hw.report_exact hunits.1 hunits.2, or_iff_right h0]

/-- One block of 103 units leaves 25 of 128, which are reported as 24. -/
theorem probe_exact_near_full : ∃ a,
    run Allocator.call (Allocator.newAllocator 128 4) [.alloc 103] = some a ∧
    a.storageReport.largestFreeRegion = 24 ∧ (a.alloc 24).isSome = true ∧
    ∀ data xxh3, data.length = 100000 →
      (Store.put ⟨fun _ => none, a, 1, 1⟩ ⟨0, 7⟩ data xxh3).1 ≠ .ok := by
  have hrun : (run Allocator.call (Allocator.newAllocator 128 4) [.alloc 103]).any
      (·.storageReport.largestFreeRegion = 24) = true := by
    decide +kernel
  obtain ⟨a, hcalls, hrep⟩ := (Option.any_eq_true _ _).mp hrun
  have hrep := of_decide_eq_true hrep
  obtain ⟨hreport, hprobe⟩ :=
    probe_exact (s := ⟨fun _ => none, a, 1, 1⟩) (by decide) (by decide) hcalls
  refine ⟨a, hcalls, hrep, (hreport 24 (by decide) (by decide)).mp hrep.ge, ?_⟩
  intro data xxh3 hlen hok
  have hfits := (hprobe _ data xxh3 rfl (by omega)).mpr hok
  rw [hlen, Store.canStore, if_neg (by decide), hrep] at hfits
  exact absurd hfits (by decide)

end KVStash.Dram.Probe
