/- GID: KVStash/Dram/OffsetAlloc/Model
   digest: The offset allocator's node pool, bins, bitmasks and its Alloc and Free. -/

import KVStash.Foundation.BitMask
import KVStash.Dram.SmallFloat

set_option autoImplicit false

namespace KVStash.Dram.OffsetAlloc

open Foundation.BitMask
open Dram.SmallFloat

def topBinsIndexShift : ℕ := 3
def leafBinsIndexMask : ℕ := 7

/-- The failed-Alloc sentinel of `Allocation.Meta`. Slot links use `none` where
the source stores this value. -/
def unusedIndex : ℕ := 2 ^ 32 - 1

def metaSlotBits : ℕ := 18
def metaSlotMask : ℕ := (1 <<< metaSlotBits) - 1
def genMask : ℕ := (1 <<< (32 - metaSlotBits)) - 1

/-- The lowest set bit at or above `start`, or `none`. -/
def findLowestSetBitAfter (mask start : ℕ) : Option ℕ :=
  let maskAfter := andNot mask ((1 <<< start) - 1)
  if maskAfter = 0 then none else some (trailingZeros32 maskAfter)

/-- One contiguous range, either free (parked in a bin) or handed out. -/
structure Node where
  dataOffset : ℕ := 0
  dataSize : ℕ := 0
  binListPrev : Option ℕ := none
  binListNext : Option ℕ := none
  neighborPrev : Option ℕ := none
  neighborNext : Option ℕ := none
  gen : ℕ := 0
  used : Bool := false
  deriving DecidableEq, Repr

/-- A live range handed out by Alloc. `metaWord` is the generation-tagged slot. -/
structure Allocation where
  offset : ℕ
  metaWord : ℕ
  deriving DecidableEq, Repr

/-- The allocator's state. `nodes` and `freeNodes` have `poolLen` entries. -/
structure Allocator where
  size : ℕ
  maxAllocs : ℕ
  freeStorage : ℕ
  usedBinsTop : ℕ
  usedBins : ℕ → ℕ
  binIndices : ℕ → Option ℕ
  nodes : ℕ → Node
  freeNodes : ℕ → ℕ
  freeOffset : ℕ

namespace Allocator

def poolLen (a : Allocator) : ℕ := a.maxAllocs * 2

def setNode (a : Allocator) (i : ℕ) (n : Node) : Allocator :=
  { a with nodes := Function.update a.nodes i n }

def onSlot (a : Allocator) (link : Option ℕ) (f : Node → Node) : Allocator :=
  match link with
  | none => a
  | some j => a.setNode j (f (a.nodes j))

def popNode (a : Allocator) : ℕ × Allocator :=
  let freeOffset := a.freeOffset - 1
  (a.freeNodes freeOffset, { a with freeOffset := freeOffset })

def pushNode (a : Allocator) (idx : ℕ) : Allocator :=
  { a with
    freeNodes := Function.update a.freeNodes a.freeOffset idx
    freeOffset := a.freeOffset + 1 }

def binOf (a : Allocator) (i : ℕ) : ℕ := uintToFloatRoundDown (a.nodes i).dataSize

def markBin (a : Allocator) (binIndex : ℕ) : Allocator :=
  let topBinIndex := binIndex >>> topBinsIndexShift
  let leafBinIndex := binIndex &&& leafBinsIndexMask
  if a.binIndices binIndex = none then
    { a with
      usedBins := Function.update a.usedBins topBinIndex
        (a.usedBins topBinIndex ||| 1 <<< leafBinIndex)
      usedBinsTop := a.usedBinsTop ||| 1 <<< topBinIndex }
  else a

/-- Park a node in its round-down bin as the new list head, keeping its
neighbour links. -/
def insertExistingNodeIntoBin (a : Allocator) (nodeIndex : ℕ) : Allocator :=
  let dataSize := (a.nodes nodeIndex).dataSize
  let binIndex := a.binOf nodeIndex
  let head := a.binIndices binIndex
  let a := a.markBin binIndex
  let a := a.onSlot (some nodeIndex) fun n =>
    { n with binListPrev := none, binListNext := head, used := false }
  let a := a.onSlot head fun n => { n with binListPrev := some nodeIndex }
  { a with
    binIndices := Function.update a.binIndices binIndex (some nodeIndex)
    freeStorage := a.freeStorage + dataSize }

/-- Carve a fresh node for a free range. -/
def insertNodeIntoBin (a : Allocator) (size dataOffset : ℕ) : Allocator :=
  let (nodeIndex, a) := a.popNode
  let a := a.setNode nodeIndex { dataOffset := dataOffset, dataSize := size }
  a.insertExistingNodeIntoBin nodeIndex

def clearIfEmpty (a : Allocator) (binIndex topBinIndex leafBinIndex : ℕ) : Allocator :=
  if a.binIndices binIndex = none then
    let leaves := andNot (a.usedBins topBinIndex) (1 <<< leafBinIndex)
    { a with
      usedBins := Function.update a.usedBins topBinIndex leaves
      usedBinsTop :=
        if leaves = 0 then andNot a.usedBinsTop (1 <<< topBinIndex) else a.usedBinsTop }
  else a

def unlinkHead (a : Allocator) (nodeIndex binIndex topBinIndex leafBinIndex : ℕ) : Allocator :=
  let next := (a.nodes nodeIndex).binListNext
  let a := { a with binIndices := Function.update a.binIndices binIndex next }
  let a := a.onSlot next fun n => { n with binListPrev := none }
  a.clearIfEmpty binIndex topBinIndex leafBinIndex

def removeNodeFromBin (a : Allocator) (nodeIndex : ℕ) : Allocator :=
  let n := a.nodes nodeIndex
  let a := match n.binListPrev with
    | some p =>
      let a := a.onSlot (some p) fun m => { m with binListNext := n.binListNext }
      a.onSlot n.binListNext fun m => { m with binListPrev := some p }
    | none =>
      let binIndex := a.binOf nodeIndex
      a.unlinkHead nodeIndex binIndex (binIndex >>> topBinsIndexShift)
        (binIndex &&& leafBinsIndexMask)
  { a with freeStorage := a.freeStorage - n.dataSize }

/-- The first non-empty bin at or above the request's round-up bin, as its top
and leaf index. -/
def findBin (a : Allocator) (n : ℕ) : Option (ℕ × ℕ) :=
  let minBinIndex := uintToFloatRoundUp n
  let minTopBinIndex := minBinIndex >>> topBinsIndexShift
  let minLeafBinIndex := minBinIndex &&& leafBinsIndexMask
  let sameTop :=
    if a.usedBinsTop &&& 1 <<< minTopBinIndex ≠ 0 then
      findLowestSetBitAfter (a.usedBins minTopBinIndex) minLeafBinIndex
    else none
  match sameTop with
  | some leafBinIndex => some (minTopBinIndex, leafBinIndex)
  | none =>
    match findLowestSetBitAfter a.usedBinsTop (minTopBinIndex + 1) with
    | some topBinIndex => some (topBinIndex, trailingZeros32 (a.usedBins topBinIndex))
    | none => none

/-- Take the head node of a bin out of it and mark it handed out with `n` units. -/
def takeHead (a : Allocator) (nodeIndex topBinIndex leafBinIndex n : ℕ) : Allocator :=
  let binIndex := topBinIndex <<< topBinsIndexShift ||| leafBinIndex
  let totalSize := (a.nodes nodeIndex).dataSize
  let a := a.unlinkHead nodeIndex binIndex topBinIndex leafBinIndex
  let a := { a with freeStorage := a.freeStorage - totalSize }
  a.onSlot (some nodeIndex) fun nd =>
    { nd with
      dataSize := n
      used := true
      gen := (nd.gen + 1) &&& genMask
      binListPrev := none
      binListNext := none }

/-- Park the remainder of a split as a new free node right after `nodeIndex`. -/
def splitAfter (a : Allocator) (nodeIndex n remainder : ℕ) : Allocator :=
  let (newNodeIndex, a) := a.popNode
  let nd := a.nodes nodeIndex
  -- the whole record is replaced, the slot's generation included
  let a := a.setNode newNodeIndex {
    dataOffset := nd.dataOffset + n
    dataSize := remainder
    neighborPrev := some nodeIndex
    neighborNext := nd.neighborNext }
  let a := a.onSlot nd.neighborNext fun m => { m with neighborPrev := some newNodeIndex }
  let a := a.onSlot (some nodeIndex) fun m => { m with neighborNext := some newNodeIndex }
  a.insertExistingNodeIntoBin newNodeIndex

/-- A range of exactly `n` units, or `none` when `n` is 0, no free range fits or
the node pool is exhausted. A failed call leaves the state as it was. -/
def alloc (a : Allocator) (n : ℕ) : Option (Allocation × Allocator) :=
  if n = 0 then none
  else if a.freeOffset < 1 then none
  else
    match a.findBin n with
    | none => none
    | some (topBinIndex, leafBinIndex) =>
      match a.binIndices (topBinIndex <<< topBinsIndexShift ||| leafBinIndex) with
      | none => none
      | some nodeIndex =>
        let totalSize := (a.nodes nodeIndex).dataSize
        let a := a.takeHead nodeIndex topBinIndex leafBinIndex n
        let remainder := totalSize - n
        let a := if remainder > 0 then a.splitAfter nodeIndex n remainder else a
        let nd := a.nodes nodeIndex
        some (⟨nd.dataOffset, nd.gen <<< metaSlotBits ||| nodeIndex⟩, a)

/-- Merge a free previous neighbour: the merged offset and size and the state
with the neighbour spliced out. -/
def mergePrev (a : Allocator) (idx : ℕ) : (ℕ × ℕ) × Allocator :=
  let nd := a.nodes idx
  match nd.neighborPrev with
  | none => ((nd.dataOffset, nd.dataSize), a)
  | some prevIdx =>
    let prev := a.nodes prevIdx
    if prev.used then ((nd.dataOffset, nd.dataSize), a)
    else
      let a := a.removeNodeFromBin prevIdx
      let a := a.onSlot (some idx) fun m => { m with neighborPrev := prev.neighborPrev }
      let a := a.onSlot prev.neighborPrev fun m => { m with neighborNext := some idx }
      ((prev.dataOffset, nd.dataSize + prev.dataSize), a.pushNode prevIdx)

/-- Merge a free next neighbour into a range of `size` units. -/
def mergeNext (a : Allocator) (idx size : ℕ) : ℕ × Allocator :=
  match (a.nodes idx).neighborNext with
  | none => (size, a)
  | some nextIdx =>
    let next := a.nodes nextIdx
    if next.used then (size, a)
    else
      let a := a.removeNodeFromBin nextIdx
      let a := a.onSlot (some idx) fun m => { m with neighborNext := next.neighborNext }
      let a := a.onSlot next.neighborNext fun m => { m with neighborPrev := some idx }
      (size + next.dataSize, a.pushNode nextIdx)

/-- Return a checked slot to the bins, coalescing with its free neighbours. -/
def freeSlot (a : Allocator) (idx : ℕ) : Allocator :=
  let ((offset, size), a) := a.mergePrev idx
  let (size, a) := a.mergeNext idx size
  let a := a.onSlot (some idx) fun m => { m with dataOffset := offset, dataSize := size }
  a.insertExistingNodeIntoBin idx

def accepts (a : Allocator) (al : Allocation) : Bool :=
  let idx := al.metaWord &&& metaSlotMask
  let gen := al.metaWord >>> metaSlotBits
  al.metaWord ≠ unusedIndex ∧ idx < a.poolLen ∧ (a.nodes idx).used ∧ (a.nodes idx).gen = gen

/-- Release a live allocation. An invalid or repeated handle is a no-op. -/
def free (a : Allocator) (al : Allocation) : Allocator :=
  if a.accepts al then a.freeSlot (al.metaWord &&& metaSlotMask) else a

/-- Empty bins, a full node stack and one free node over the whole capacity. -/
def newAllocator (size maxAllocs : ℕ) : Allocator :=
  let poolLen := maxAllocs * 2
  let a : Allocator := {
    size := size
    maxAllocs := maxAllocs
    freeStorage := 0
    usedBinsTop := 0
    usedBins := fun _ => 0
    binIndices := fun _ => none
    nodes := fun _ => {}
    freeNodes := fun i => poolLen - i - 1
    freeOffset := poolLen }
  if size > 0 then a.insertNodeIntoBin size 0 else a

end Allocator

end KVStash.Dram.OffsetAlloc
