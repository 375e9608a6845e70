/- GID: KVStash/Tiered/System
   digest: The node as a system of concurrent calls, and the states it starts from. -/

import KVStash.Tiered.Calls

set_option autoImplicit false

namespace KVStash.Tiered.System

open Protocol Dram Tiered Tiered.Node
open Foundation.Run Foundation.Threads
open Dram.Tier (Key)
open Tiered.Disk (Loc NvmeRef Record Segment Tiers)

/-- The calls of a node: the verbs of the tiered store, the calls of the DRAM tier
itself, the background passes, the writer's rotations and the passing of time. -/
inductive Call
  | put (k : Key) (data : List UInt8) (xxh3 : ℕ)
  | getRef (k : Key)
  | contains (k : Key)
  | delete (k : Key) (force : Bool)
  | touchLease (k : Key) (sub : TouchSub) (ttlMS : ℕ)
  | pinOp (k : Key) (sub : PinSub)
  | dramPut (k : Key) (data : List UInt8) (xxh3 : ℕ)
  | dramGetRef (k : Key)
  | dramDelete (k : Key) (force : Bool)
  | dramTouchLease (k : Key) (sub : TouchSub) (ttlMS : ℕ)
  | dramPinOp (k : Key) (sub : PinSub)
  | evictOne (k : Key) (emergency : Bool)
  | refForDemotion (k : Key)
  | completeDemotion (k : Key) (xxh3 : ℕ)
  | demoteOne (k : Key)
  | promoteOne (k : Key) (e : NvmeRef)
  | reclaimSegment (from_ : ℕ)
  | spillOne (id : ℕ)
  | restoreOne (k : Key) (e : NvmeRef)
  | lateAdopt (id : ℕ)
  | collectOne
  | rotate
  | tryRecoverWrites
  | advance (d : ℕ)
  deriving DecidableEq

variable (p : Params)

def replying (c : Code Status) : Code Unit := do
  let st ← c
  answer (.of st)

def replyingLease (c : Code (Status × ℕ)) : Code Unit := do
  let x ← c
  answer ⟨x.1, [], x.2⟩

/-- `GetRef` of the DRAM tier; the caller releases some time after the answer. -/
def dramGetRef (k : Key) : Code Unit := do
  match ← Tier.getRef p.dram k with
  | none => answer (.of .notFound)
  | some h =>
    answer ⟨.ok, h.data, h.lease⟩
    Tier.release h.ref

/-- `RefForDemotion` by a caller that releases some time later. -/
def refForDemotion (k : Key) : Code Unit := do
  match ← Tier.refForDemotion k with
  | none => answer (.of .notFound)
  | some d =>
    answer ⟨.ok, d.data, 0⟩
    Tier.release d.ref

def completeDemotion (k : Key) (xxh3 : ℕ) : Code Unit := do
  let ok ← Tier.completeDemotion k xxh3 fun _ => pure ()
  answer (.of (if ok then .ok else .errBusy))

def evictOne (k : Key) (emergency : Bool) : Code Unit := do
  let _ ← Tier.evictOne k emergency
  pure ()

def body : Call → Code Unit
  | .put k data xxh3 => replying (Calls.put p k data xxh3)
  | .getRef k => Calls.getRefTier p k
  | .contains k => Calls.contains k
  | .delete k force => replying (Calls.delete p k force)
  | .touchLease k sub ttlMS => replyingLease (Calls.touchLease p k sub ttlMS)
  | .pinOp k sub => replying (Calls.pinOp p k sub)
  | .dramPut k data xxh3 => replying (Tier.put p.dram k data xxh3)
  | .dramGetRef k => dramGetRef p k
  | .dramDelete k force => replying (Tier.delete k force)
  | .dramTouchLease k sub ttlMS => replyingLease (Tier.touchLease p.dram k sub ttlMS)
  | .dramPinOp k sub => replying (Tier.pinOp k sub)
  | .evictOne k emergency => evictOne k emergency
  | .refForDemotion k => refForDemotion k
  | .completeDemotion k xxh3 => completeDemotion k xxh3
  | .demoteOne k => Calls.demoteOne p k
  | .promoteOne k e => replying (Calls.promoteOne p k e)
  | .reclaimSegment from_ => Calls.reclaimSegment p from_
  | .spillOne id => Calls.spillOne p id
  | .restoreOne k e => Calls.restoreOne p k e
  | .lateAdopt id => Calls.lateAdopt id
  | .collectOne => Calls.collectOne p
  | .rotate => Calls.rotate
  | .tryRecoverWrites => Calls.tryRecoverWrites
  | .advance d => dram (.advance d)

def system : System State Act Act.Resp Call Answer where
  exec := exec p
  answer
    | .answer x => some x
    | _ => none
  body := body p

abbrev NodePool : Type := Pool State Act Act.Resp Call Answer

def answerOf (q : NodePool) (i : ℕ) : Option Answer := (q.threads[i]?).bind Thread.answer

/-! ### Recovery -/

/-- One block that recovery found in a segment. -/
structure RecoveredEntry where
  key : Key
  loc : Loc
  xxh3 : ℕ

/-- What recovery found: the records of the segment files, which all come up sealed,
the next segment id, the objects in the bucket and the blocks. -/
structure Recovery where
  log : ℕ → List Record
  present : ℕ → Bool
  nextSeg : ℕ
  bucket : ℕ → Bool
  entries : List RecoveredEntry

/-- The volume as recovery leaves it, with an empty index. -/
def Recovery.volume (v : Recovery) : Tiers :=
  { index := fun _ => none
    cells := fun _ =>
      { ref := ⟨0, ⟨0, 0⟩, ⟨0, 0, 0⟩, 0, 0⟩, s3 := false, s3Only := false, leaseUntil := 0,
        ttlUntil := 0, lastAccess := 0, pinFlags := .none }
    next := 0
    log := v.log
    segs := fun id => if v.present id then some ⟨true, false, false⟩ else none
    active := none
    nextSeg := v.nextSeg
    writing := fun _ => 0
    inflight := fun _ => false
    segRefs := fun _ => 0
    bucket := v.bucket
    gcQueued := fun _ => false
    dropq := []
    usedNvme := fun _ => 0
    usedS3 := fun _ => 0 }

/-- Index one recovered block and seed its charge. -/
def seed (t : Tiers) (e : RecoveredEntry) : Tiers := t.putThen e.key e.loc e.xxh3 0

/-- The node a recovery starts: nothing in DRAM, the recovered blocks below. -/
def Recovery.start (v : Recovery) (now : ℕ) : State :=
  { dram := Tier.Store.new now, disk := v.entries.foldl seed v.volume }

/-- What recovery guarantees: every block it reports is a nonempty record of a
segment file that is there. -/
structure Recovery.Sound (v : Recovery) : Prop where
  minted : ∀ id, v.present id → id < v.nextSeg
  found : ∀ e ∈ v.entries, v.present e.loc.segmentID ∧ 0 < e.loc.len ∧
    ∃ rec, (v.log e.loc.segmentID)[e.loc.offset]? = some rec ∧ rec.key = e.key ∧
      rec.xxh3 = e.xxh3 ∧ rec.data.length = e.loc.len

def Recovery.empty : Recovery :=
  { log := fun _ => [], present := fun _ => false, nextSeg := 0, bucket := fun _ => false,
    entries := [] }

theorem Recovery.empty_sound : Recovery.empty.Sound where
  minted _ h := nomatch h
  found _ h := nomatch h

/-! ### A small node -/

/-- A node with an arena of eight units and no limits, for concrete runs. -/
def small : Params :=
  { dram := { units := 8, leaseDefaultMS := 0, leaseMaxMS := 0, pinnedBytesCap := 0,
              pinCapFor := fun _ => 0, quota := fun _ => 0, evictor := false }
    admitMinHits := 0
    spill := true
    restore := true }

/-- The same node with leases of a millisecond. -/
def leasing : Params :=
  { small with dram := { small.dram with leaseDefaultMS := 1, leaseMaxMS := 1 } }

/-- The state that a node reaches from an empty one. -/
abbrev after (p : Params) (es : List (Event Call)) : Option NodePool :=
  run (system p).next (Pool.start (Recovery.empty.start 0)) es

/-- The thread at an index takes steps with the given choices. -/
def take (i : ℕ) (envs : List ℕ) : List (Event Call) := envs.map (Event.step i)

/-- A block is put. -/
def putBlock : List (Event Call) :=
  .spawn .rotate :: take 0 [0, 0] ++ .spawn (.put ⟨0, 7⟩ [1] 11) :: take 1 [0, 0, 1, 0, 0, 0, 0, 0]

/-- It is demoted, -/
def putDemote : List (Event Call) :=
  putBlock ++ .spawn (.demoteOne ⟨0, 7⟩) :: take 2 [0, 0, 0, 0, 0, 0, 0, 0, 0, 0, 0, 0, 0]

/-- and its segment is sealed and spilled. -/
def putSpill : List (Event Call) :=
  putDemote ++ .spawn .rotate :: take 3 [0, 0] ++
    .spawn (.spillOne 0) :: take 4 [0, 0, 0, 0, 0, 0, 0, 0]

/-- The block is put, and demoted while a second put of its key is in progress. -/
def putOver : List (Event Call) :=
  putBlock ++ .spawn (.put ⟨0, 7⟩ [2] 22) :: take 2 [0] ++
    .spawn (.demoteOne ⟨0, 7⟩) :: take 3 [0, 0, 0, 0, 0, 0, 0, 0, 0, 0, 0, 0, 0]

end KVStash.Tiered.System
