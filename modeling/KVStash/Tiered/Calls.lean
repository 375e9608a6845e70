/- GID: KVStash/Tiered/Calls
   digest: The calls and background passes of the tiered store as programs. -/

import KVStash.Dram.Tier.Calls

set_option autoImplicit false

namespace KVStash.Tiered.Calls

open Protocol Dram Tiered.Node
open Dram.Tier (Key BlockRef nanos)
open Tiered.Disk (NvmeRef)

variable (p : Params)

/-! ### The removal funnel of the NVMe index -/

/-- Nominate a segment object for collection, once; a full queue drops it. -/
def enqueueObjectGC (id : ℕ) : Code Unit :=
  if p.spill then do
    if ← disk (.gcMark id) then pure ()
    else if ← disk (.gcSend id) then pure ()
    else disk (.gcUnmark id)
  else pure ()

/-- Return a removed entry's bytes on the tier that holds the charge. -/
def refundNvmeQuota (ns : ℕ) (r : NvmeRef) : Code Unit :=
  if r.len = 0 then pure ()
  else do
    if ← disk (.loadS3Only r) then
      if ← disk (.segSub r.loc.segmentID) then enqueueObjectGC p r.loc.segmentID else pure ()
      disk (.refundS3 ns r.len)
    else disk (.refundNvme ns r.len)

/-- Remove an entry under a gate and return its bytes. -/
def dropEntry (k : Key) (g : Disk.DropGate) : Code (Except Status NvmeRef) := do
  match ← disk (.deleteIf k g) with
  | .error st => pure (.error st)
  | .ok r =>
    refundNvmeQuota p k.ns r
    pure (.ok r)

/-! ### Reads -/

def readS3 (r : NvmeRef) : Code (Except Status (List UInt8)) :=
  if p.restore then do
    if ← disk (.loadS3 r) then disk (.readRange r) else pure (.error .notFound)
  else pure (.error .notFound)

/-- The auto-lease of a read below DRAM, on the entry that was read, and the answer. -/
def serve (k : Key) (e : NvmeRef) (data : List UInt8) : Code Unit := do
  let now ← dram .now
  let until_ := now + nanos (p.dram.clampLeaseMS 0)
  match ← disk (.leaseRead k e now until_) with
  | some _ => answer ⟨.ok, data, until_⟩
  | none => answer ⟨.ok, data, 0⟩

/-- The tier-routed read. A DRAM reference is released some time after the answer. -/
def getRefTier (k : Key) : Code Unit := do
  match ← Tier.getRef p.dram k with
  | some h =>
    answer ⟨.ok, h.data, h.lease⟩
    Tier.release h.ref
  | none =>
    match ← disk (.get k) with
    | none => answer (.of .notFound)
    | some e =>
      match ← disk (.read e.loc k e.xxh3) with
      | .ok data => serve p k e data
      | .busy => answer (.of .errBusy)
      | .cancelled => answer (.of .notFound)
      | .gone =>
        match ← readS3 p e with
        | .ok data => serve p k e data
        | .error .errBusy => answer (.of .errBusy)
        | .error _ => answer (.of .notFound)
      | .corrupt =>
        let _ ← dropEntry p k (.heal e)
        answer (.of .notFound)

/-- EXISTS of one key: index lookups only. -/
def contains (k : Key) : Code Unit := do
  match ← dram (.get k) with
  | some _ => answer (.of .ok)
  | none =>
    match ← disk (.get k) with
    | some _ => answer (.of .ok)
    | none => answer (.of .notFound)

/-! ### PUT and DELETE -/

/-- Both homes are checked before the insert and the NVMe one again after it; an
insert that turns out to conflict is withdrawn. -/
def put (k : Key) (data : List UInt8) (xxh3 : ℕ) : Code Status := do
  match ← disk (.get k) with
  | some e => pure (if e.xxh3 = xxh3 then .okExists else .errImmutableConflict)
  | none =>
    match ← Tier.put p.dram k data xxh3 with
    | .ok =>
      match ← disk (.get k) with
      | some e =>
        if e.xxh3 = xxh3 then pure .ok
        else
          let _ ← Tier.delete k true
          pure .errImmutableConflict
      | none => pure .ok
    | st => pure st

/-- The NVMe entry first, then the DRAM block. -/
def delete (k : Key) (force : Bool) : Code Status := do
  match ← dropEntry p k (.delete force) with
  | .error .errLeased => pure .errLeased
  | .error .errPinned => pure .errPinned
  | .error _ => Tier.delete k force
  | .ok _ =>
    match ← Tier.delete k force with
    | .notFound => pure .ok
    | st => pure st

/-! ### Promotion, leases and pins -/

/-- The DRAM insert of a promotion; a block that is already there is a success. -/
def promoteInsert (k : Key) (e : NvmeRef) (data : List UInt8) : Code Status := do
  match ← Tier.put p.dram k data e.xxh3 with
  | .ok => pure .ok
  | .okExists => pure .ok
  | _ => pure .errBusy

def promoteCold (k : Key) (e : NvmeRef) : Code Status := do
  match ← readS3 p e with
  | .ok data => promoteInsert p k e data
  | .error .errBusy => pure .errBusy
  | .error _ => if ← disk .breakerOpen then pure .errBusy else pure .notFound

/-- Copy a block from NVMe or from its segment object to DRAM. -/
def promoteSync (k : Key) (e : NvmeRef) : Code Status := do
  match ← disk (.read e.loc k e.xxh3) with
  | .ok data => promoteInsert p k e data
  | .busy => pure .errBusy
  | .gone => promoteCold p k e
  | .cancelled => promoteCold p k e
  | .corrupt => pure .notFound

/-- A queued promotion; a request whose entry is no longer the current one is stale. -/
def promoteOne (k : Key) (e : NvmeRef) : Code Status := do
  match ← disk (.get k) with
  | none => pure .notFound
  | some cur => if cur = e then promoteSync p k e else pure .notFound

/-- DRAM answers first, the NVMe entry otherwise. -/
def touchLease (k : Key) (sub : TouchSub) (ttlMS : ℕ) : Code (Status × ℕ) := do
  match ← Tier.touchLease p.dram k sub ttlMS with
  | (.notFound, _) =>
    let now ← dram .now
    let st ← disk (.touchLease k sub (if 0 < ttlMS then now + nanos ttlMS else 0)
      (now + nanos (p.dram.clampLeaseMS ttlMS)))
    pure (st, 0)
  | x => pure x

/-- A hard pin of a block that is not in DRAM promotes it first. -/
def pinOp (k : Key) (sub : PinSub) : Code Status := do
  match ← Tier.pinOp k sub with
  | .notFound =>
    match ← disk (.get k) with
    | none => pure .notFound
    | some e =>
      match sub with
      | .pinSoft => disk (.setPin k .soft)
      | .unpin => disk (.setPin k .none)
      | .pinHard =>
        match ← promoteSync p k e with
        | .ok => Tier.pinOp k .pinHard
        | st => pure st
      | .other => pure .errUnsupported
  | st => pure st

/-! ### Demotion -/

/-- The callback of an append: drop the hold and, if the record was written, swap
the block's home under the shard lock. It runs on the writer. -/
def onWritten (k : Key) (d : Tier.Demotee) (loc : Disk.Loc) : Code Unit := do
  Tier.release d.ref
  let _ ← Tier.completeDemotion k d.ref.xxh3 fun r => publish k r loc d.ref.xxh3
  disk (.written loc.segmentID)

/-- Complete a demotion that writes nothing and return the DRAM bytes. -/
def completeHere (k : Key) (d : Tier.Demotee) : Code Unit := do
  Tier.release d.ref
  if ← Tier.completeDemotion k d.ref.xxh3 fun _ => pure () then
    dram (.refund k.ns d.data.length)
  else pure ()

/-- Write a victim to a segment, unless nobody ever read it: then it is not worth a
flash write and goes. -/
def demoteWrite (k : Key) (d : Tier.Demotee) : Code Unit :=
  if d.hits < p.admitMinHits then completeHere k d
  else do
    match ← disk (.append k d.ref.xxh3 d.data) with
    | .refused => Tier.release d.ref
    | .failed => Tier.release d.ref
    | .written loc => onWritten k d loc

/-- Move one victim below DRAM; one whose bytes are already there only goes. -/
def demoteOne (k : Key) : Code Unit := do
  match ← Tier.refForDemotion k with
  | none => pure ()
  | some d =>
    match ← disk (.get k) with
    | some e => if e.xxh3 = d.ref.xxh3 then completeHere k d else demoteWrite p k d
    | none => demoteWrite p k d

/-! ### Reclaim -/

/-- The advisory gate over a segment's entries. -/
def anyProtected (id now : ℕ) : List Key → Code Bool
  | [] => pure false
  | k :: ks => do
    if ← disk (.protectedIn k id now) then pure true else anyProtected id now ks

/-- The authoritative gate of a spilled segment; true when an entry stays behind. -/
def s3FlipRetired (id : ℕ) : List Key → Code Bool
  | [] => pure false
  | k :: ks => do
    if ← disk (.flipRetired k id) then pure true else s3FlipRetired id ks

/-- The authoritative gate of a segment without an object; true when an entry is
protected. -/
def dropRetired (id : ℕ) : List Key → Code Bool
  | [] => pure false
  | k :: ks => do
    match ← dropEntry p k (.retire id) with
    | .error .errLeased => pure true
    | _ => dropRetired id ks

/-- Whether a retire keeps the entries, S3-only, because the segment has an object. -/
def keepsEntries (id : ℕ) : Code Bool :=
  if p.spill then disk (.isSpilled id) else pure false

/-- The authoritative gate; true when the retire has to be aborted. -/
def sweepRetired (id : ℕ) (flip : Bool) (entries : List Key) : Code Bool :=
  if flip then do
    let keys ← disk (.segmentEntryKeys id)
    s3FlipRetired id keys
  else dropRetired p id entries

/-- From a segment marked as dying: sweep it, then give it back or remove the file. -/
def retire (id : ℕ) (entries : List Key) : Code Unit := do
  let flip ← keepsEntries p id
  let stranded ← sweepRetired p id flip entries
  if stranded then disk (.retireAbort id)
  else if ← disk (.retireFinish id) then
    if flip then enqueueObjectGC p id else pure ()
  else pure ()

/-- Retire the oldest sealed segment from an id on. -/
def reclaimSegment (from_ : ℕ) : Code Unit := do
  match ← disk (.oldestSealed from_) with
  | none => pure ()
  | some (id, entries) =>
    if ← disk (.latch id) then
      let now ← dram .now
      if ← anyProtected id now entries then disk (.unlatch id)
      else if ← disk (.retireBegin id) then
        retire p id entries
        disk (.unlatch id)
      else disk (.unlatch id)
    else pure ()

/-! ### Spill, restore and collection of segment objects -/

def flagEntries (id : ℕ) : List Key → Code Unit
  | [] => pure ()
  | k :: ks => do
    match ← disk (.get k) with
    | some r => if r.loc.segmentID = id then disk (.storeS3 r) else pure ()
    | none => pure ()
    flagEntries id ks

/-- Upload one sealed segment; the flags land before the segment is marked. -/
def spillOne (id : ℕ) : Code Unit :=
  if p.spill then do
    let ids ← disk .sealedUnspilled
    if id ∈ ids then
      if ← disk (.latch id) then
        if ← disk (.upload id) then
          let keys ← disk (.segmentEntryKeys id)
          flagEntries id keys
          disk (.markSpilled id)
          disk (.unlatch id)
        else disk (.unlatch id)
      else pure ()
    else pure ()
  else pure ()

def s3FlipRestored (id : ℕ) : List Key → Code Unit
  | [] => pure ()
  | k :: ks => do
    disk (.flipRestored k id)
    s3FlipRestored id ks

/-- Get the file of a segment back; true when the volume has it. -/
def bringHome (id : ℕ) : Code Bool := do
  if ← disk (.hasSegment id) then pure true
  else if ← disk .headroom then
    if ← disk (.download id) then disk (.adoptSegment id) else pure false
  else pure false

/-- Bring the whole segment of an S3-only entry back and turn its entries home. -/
def restoreOne (k : Key) (e : NvmeRef) : Code Unit :=
  if p.restore then do
    match ← disk (.get k) with
    | none => pure ()
    | some cur =>
      if cur = e then
        if ← disk (.loadS3Only e) then
          let id := e.loc.segmentID
          if ← disk (.latch id) then
            if ← bringHome id then
              let keys ← disk (.segmentEntryKeys id)
              s3FlipRestored id keys
              disk (.unlatch id)
            else disk (.unlatch id)
          else pure ()
        else pure ()
      else pure ()
  else pure ()

/-- The detached download of a restore that gave up: its adopt lands with no latch. -/
def lateAdopt (id : ℕ) : Code Unit := do
  if ← disk (.download id) then
    let _ ← disk (.adoptSegment id)
    pure ()
  else pure ()

/-- Collect one nominated object, if it is dead under the latch. -/
def collectOne : Code Unit := do
  let id ← disk .gcReceive
  disk (.gcUnmark id)
  if ← disk (.latch id) then
    if p.spill then do
      if ← disk (.segLive id) then disk (.unlatch id)
      else if ← disk (.isSpilled id) then disk (.unlatch id)
      else
        disk (.drop id)
        disk (.unlatch id)
    else disk (.unlatch id)
  else pure ()

/-- Seal the active segment and open a fresh one. -/
def rotate : Code Unit := do
  if ← disk .sealActive then
    let _ ← disk .openActive
    pure ()
  else pure ()

/-- Re-arm a volume whose rotation failed. -/
def tryRecoverWrites : Code Unit := do
  let _ ← disk .openActive
  pure ()

end KVStash.Tiered.Calls
