/- GID: KVStash/Tiered/Disk/Model
   digest: The tiers below DRAM: the NVMe index, the segment volume and the segment objects. -/

import KVStash.Dram.Tier.Model

set_option autoImplicit false

namespace KVStash.Tiered.Disk

open Protocol Dram.Tier Function

/-! ### References, records and segments -/

structure Loc where
  segmentID : ℕ
  offset : ℕ
  len : ℕ
  deriving DecidableEq

/-- A pointer to an entry of the NVMe index with the fields fixed at publication. -/
structure NvmeRef where
  id : ℕ
  key : Key
  loc : Loc
  len : ℕ
  xxh3 : ℕ
  deriving DecidableEq

/-- What an NVMe reference points to. `s3` says that the bytes are also in the
segment object, `s3Only` that they are only there. -/
structure NvmeCell where
  ref : NvmeRef
  s3 : Bool
  s3Only : Bool
  leaseUntil : ℕ
  ttlUntil : ℕ
  lastAccess : ℕ
  pinFlags : PinFlags
  deriving DecidableEq

def NvmeCell.leased (c : NvmeCell) (now : ℕ) : Bool := c.leaseUntil > now

def NvmeCell.pinned (c : NvmeCell) : Bool := c.pinFlags ≠ .none

def NvmeCell.hardPinned (c : NvmeCell) : Bool := c.pinFlags = .hard

/-- One record of a segment; its offset is its position in the segment. -/
structure Record where
  key : Key
  xxh3 : ℕ
  data : List UInt8
  deriving DecidableEq

structure Segment where
  isSealed : Bool
  spilled : Bool
  dying : Bool
  deriving DecidableEq

/-- DELETE's table on an NVMe entry. -/
def canDeleteNvme (c : NvmeCell) (now : ℕ) (force : Bool) : Status :=
  if c.hardPinned then .errPinned
  else if force then .ok
  else if c.leased now then .errLeased
  else if c.pinned then .errPinned
  else .ok

/-- The gates under which an NVMe entry is removed: DELETE, the self-heal of an
entry whose record is rotten, and the retirement of a segment. -/
inductive DropGate
  | delete (force : Bool)
  | heal (e : NvmeRef)
  | retire (id : ℕ)
  deriving DecidableEq

def DropGate.check (g : DropGate) (r : NvmeRef) (c : NvmeCell) (now : ℕ) : Status :=
  match g with
  | .delete force => canDeleteNvme c now force
  | .heal e => if r = e then .ok else .errBusy
  | .retire id =>
    if r.loc.segmentID ≠ id then .errBusy
    else if c.leased now || c.pinned then .errLeased
    else .ok

inductive ReadResult
  | ok (data : List UInt8)
  | busy
  | gone
  | cancelled
  | corrupt

/-- How an append ends: not accepted, accepted and failed, or written. -/
inductive AppendResult
  | refused
  | failed
  | written (loc : Loc)

/-! ### The state -/

/-- Everything below DRAM. `log` holds what was written to each segment; a segment
file and a segment object hold just that, so `segs` says which files the volume
has and `bucket` which objects exist. `writing` counts the append callbacks of a
segment that still run on the writer, `inflight` is the per-segment latch. -/
structure Tiers where
  index : Key → Option NvmeRef
  cells : ℕ → NvmeCell
  next : ℕ
  log : ℕ → List Record
  segs : ℕ → Option Segment
  active : Option ℕ
  nextSeg : ℕ
  writing : ℕ → ℕ
  inflight : ℕ → Bool
  segRefs : ℕ → ℕ
  bucket : ℕ → Bool
  gcQueued : ℕ → Bool
  dropq : List ℕ
  usedNvme : ℕ → ℤ
  usedS3 : ℕ → ℤ

namespace Tiers

def onCell (t : Tiers) (r : NvmeRef) (f : NvmeCell → NvmeCell) : Tiers :=
  { t with cells := update t.cells r.id (f (t.cells r.id)) }

def onSeg (t : Tiers) (id : ℕ) (f : Segment → Segment) : Tiers :=
  { t with segs := update t.segs id ((t.segs id).map f) }

def addNvme (t : Tiers) (ns n : ℕ) : Tiers :=
  { t with usedNvme := update t.usedNvme ns (t.usedNvme ns + n) }

def refundNvme (t : Tiers) (ns n : ℕ) : Tiers :=
  { t with usedNvme := update t.usedNvme ns (max 0 (t.usedNvme ns - n)) }

def addS3 (t : Tiers) (ns n : ℕ) : Tiers :=
  { t with usedS3 := update t.usedS3 ns (t.usedS3 ns + n) }

def refundS3 (t : Tiers) (ns n : ℕ) : Tiers :=
  { t with usedS3 := update t.usedS3 ns (max 0 (t.usedS3 ns - n)) }

def entryKeys (t : Tiers) (id : ℕ) : List Key := (t.log id).map Record.key

/-- The record a location names, when it is the one the index expects. -/
def recordAt (t : Tiers) (loc : Loc) (k : Key) (xxh3 : ℕ) : Option (List UInt8) :=
  match (t.log loc.segmentID)[loc.offset]? with
  | none => none
  | some rec =>
    if rec.key = k ∧ rec.xxh3 = xxh3 ∧ rec.data.length = loc.len then some rec.data else none

/-- A device read without faults. -/
def read (t : Tiers) (loc : Loc) (k : Key) (xxh3 : ℕ) : ReadResult :=
  match t.segs loc.segmentID with
  | none => .gone
  | some g =>
    if g.dying then .gone
    else match t.recordAt loc k xxh3 with
      | none => .corrupt
      | some data => .ok data

/-- A ranged read of the segment object without faults. -/
def readRange (t : Tiers) (r : NvmeRef) : Option (List UInt8) :=
  if t.bucket r.loc.segmentID then t.recordAt r.loc r.key r.xxh3 else none

def isSpilled (t : Tiers) (id : ℕ) : Bool :=
  match t.segs id with
  | none => false
  | some g => g.spilled

/-- The lowest sealed segment from an id on that no retire owns. -/
def oldestSealed (t : Tiers) (from_ : ℕ) : Option ℕ :=
  (List.range t.nextSeg).find? fun id =>
    decide (from_ ≤ id) && (t.segs id).any fun g => g.isSealed && !g.dying

/-- The sealed segments without an object of their own. -/
def sealedUnspilled (t : Tiers) : List ℕ :=
  (List.range t.nextSeg).filter fun id =>
    (t.segs id).any fun g => g.isSealed && !g.spilled && !g.dying

/-- Insert an entry, or overwrite the one that is there, and charge it. -/
def putThen (t : Tiers) (k : Key) (loc : Loc) (xxh3 ttlUntil : ℕ) : Tiers :=
  let r : NvmeRef := ⟨t.next, k, loc, loc.len, xxh3⟩
  { t with
    index := update t.index k (some r)
    cells := update t.cells t.next
      { ref := r, s3 := false, s3Only := false, leaseUntil := 0, ttlUntil := ttlUntil,
        lastAccess := 0, pinFlags := .none }
    next := t.next + 1
    usedNvme := update t.usedNvme k.ns (t.usedNvme k.ns + loc.len) }

/-- The auto-lease of a read: only on the entry that was read. -/
def leaseRead (t : Tiers) (k : Key) (e : NvmeRef) (now until_ : ℕ) : Option ℕ × Tiers :=
  if t.index k = some e then
    (some (t.cells e.id).lastAccess, t.onCell e fun c =>
      { c with leaseUntil := max c.leaseUntil until_, lastAccess := now })
  else (none, t)

def touchLease (t : Tiers) (k : Key) (sub : TouchSub) (ttl until_ : ℕ) : Status × Tiers :=
  match t.index k with
  | none => (.notFound, t)
  | some e =>
    match sub with
    | .touchRecency =>
      (.ok, if 0 < ttl then t.onCell e fun c => { c with ttlUntil := ttl } else t)
    | .leaseGrant => (.ok, t.onCell e fun c => { c with leaseUntil := max c.leaseUntil until_ })
    | .leaseRelease => (.ok, t.onCell e fun c => { c with leaseUntil := 0 })
    | .other => (.errUnsupported, t)

def setPin (t : Tiers) (k : Key) (f : PinFlags) : Status × Tiers :=
  match t.index k with
  | none => (.notFound, t)
  | some e => (.ok, t.onCell e fun c => { c with pinFlags := f })

/-- The advisory gate of a retire. -/
def protectedIn (t : Tiers) (k : Key) (id now : ℕ) : Bool :=
  match t.index k with
  | none => false
  | some e =>
    e.loc.segmentID = id && ((t.cells e.id).leased now || (t.cells e.id).pinned)

/-- Turn one entry of a retiring segment S3-only, or report that it cannot be. -/
def flipRetired (t : Tiers) (k : Key) (id now : ℕ) : Bool × Tiers :=
  match t.index k with
  | none => (false, t)
  | some e =>
    let c := t.cells e.id
    if e.loc.segmentID ≠ id || c.s3Only then (false, t)
    else if !c.s3 || c.leased now || c.pinned then (true, t)
    else (false,
      { ((t.addS3 k.ns e.len).refundNvme k.ns
        e.len).onCell e fun c => { c with s3Only := true } with
        segRefs := update t.segRefs id (t.segRefs id + 1) })

/-- Turn one entry of a restored segment home. -/
def flipRestored (t : Tiers) (k : Key) (id : ℕ) : Tiers :=
  match t.index k with
  | none => t
  | some e =>
    if e.loc.segmentID ≠ id || !(t.cells e.id).s3Only then t
    else
      { ((t.addNvme k.ns e.len).refundS3 k.ns
        e.len).onCell e fun c => { c with s3Only := false } with
        segRefs := update t.segRefs id (t.segRefs id - 1) }

end Tiers

/-! ### The atomic actions -/

/-- The atomic steps below DRAM: shard-locked closures on the NVMe index, volume
calls, the latch, the liveness counts, object operations and quota counters. -/
inductive Act
  | get (k : Key)
  | deleteIf (k : Key) (g : DropGate)
  | leaseRead (k : Key) (e : NvmeRef) (now until_ : ℕ)
  | touchLease (k : Key) (sub : TouchSub) (ttl until_ : ℕ)
  | setPin (k : Key) (f : PinFlags)
  | protectedIn (k : Key) (id now : ℕ)
  | flipRetired (k : Key) (id : ℕ)
  | flipRestored (k : Key) (id : ℕ)
  | loadS3 (r : NvmeRef)
  | loadS3Only (r : NvmeRef)
  | storeS3 (r : NvmeRef)
  | read (loc : Loc) (k : Key) (xxh3 : ℕ)
  | readRange (r : NvmeRef)
  | breakerOpen
  | append (k : Key) (xxh3 : ℕ) (data : List UInt8)
  | written (id : ℕ)
  | sealActive
  | openActive
  | oldestSealed (from_ : ℕ)
  | sealedUnspilled
  | segmentEntryKeys (id : ℕ)
  | isSpilled (id : ℕ)
  | hasSegment (id : ℕ)
  | headroom
  | markSpilled (id : ℕ)
  | retireBegin (id : ℕ)
  | retireAbort (id : ℕ)
  | retireFinish (id : ℕ)
  | adoptSegment (id : ℕ)
  | latch (id : ℕ)
  | unlatch (id : ℕ)
  | segSub (id : ℕ)
  | segLive (id : ℕ)
  | refundNvme (ns n : ℕ)
  | refundS3 (ns n : ℕ)
  | upload (id : ℕ)
  | download (id : ℕ)
  | drop (id : ℕ)
  | gcMark (id : ℕ)
  | gcUnmark (id : ℕ)
  | gcSend (id : ℕ)
  | gcReceive

@[reducible] def Act.Resp : Act → Type
  | .get _ => Option NvmeRef
  | .deleteIf _ _ => Except Status NvmeRef
  | .leaseRead _ _ _ _ => Option ℕ
  | .touchLease _ _ _ _ => Status
  | .setPin _ _ => Status
  | .protectedIn _ _ _ => Bool
  | .flipRetired _ _ => Bool
  | .flipRestored _ _ => Unit
  | .loadS3 _ => Bool
  | .loadS3Only _ => Bool
  | .storeS3 _ => Unit
  | .read _ _ _ => ReadResult
  | .readRange _ => Except Status (List UInt8)
  | .breakerOpen => Bool
  | .append _ _ _ => AppendResult
  | .written _ => Unit
  | .sealActive => Bool
  | .openActive => Bool
  | .oldestSealed _ => Option (ℕ × List Key)
  | .sealedUnspilled => List ℕ
  | .segmentEntryKeys _ => List Key
  | .isSpilled _ => Bool
  | .hasSegment _ => Bool
  | .headroom => Bool
  | .markSpilled _ => Unit
  | .retireBegin _ => Bool
  | .retireAbort _ => Unit
  | .retireFinish _ => Bool
  | .adoptSegment _ => Bool
  | .latch _ => Bool
  | .unlatch _ => Unit
  | .segSub _ => Bool
  | .segLive _ => Bool
  | .refundNvme _ _ => Unit
  | .refundS3 _ _ => Unit
  | .upload _ => Bool
  | .download _ => Bool
  | .drop _ => Unit
  | .gcMark _ => Bool
  | .gcUnmark _ => Unit
  | .gcSend _ => Bool
  | .gcReceive => ℕ

def dropqCap : ℕ := 64

/-- Execute one action at a given time. The second argument stands for devices,
endpoints and queues: `0` is the faultless outcome. -/
def exec (now : ℕ) : (a : Act) → ℕ → Tiers → Option (a.Resp × Tiers)
  | .get k, _, t => some (t.index k, t)
  | .deleteIf k g, _, t =>
    match t.index k with
    | none => some (.error .notFound, t)
    | some r =>
      match g.check r (t.cells r.id) now with
      | .ok => some (.ok r, { t with index := update t.index k none })
      | st => some (.error st, t)
  | .leaseRead k e now until_, _, t => some (t.leaseRead k e now until_)
  | .touchLease k sub ttl until_, _, t => some (t.touchLease k sub ttl until_)
  | .setPin k f, _, t => some (t.setPin k f)
  | .protectedIn k id now, _, t => some (t.protectedIn k id now, t)
  | .flipRetired k id, _, t => some (t.flipRetired k id now)
  | .flipRestored k id, _, t => some ((), t.flipRestored k id)
  | .loadS3 r, _, t => some ((t.cells r.id).s3, t)
  | .loadS3Only r, _, t => some ((t.cells r.id).s3Only, t)
  | .storeS3 r, _, t => some ((), t.onCell r fun c => { c with s3 := true })
  | .read loc k xxh3, env, t =>
    match env with
    | 0 => some (t.read loc k xxh3, t)
    | 1 => some (.busy, t)
    | 2 => some (.cancelled, t)
    | _ => some (.corrupt, t)
  | .readRange r, env, t =>
    match env with
    | 0 => match t.readRange r with
      | some data => some (.ok data, t)
      | none => some (.error .notFound, t)
    | 1 => some (.error .errBusy, t)
    | _ => some (.error .notFound, t)
  | .breakerOpen, env, t => some (decide (env ≠ 0), t)
  | .append k xxh3 data, env, t =>
    match env, t.active with
    | 0, some id =>
      some (.written ⟨id, (t.log id).length, data.length⟩,
        { t with
          log := update t.log id (t.log id ++ [⟨k, xxh3, data⟩])
          writing := update t.writing id (t.writing id + 1) })
    | 1, _ => some (.refused, t)
    | _, _ => some (.failed, t)
  | .written id, _, t =>
    some ((), { t with writing := update t.writing id (t.writing id - 1) })
  | .sealActive, env, t =>
    match env, t.active with
    | 0, some id =>
      -- the writer seals only between two batches, when no callback runs
      if t.writing id = 0 then
        some (true, { t.onSeg id (fun g => { g with isSealed := true }) with active := none })
      else none
    | 0, none => some (true, t)
    | _, _ => some (false, t)
  | .openActive, env, t =>
    match env with
    | 0 =>
      some (true, { t with
        segs := update t.segs t.nextSeg (some ⟨false, false, false⟩)
        active := some t.nextSeg
        nextSeg := t.nextSeg + 1 })
    | _ => some (false, { t with nextSeg := t.nextSeg + 1 })
  | .oldestSealed from_, _, t =>
    some ((t.oldestSealed from_).map fun id => (id, t.entryKeys id), t)
  | .sealedUnspilled, _, t => some (t.sealedUnspilled, t)
  | .segmentEntryKeys id, _, t =>
    some (if (t.segs id).isSome then t.entryKeys id else [], t)
  | .isSpilled id, _, t => some (t.isSpilled id, t)
  | .hasSegment id, _, t => some ((t.segs id).isSome, t)
  | .headroom, env, t => some (decide (env = 0), t)
  | .markSpilled id, _, t => some ((), t.onSeg id fun g => { g with spilled := true })
  | .retireBegin id, _, t =>
    match t.segs id with
    | none => some (false, t)
    | some g =>
      if g.isSealed && !g.dying then some (true, t.onSeg id fun g => { g with dying := true })
      else some (false, t)
  | .retireAbort id, _, t => some ((), t.onSeg id fun g => { g with dying := false })
  | .retireFinish id, _, t =>
    match t.segs id with
    | none => some (false, t)
    | some g =>
      if g.dying then some (true, { t with segs := update t.segs id none })
      else some (false, t)
  | .adoptSegment id, env, t =>
    match env, t.segs id with
    | 0, none =>
      if id < t.nextSeg then
        some (true, { t with segs := update t.segs id (some ⟨true, true, false⟩) })
      else some (false, t)
    | _, _ => some (false, t)
  | .latch id, _, t =>
    if t.inflight id then some (false, t)
    else some (true, { t with inflight := update t.inflight id true })
  | .unlatch id, _, t => some ((), { t with inflight := update t.inflight id false })
  | .segSub id, _, t =>
    some (decide (t.segRefs id ≤ 1),
      { t with segRefs := update t.segRefs id (t.segRefs id - 1) })
  | .segLive id, _, t => some (decide (0 < t.segRefs id), t)
  | .refundNvme ns n, _, t => some ((), t.refundNvme ns n)
  | .refundS3 ns n, _, t => some ((), t.refundS3 ns n)
  | .upload id, env, t =>
    -- an upload that fails may still have stored the object
    match env, t.segs id with
    | 0, some _ => some (true, { t with bucket := update t.bucket id true })
    | 1, some _ => some (false, { t with bucket := update t.bucket id true })
    | _, _ => some (false, t)
  | .download id, env, t => some (decide (env = 0) && t.bucket id, t)
  | .drop id, env, t =>
    match env with
    | 0 => some ((), { t with bucket := update t.bucket id false })
    | _ => some ((), t)
  | .gcMark id, _, t =>
    some (t.gcQueued id, { t with gcQueued := update t.gcQueued id true })
  | .gcUnmark id, _, t =>
    some ((), { t with gcQueued := update t.gcQueued id false })
  | .gcSend id, _, t =>
    if t.dropq.length < dropqCap then some (true, { t with dropq := t.dropq ++ [id] })
    else some (false, t)
  | .gcReceive, _, t =>
    match t.dropq with
    | [] => none
    | id :: rest => some (id, { t with dropq := rest })

end KVStash.Tiered.Disk
