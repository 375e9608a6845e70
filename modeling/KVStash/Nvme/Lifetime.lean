/- GID: KVStash/Nvme/Lifetime
   digest: A volume from its opening to the end of its process, one file operation after the other.
     -/

import KVStash.Foundation.Listing
import KVStash.Nvme.Recovery

set_option autoImplicit false

namespace KVStash.Nvme

open Foundation Foundation.Bytes Foundation.Storage

instance strictOrder32 : IsStrictTotalOrder UInt32 (· < ·) where
  irrefl := UInt32.lt_irrefl
  trans _ _ _ := UInt32.lt_trans
  trichotomous _ _ h h' := UInt32.le_antisymm (UInt32.not_lt.mp h') (UInt32.not_lt.mp h)

instance strictOrder64 : IsStrictTotalOrder UInt64 (· > ·) where
  irrefl := UInt64.lt_irrefl
  trans _ _ _ h h' := UInt64.lt_trans h' h
  trichotomous _ _ h h' := UInt64.le_antisymm (UInt64.not_lt.mp h) (UInt64.not_lt.mp h')

/-! ### The state -/

/-- What the table of an open volume holds about a segment. -/
structure Seg where
  size : ℕ
  isSealed : Bool
  dataEnd : UInt32
  entries : List FooterEntry
  dying : Bool

def Kept.seg (k : Kept) : Seg := ⟨k.size, true, k.dataEnd, k.entries, false⟩

/-- A checkpoint between its snapshot and its rename. -/
structure Snapshot where
  entries : List CkptEntry
  maxSealed : UInt32
  seq : UInt64

/-- An open volume and its directory. `tabled` says that the table of the active segment's seal is
written and its trailer is not, `objects` are the copies of sealed segments uploaded since the
volume was opened. -/
structure Lifetime where
  files : Listing UInt32 File (· < ·)
  ckpts : Listing UInt64 (List UInt8) (· > ·)
  segs : Listing UInt32 Seg (· < ·)
  active : Option UInt32
  tabled : Bool
  nextID : UInt32
  ckptSeq : UInt64
  pending : Option Snapshot
  objects : Listing UInt32 File (· < ·)

namespace Lifetime

/-- What the process leaves behind when it ends here. -/
def dir (s : Lifetime) : Dir where
  segs := s.files.rows
  ckpts := s.ckpts.rows
  tmps := []
  ascending := s.files.sorted
  newestFirst := s.ckpts.sorted

/-- The volume as recovery leaves it, before its first active segment. -/
def recovered (dg : Digests) (p : Params) (sealOk : UInt32 → Bool) (d : Dir) : Lifetime where
  files := ⟨(recoverDir dg p sealOk d).dir.segs, (recoverDir dg p sealOk d).dir.ascending⟩
  ckpts := ⟨d.ckpts, d.newestFirst⟩
  segs :=
    { rows := (recoverDir dg p sealOk d).segs.map fun s => (s.1, s.2.seg)
      sorted := (keptSegs_ascending dg p _ sealOk d.ascending).map _ fun _ _ h => h }
  active := none
  tabled := false
  nextID := (recoverDir dg p sealOk d).nextID
  ckptSeq := (recoverDir dg p sealOk d).ckptSeq
  pending := none
  objects := .empty

/-! ### The operations -/

/-- The file of a segment being created, allocated up to `size`. -/
def created (s : Lifetime) (size : ℕ) : File := grow ((s.files.find s.nextID).getD (.zeros 0)) size

def openActive (p : Params) (s : Lifetime) : Lifetime :=
  { s with
    files := s.files.put s.nextID (s.created p.segmentBytes)
    segs := s.segs.put s.nextID ⟨p.segmentBytes, false, 0, [], false⟩
    active := some s.nextID
    tabled := false
    nextID := s.nextID + 1 }

/-- `OpenVolume`: recovery and a first active segment. -/
def openVolume (dg : Digests) (p : Params) (sealOk : UInt32 → Bool) (d : Dir) : Lifetime :=
  openActive p (recovered dg p sealOk d)

/-- The snapshot of a checkpoint: the entries of the sealed segments up to the trust boundary,
which stays below every dying segment. -/
def ckptSnapshot (s : Lifetime) : Option Snapshot :=
  let live := s.segs.rows.filter (·.2.isSealed)
  let keep := live.filter (!·.2.dying)
  let write (cap : UInt32) : Option Snapshot :=
    some ⟨(keep.filter (·.1 ≤ cap)).flatMap fun x => x.2.entries.map (·.row x.1), cap,
      s.ckptSeq + 1⟩
  match (keep.map (·.1)).max?, ((live.filter (·.2.dying)).map (·.1)).min? with
  | none, _ => none
  | some maxSealed, none => write maxSealed
  | some maxSealed, some dyingMin =>
    if dyingMin ≤ maxSealed then
      if dyingMin = 0 then none else write (dyingMin - 1)
    else write maxSealed

/-- The operations on the files of an open volume. A process may end between any two of them. -/
inductive Op
  -- one batch of the writer, written at the data end
  | flush (rs : List AppendReq)
  -- the two writes of a seal
  | writeTable
  | writeTrailer
  | openActive
  -- a create that fails after it allocated some of the file
  | cutCreate (size : ℕ)
  | retireBegin (id : UInt32)
  | retireAbort (id : UInt32)
  | retireFinish (id : UInt32)
  -- the upload of a sealed segment, and the adoption of its copy
  | spill (id : UInt32)
  | adopt (id : UInt32)
  -- a checkpoint: its snapshot, its rename or its failure, and the removal of older ones
  | ckptSnapshot
  | renameCkpt (nowNanos : UInt64)
  | dropCkpt
  | pruneCkpts (below : UInt64)

/-- The batch of the writer fits the active segment together with the seal behind it. -/
def fitsActive (p : Params) (seg : Seg) (rs : List AppendReq) : Bool :=
  decide (SealFits p.segmentBytes (seg.dataEnd.toNat + extent rs) (seg.entries.length + rs.length))

/-- A size that an adopted object may have. -/
def isSegmentSize (size : ℕ) : Bool :=
  decide (2 * recordAlign ≤ size) && decide (size % recordAlign = 0) && decide (size < 2 ^ 32 - 1)

def activeSeg (s : Lifetime) : Option (UInt32 × Seg × File) := do
  let id ← s.active
  let seg ← s.segs.find id
  let f ← s.files.find id
  pure (id, seg, f)

def onSeg (s : Lifetime) (id : UInt32) (seg : Seg) : Lifetime :=
  { s with segs := s.segs.put id seg }

/-- One operation; `none` is an operation the volume does not start. -/
def exec (dg : Digests) (p : Params) (s : Lifetime) : Op → Option Lifetime
  | .flush rs =>
    match s.activeSeg with
    | none => none
    | some (id, seg, f) =>
      if s.tabled = false ∧ (∀ r ∈ rs, r.Fits p.maxBlobLen) ∧ fitsActive p seg rs then
        let t := Tail.append ⟨f, seg.dataEnd, seg.entries⟩ rs
        some { s.onSeg id { seg with dataEnd := t.dataEnd, entries := t.entries } with
          files := s.files.put id t.file }
      else none
  | .writeTable =>
    match s.activeSeg with
    | none => none
    | some (id, seg, f) =>
      if s.tabled then none
      else some { s with
        files := s.files.put id (Nvme.writeTable f seg.dataEnd seg.entries), tabled := true }
  | .writeTrailer =>
    match s.activeSeg with
    | none => none
    | some (id, seg, f) =>
      if s.tabled then
        some { s.onSeg id { seg with isSealed := true } with
          files := s.files.put id
            (Nvme.writeTrailer f seg.size (sealTrailer dg id seg.dataEnd seg.entries))
          active := none
          tabled := false }
      else none
  | .openActive => if s.active.isSome then none else some (openActive p s)
  | .cutCreate size =>
    if s.active.isSome then none
    else some { s with
      files := s.files.put s.nextID (s.created (min size p.segmentBytes)), nextID := s.nextID + 1 }
  | .retireBegin id =>
    match s.segs.find id with
    | none => none
    | some seg =>
      if seg.isSealed && !seg.dying then some (s.onSeg id { seg with dying := true }) else none
  | .retireAbort id => (s.segs.find id).map fun seg => s.onSeg id { seg with dying := false }
  | .retireFinish id =>
    match s.segs.find id with
    | none => none
    | some seg =>
      if seg.dying then some { s with segs := s.segs.erase id, files := s.files.erase id } else none
  | .spill id =>
    match s.segs.find id, s.files.find id with
    | some seg, some f =>
      if seg.isSealed then some { s with objects := s.objects.put id f } else none
    | _, _ => none
  | .adopt id =>
    if (s.segs.find id).isSome then none
    else (s.objects.find id).bind fun f => (readSeal dg f f.size id p.maxBlobLen).bind fun found =>
      if id < s.nextID ∧ isSegmentSize f.size then
        some { s.onSeg id ⟨f.size, true, found.1.dataEnd, found.2,
          false⟩ with files := s.files.put id f }
      else none
  | .ckptSnapshot => if s.pending.isSome then none else some { s with pending := s.ckptSnapshot }
  | .renameCkpt nowNanos =>
    s.pending.map fun n => { s with
      ckpts := s.ckpts.put n.seq (encodeCkpt dg nowNanos n.maxSealed n.entries)
      ckptSeq := n.seq
      pending := none }
  | .dropCkpt => some { s with pending := none }
  | .pruneCkpts below =>
    if below ≤ s.ckptSeq then some { s with ckpts := s.ckpts.filterKeys (below ≤ ·) } else none

/-! ### Reading a record -/

end Lifetime

/-- The verified read of one record: magic, header and digest must be those of the index. -/
def readRecord (dg : Digests) (maxBlob : UInt32) (f : File) (loc : Loc) (ns : UInt32)
    (key : BlockKey) (want : UInt64) : Option (List UInt8) :=
  match f.readAt loc.offset.toNat (recordSpan loc.len) with
  | none => none
  | some chunk =>
    match parseRecordHeader chunk maxBlob with
    | .error _ => none
    | .ok h =>
      if h.ns = ns ∧ h.key = key ∧ h.len = loc.len ∧ h.xxh3 = want ∧
          dg.xxh3 (slice chunk recordHdrSize h.len.toNat) = want then
        some (slice chunk recordHdrSize h.len.toNat)
      else none

/-- `Volume.Read`: a segment that is not in the table is gone. -/
def Lifetime.read (dg : Digests) (p : Params) (s : Lifetime) (loc : Loc) (ns : UInt32)
    (key : BlockKey) (want : UInt64) : Option (List UInt8) :=
  match s.segs.find loc.segmentID, s.files.find loc.segmentID with
  | some _, some f => readRecord dg p.maxBlobLen f loc ns key want
  | _, _ => none

end KVStash.Nvme
