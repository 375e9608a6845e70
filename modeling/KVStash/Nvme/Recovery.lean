/- GID: KVStash/Nvme/Recovery
   digest: Recovery of a volume directory from its checkpoint, its footers and its torn tails. -/

import KVStash.Nvme.Scan
import KVStash.Nvme.Seal
import KVStash.Nvme.Checkpoint

set_option autoImplicit false

namespace KVStash.Nvme

open Foundation.Bytes

/-- A volume directory: canonical segment files by ascending id, checkpoint files newest first, and
the temporary files a crash left behind. -/
structure Dir where
  segs : List (UInt32 × File)
  ckpts : List (UInt64 × List UInt8)
  tmps : List File
  ascending : segs.Pairwise fun a b => a.1 < b.1
  newestFirst : ckpts.Pairwise fun a b => b.1 < a.1

theorem Dir.no_ckpts : ([] : List (UInt64 × List UInt8)).Pairwise fun a b => b.1 < a.1 := .nil

theorem ascending_unique {α : Type} {l : List (UInt32 × α)} (h : l.Pairwise fun a b => a.1 < b.1)
    {id : UInt32} {x y : α} (hx : (id, x) ∈ l) (hy : (id, y) ∈ l) : x = y := by
  induction h with
  | nil => cases hx
  | @cons a l hlt _ ih =>
    rcases List.mem_cons.mp hx with hx | hx
    · rcases List.mem_cons.mp hy with hy | hy
      · exact (Prod.mk.inj (hx.trans hy.symm)).2
      · exact absurd (hlt _ hy) (by rw [← hx]; exact UInt32.lt_irrefl _)
    · rcases List.mem_cons.mp hy with hy | hy
      · exact absurd (hlt _ hx) (by rw [← hy]; exact UInt32.lt_irrefl _)
      · exact ih hx hy

structure RecoveredEntry where
  ns : UInt32
  key : BlockKey
  loc : Loc
  xxh3 : UInt64
  deriving DecidableEq, Repr

/-- An entry of segment `id`, as recovery reports it. -/
def FooterEntry.recovered (id : UInt32) (e : FooterEntry) : RecoveredEntry :=
  ⟨e.ns, e.key, ⟨id, e.off, e.len⟩, e.xxh3⟩

/-- A segment that recovery keeps: its file and what the volume holds about it in memory. -/
structure Kept where
  file : File
  size : ℕ
  dataEnd : UInt32
  entries : List FooterEntry

/-- What recovery does with one segment file: `kept` is `none` when the file is removed. -/
structure Outcome where
  kept : Option Kept
  scanned : Bool
  truncated : ℕ

/-- The entries a checkpoint vouches for, when it vouches for segment `id` at all. -/
def trustedRows (ck : Option Ckpt) (id : UInt32) : Option (List FooterEntry) :=
  match ck with
  | none => none
  | some c => if id ≤ c.maxSealed ∧ c.group id ≠ [] then some (c.group id) else none

def lastEnd (es : List FooterEntry) : ℕ :=
  es.foldl (fun d e => if d < e.off.toNat + recordSpan e.len
    then e.off.toNat + recordSpan e.len else d) 0

/-- A file too odd or too small to be anything but a create that a crash cut short. -/
def partialCreate (maxBlob : UInt32) (size : ℕ) : Bool :=
  decide (size % recordAlign ≠ 0) || decide (size < minSegmentBytes maxBlob)

/-- The unsealed tail: scan it, and seal what the scan recovered. `sealOk` is whether the seal's
writes succeed. -/
def recoverTail (dg : Digests) (p : Params) (sealOk : Bool) (id : UInt32) (f : File) : Outcome :=
  let t := scanTail dg p.maxBlobLen f
  if t.1 = [] then ⟨none, true, t.2.2⟩
  else if sealOk then ⟨some ⟨writeSeal dg f f.size id t.2.1 t.1, f.size, t.2.1, t.1⟩, true, t.2.2⟩
  else ⟨none, true, t.2.2⟩

def recoverSegment (dg : Digests) (p : Params) (ck : Option Ckpt) (sealOk : Bool) (id : UInt32)
    (f : File) : Outcome :=
  if partialCreate p.maxBlobLen f.size then ⟨none, false, 0⟩
  else
    match trustedRows ck id with
    | some rows =>
      let valid := rows.filter (·.within p.maxBlobLen (f.size - recordAlign))
      ⟨some ⟨f, f.size, UInt32.ofNat (lastEnd valid), valid⟩, true, 0⟩
    | none =>
      match readSeal dg f f.size id p.maxBlobLen with
      | some (tr, entries) => ⟨some ⟨f, f.size, tr.dataEnd, entries⟩, true, 0⟩
      | none => recoverTail dg p sealOk id f

section Cases

variable {dg : Digests} {p : Params} {ck : Option Ckpt} {sealOk : Bool} {id : UInt32} {f : File}

theorem recoverSegment_of_cut (h : partialCreate p.maxBlobLen f.size = true) :
    recoverSegment dg p ck sealOk id f = ⟨none, false, 0⟩ := if_pos h

theorem recoverSegment_of_trusted (h : partialCreate p.maxBlobLen f.size = false)
    {rows : List FooterEntry} (htrust : trustedRows ck id = some rows) :
    recoverSegment dg p ck sealOk id f =
      ⟨some ⟨f, f.size,
        UInt32.ofNat (lastEnd (rows.filter (·.within p.maxBlobLen (f.size - recordAlign)))),
        rows.filter (·.within p.maxBlobLen (f.size - recordAlign))⟩, true, 0⟩ := by
  rw [recoverSegment, if_neg (by rw [h]; exact Bool.false_ne_true), htrust]

theorem recoverSegment_of_sealed (h : partialCreate p.maxBlobLen f.size = false)
    (htrust : trustedRows ck id = none) {tr : Trailer} {es : List FooterEntry}
    (hseal : readSeal dg f f.size id p.maxBlobLen = some (tr, es)) :
    recoverSegment dg p ck sealOk id f = ⟨some ⟨f, f.size, tr.dataEnd, es⟩, true, 0⟩ := by
  rw [recoverSegment, if_neg (by rw [h]; exact Bool.false_ne_true), htrust, hseal]

theorem recoverSegment_of_tail (h : partialCreate p.maxBlobLen f.size = false)
    (htrust : trustedRows ck id = none) (hseal : readSeal dg f f.size id p.maxBlobLen = none) :
    recoverSegment dg p ck sealOk id f = recoverTail dg p sealOk id f := by
  rw [recoverSegment, if_neg (by rw [h]; exact Bool.false_ne_true), htrust, hseal]

theorem recoverTail_kept {k : Kept} (h : (recoverTail dg p sealOk id f).kept = some k) :
    (scanTail dg p.maxBlobLen f).1 ≠ [] ∧ sealOk = true ∧
      k = ⟨writeSeal dg f f.size id (scanTail dg p.maxBlobLen f).2.1 (scanTail dg p.maxBlobLen f).1,
        f.size, (scanTail dg p.maxBlobLen f).2.1, (scanTail dg p.maxBlobLen f).1⟩ := by
  unfold recoverTail at h
  generalize scanTail dg p.maxBlobLen f = t at h ⊢
  dsimp only at h
  split at h
  · cases h
  rename_i hne
  split at h
  · exact ⟨hne, ‹_›, (Option.some.inj h).symm⟩
  · cases h

theorem recoverTail_of_record (h : (scanTail dg p.maxBlobLen f).1 ≠ []) :
    (recoverTail dg p true id f).kept =
      some ⟨writeSeal dg f f.size id (scanTail dg p.maxBlobLen f).2.1
        (scanTail dg p.maxBlobLen f).1,
        f.size, (scanTail dg p.maxBlobLen f).2.1, (scanTail dg p.maxBlobLen f).1⟩ := by
  unfold recoverTail
  generalize scanTail dg p.maxBlobLen f = t at h ⊢
  dsimp only
  rw [if_neg h, if_pos rfl]

end Cases

/-- Whether an entry stays when another of the same key comes along: the later place wins. -/
def RecoveredEntry.keeps (prev e : RecoveredEntry) : Bool :=
  decide (e.loc.segmentID < prev.loc.segmentID) ||
    (decide (prev.loc.segmentID = e.loc.segmentID) && decide (e.loc.offset ≤ prev.loc.offset))

def RecoveredEntry.sameKey (a b : RecoveredEntry) : Bool := decide (a.ns = b.ns ∧ a.key = b.key)

def mergeEntry : List RecoveredEntry → RecoveredEntry → List RecoveredEntry
  | [], e => [e]
  | prev :: rest, e =>
    if prev.sameKey e then (if prev.keeps e then prev :: rest else e :: rest)
    else prev :: mergeEntry rest e

structure RecoveryReport where
  segmentsScanned : ℕ
  blocksRecovered : ℕ
  bytesTruncated : ℕ
  deriving DecidableEq, Repr

structure Recovered where
  dir : Dir
  segs : List (UInt32 × Kept)
  entries : List RecoveredEntry
  nextID : UInt32
  ckptSeq : UInt64
  report : RecoveryReport

def keptSegs (dg : Digests) (p : Params) (ck : Option Ckpt) (sealOk : UInt32 → Bool)
    (segs : List (UInt32 × File)) : List (UInt32 × Kept) :=
  segs.filterMap fun s => (recoverSegment dg p ck (sealOk s.1) s.1 s.2).kept.map fun k => (s.1, k)

def keptEntries (segs : List (UInt32 × Kept)) : List RecoveredEntry :=
  segs.flatMap fun s => s.2.entries.map (·.recovered s.1)

/-- The id of the next segment: past every file listed and past what the checkpoint vouches for. -/
def nextSegID (ids : List UInt32) (ck : Option Ckpt) : UInt32 :=
  let past := match ids.getLast? with
    | some id => id + 1
    | none => 0
  match ck with
  | some c => if past < c.maxSealed + 1 then c.maxSealed + 1 else past
  | none => past

theorem keptSegs_ascending (dg : Digests) (p : Params) (ck : Option Ckpt) (sealOk : UInt32 → Bool)
    {segs : List (UInt32 × File)} (h : segs.Pairwise fun a b => a.1 < b.1) :
    (keptSegs dg p ck sealOk segs).Pairwise fun a b => a.1 < b.1 := by
  refine List.Pairwise.filterMap _ ?_ h
  intro a b hab x hx y hy
  obtain ⟨k, -, rfl⟩ := Option.map_eq_some_iff.mp hx
  obtain ⟨l, -, rfl⟩ := Option.map_eq_some_iff.mp hy
  exact hab

section KeptSegs

variable {dg : Digests} {p : Params} {ck : Option Ckpt} {sealOk : UInt32 → Bool}

@[simp] theorem keptSegs_nil :
    keptSegs dg p ck sealOk [] = [] := by rw [keptSegs, List.filterMap_nil]

theorem keptSegs_cons_none {s : UInt32 × File} {segs : List (UInt32 × File)}
    (h : (recoverSegment dg p ck (sealOk s.1) s.1 s.2).kept = none) :
    keptSegs dg p ck sealOk (s :: segs) = keptSegs dg p ck sealOk segs :=
  List.filterMap_cons_none (by rw [h, Option.map_none])

theorem keptSegs_cons_some {s : UInt32 × File} {segs : List (UInt32 × File)} {k : Kept}
    (h : (recoverSegment dg p ck (sealOk s.1) s.1 s.2).kept = some k) :
    keptSegs dg p ck sealOk (s :: segs) = (s.1, k) :: keptSegs dg p ck sealOk segs :=
  List.filterMap_cons_some (by rw [h, Option.map_some])

theorem mem_keptSegs {segs : List (UInt32 × File)} {id : UInt32} {k : Kept} :
    (id, k) ∈ keptSegs dg p ck sealOk segs ↔
      ∃ f, (id, f) ∈ segs ∧ (recoverSegment dg p ck (sealOk id) id f).kept = some k := by
  constructor
  · intro h
    obtain ⟨⟨i, f⟩, hmem, hs⟩ := List.mem_filterMap.mp h
    obtain ⟨k', hk, heq⟩ := Option.map_eq_some_iff.mp hs
    obtain ⟨rfl, rfl⟩ := Prod.mk.inj heq
    exact ⟨f, hmem, hk⟩
  · rintro ⟨f, hmem, hk⟩
    exact List.mem_filterMap.mpr ⟨(id, f), hmem, Option.map_eq_some_iff.mpr ⟨k, hk, rfl⟩⟩

end KeptSegs

def recoverDir (dg : Digests) (p : Params) (sealOk : UInt32 → Bool) (d : Dir) : Recovered :=
  let ck := loadNewestCkpt dg d.ckpts
  let outcomes := d.segs.map fun s => recoverSegment dg p ck (sealOk s.1) s.1 s.2
  let kept := keptSegs dg p ck sealOk d.segs
  { dir :=
      { segs := kept.map fun s => (s.1, s.2.file)
        ckpts := d.ckpts
        tmps := []
        ascending := (keptSegs_ascending dg p ck sealOk d.ascending).map _ fun _ _ h => h
        newestFirst := d.newestFirst }
    segs := kept
    entries := (keptEntries kept).foldl mergeEntry []
    nextID := nextSegID (d.segs.map Prod.fst) ck
    ckptSeq := (ck.map (·.seq)).getD 0
    report :=
      { segmentsScanned := (outcomes.filter (·.scanned)).length
        blocksRecovered := (keptEntries kept).length
        bytesTruncated := (outcomes.map (·.truncated)).sum } }

theorem recoverDir_segs (dg : Digests) (p : Params) (sealOk : UInt32 → Bool) (d : Dir) :
    (recoverDir dg p sealOk d).segs = keptSegs dg p (loadNewestCkpt dg d.ckpts) sealOk d.segs := by
  rw [recoverDir]

theorem recoverDir_dir_segs (dg : Digests) (p : Params) (sealOk : UInt32 → Bool) (d : Dir) :
    (recoverDir dg p sealOk d).dir.segs =
      (keptSegs dg p (loadNewestCkpt dg d.ckpts) sealOk d.segs).map fun s => (s.1, s.2.file) := by
  rw [recoverDir]

theorem recoverDir_entries (dg : Digests) (p : Params) (sealOk : UInt32 → Bool) (d : Dir) :
    (recoverDir dg p sealOk d).entries =
      (keptEntries (keptSegs dg p (loadNewestCkpt dg d.ckpts) sealOk d.segs)).foldl mergeEntry
      [] := by
  rw [recoverDir]

end KVStash.Nvme
