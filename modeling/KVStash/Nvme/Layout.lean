/- GID: KVStash/Nvme/Layout
   digest: Volume parameters, and the record layout the writer builds by staging and flushing. -/

import KVStash.Nvme.Format

set_option autoImplicit false

namespace KVStash.Nvme

open Foundation.Bytes List

/-- The parameters of a volume that opens: the checks are those of `OpenVolume`. -/
structure Params where
  segmentBytes : ℕ
  maxBlobLen : UInt32
  syncEveryBytes : ℕ
  ckptEverySegs : ℕ
  readWorkers : ℕ
  min_le : minSegmentBytes maxBlobLen ≤ segmentBytes
  aligned : segmentBytes % recordAlign = 0
  lt : segmentBytes < 2 ^ 32 - 1

theorem Params.span_le (p : Params) {n : UInt32} (h : n ≤ p.maxBlobLen) :
    recordSpan n + 2 * recordAlign ≤ p.segmentBytes := by
  have := p.min_le
  have := recordSpan_mono h
  unfold minSegmentBytes at *
  omega

/-- The address of one record, by the offset of its header. -/
structure Loc where
  segmentID : UInt32
  offset : UInt32
  len : UInt32
  deriving DecidableEq, Repr

/-- One append: `cb` stands for the caller's completion callback. -/
structure AppendReq where
  ns : UInt32
  key : BlockKey
  xxh3 : UInt64
  data : List UInt8
  cb : ℕ
  deriving DecidableEq, Repr

def AppendReq.len (r : AppendReq) : UInt32 := UInt32.ofNat r.data.length

def AppendReq.header (r : AppendReq) : RecordHeader where
  ns := r.ns
  key := r.key
  len := r.len
  xxh3 := r.xxh3

def AppendReq.entry (r : AppendReq) (off : UInt32) : FooterEntry where
  ns := r.ns
  key := r.key
  off := off
  len := r.len
  xxh3 := r.xxh3

/-- The writer's batch: the staging buffer, and the records in it with their callbacks. -/
structure Batch where
  staging : List UInt8
  pending : List (FooterEntry × ℕ)
  deriving DecidableEq, Repr

def Batch.empty : Batch := ⟨[], []⟩

/-- A record staged behind the batch, for a segment whose records end at `dataEnd`. -/
def Batch.stage (dataEnd : UInt32) (b : Batch) (r : AppendReq) : Batch where
  staging := appendRecord b.staging r.header r.data
  pending := b.pending ++ [(r.entry (dataEnd + UInt32.ofNat b.staging.length), r.cb)]

/-- The growing part of the active segment. -/
structure Tail where
  file : File
  dataEnd : UInt32
  entries : List FooterEntry

/-- One write of the staging buffer at the data end, and the publication that follows it. -/
def Tail.flush (t : Tail) (b : Batch) : Tail where
  file := t.file.writeAt t.dataEnd.toNat b.staging
  dataEnd := t.dataEnd + UInt32.ofNat b.staging.length
  entries := t.entries ++ b.pending.map Prod.fst

def Tail.append (t : Tail) (reqs : List AppendReq) : Tail :=
  t.flush (reqs.foldl (Batch.stage t.dataEnd) Batch.empty)

/-! ## The layout

Records lie one behind the other, each in its aligned span, whatever the batches. -/

def extent (rs : List AppendReq) : ℕ := (rs.map fun r => recordSpan r.len).sum

def framed (rs : List AppendReq) : List UInt8 := rs.flatMap fun r => appendRecord [] r.header r.data

/-- The entries of a list of records laid out from `off`. -/
def placed (off : ℕ) : List AppendReq → List FooterEntry
  | [] => []
  | r :: rs => r.entry (UInt32.ofNat off) :: placed (off + recordSpan r.len) rs

/-- The writer stages only payloads within the cap, so a length is exact in 32 bits. -/
def AppendReq.Fits (maxBlob : UInt32) (r : AppendReq) : Prop := r.data.length ≤ maxBlob.toNat

instance (maxBlob : UInt32) (r : AppendReq) : Decidable (r.Fits maxBlob) :=
  inferInstanceAs (Decidable (_ ≤ _))

variable {maxBlob : UInt32} {rs ss : List AppendReq}

theorem AppendReq.Fits.toNat_len {r : AppendReq} (h : r.Fits maxBlob) :
    r.len.toNat = r.data.length :=
  UInt32.toNat_ofNat_of_lt' (lt_of_le_of_lt h maxBlob.toNat_lt)

theorem AppendReq.Fits.len_le {r : AppendReq} (h : r.Fits maxBlob) : r.len ≤ maxBlob := by
  rw [UInt32.le_iff_toNat_le, h.toNat_len]
  exact h

@[simp] theorem extent_nil : extent [] = 0 := rfl

@[simp] theorem extent_cons (r : AppendReq) (rs : List AppendReq) :
    extent (r :: rs) = recordSpan r.len + extent rs := by simp [extent]

@[simp] theorem extent_append (rs ss : List AppendReq) :
    extent (rs ++ ss) = extent rs + extent ss := by
  simp [extent]

theorem framed_cons (r : AppendReq) (rs : List AppendReq) :
    framed (r :: rs) = appendRecord [] r.header r.data ++ framed rs := rfl

theorem framed_append (rs ss : List AppendReq) : framed (rs ++ ss) = framed rs ++ framed ss :=
  flatMap_append

theorem length_framed (h : ∀ r ∈ rs, r.Fits maxBlob) : (framed rs).length = extent rs := by
  induction rs with
  | nil => rfl
  | cons r rs ih =>
    have hr : r.Fits maxBlob := h r mem_cons_self
    have hrec := length_appendRecord [] r.header hr.toNat_len.symm
    rw [length_nil, Nat.zero_add] at hrec
    rw [framed_cons, length_append, hrec, extent_cons, ih fun x hx => h x (mem_cons_of_mem _ hx)]
    rfl

theorem placed_append (off : ℕ) (rs ss : List AppendReq) :
    placed off (rs ++ ss) = placed off rs ++ placed (off + extent rs) ss := by
  induction rs generalizing off with
  | nil => rfl
  | cons r rs ih => rw [cons_append, placed, ih, placed, extent_cons, cons_append, Nat.add_assoc]

@[simp] theorem length_placed (off : ℕ) (rs : List AppendReq) :
    (placed off rs).length = rs.length := by
  induction rs generalizing off with
  | nil => rfl
  | cons r rs ih => rw [placed, length_cons, length_cons, ih]

theorem add_ofNat (d : UInt32) (n : ℕ) : d + UInt32.ofNat n = UInt32.ofNat (d.toNat + n) := by
  rw [UInt32.ofNat_add, UInt32.ofNat_toNat]

theorem foldl_stage (d : UInt32) (h : ∀ r ∈ rs, r.Fits maxBlob) (b : Batch) :
    (rs.foldl (Batch.stage d) b).staging = b.staging ++ framed rs ∧
      (rs.foldl (Batch.stage d) b).pending =
        b.pending ++ (placed (d.toNat + b.staging.length) rs).zip (rs.map AppendReq.cb) := by
  induction rs generalizing b with
  | nil => simp [framed, placed]
  | cons r rs ih =>
    have hr : r.Fits maxBlob := h r mem_cons_self
    obtain ⟨hs, hp⟩ := ih (fun x hx => h x (mem_cons_of_mem _ hx)) (b.stage d r)
    have hlen : (b.stage d r).staging.length = b.staging.length + recordSpan r.len :=
      length_appendRecord b.staging r.header hr.toNat_len.symm
    constructor
    · rw [foldl_cons, hs, framed_cons, ← append_assoc, ← appendRecord_eq]
      rfl
    · rw [foldl_cons, hp, hlen, ← Nat.add_assoc, placed, map_cons, zip_cons_cons]
      simp only [Batch.stage, add_ofNat, append_assoc, singleton_append]

/-- A segment that holds exactly the given records: entries, bytes and data end agree with them. -/
structure Tail.Holds (maxBlob : UInt32) (t : Tail) (rs : List AppendReq) : Prop where
  fits : ∀ r ∈ rs, r.Fits maxBlob
  dataEnd : t.dataEnd.toNat = extent rs
  entries : t.entries = placed 0 rs
  bytes : window t.file.byte 0 (extent rs) = framed rs
  within : extent rs ≤ t.file.size

theorem Tail.holds_empty (maxBlob : UInt32) (f : File) : Tail.Holds maxBlob ⟨f, 0, []⟩ [] where
  fits := by simp
  dataEnd := rfl
  entries := rfl
  bytes := rfl
  within := Nat.zero_le _

theorem Tail.Holds.append {t : Tail} (h : t.Holds maxBlob rs)
    (hfits : ∀ r ∈ ss, r.Fits maxBlob) (hroom : extent rs + extent ss ≤ t.file.size)
    (hsize : t.file.size < 2 ^ 32) : (t.append ss).Holds maxBlob (rs ++ ss) := by
  obtain ⟨hstaging, hpending⟩ := foldl_stage t.dataEnd hfits Batch.empty
  have hst : (ss.foldl (Batch.stage t.dataEnd) Batch.empty).staging = framed ss := hstaging
  have hlen := length_framed hfits
  constructor
  · intro r hr
    rcases mem_append.mp hr with hr | hr
    · exact h.fits r hr
    · exact hfits r hr
  · show (t.dataEnd + UInt32.ofNat
      (ss.foldl (Batch.stage t.dataEnd) Batch.empty).staging.length).toNat = _
    rw [hst, hlen, add_ofNat, h.dataEnd, extent_append,
      UInt32.toNat_ofNat_of_lt' (lt_of_le_of_lt hroom hsize)]
  · show t.entries ++ (ss.foldl (Batch.stage t.dataEnd) Batch.empty).pending.map Prod.fst = _
    have hzip : ((placed (extent rs) ss).zip (ss.map AppendReq.cb)).map Prod.fst =
        placed (extent rs) ss :=
      map_fst_zip (by simp)
    rw [hpending, h.entries, placed_append, Nat.zero_add, h.dataEnd]
    exact congrArg _ hzip
  · show window (t.file.writeAt t.dataEnd.toNat
      (ss.foldl (Batch.stage t.dataEnd) Batch.empty).staging).byte 0 _ = _
    rw [hst, h.dataEnd, extent_append, framed_append, window_add, Nat.zero_add,
      window_writeAt_of_disjoint (by omega) (by omega), h.bytes]
    congr 1
    rw [← hlen]
    exact window_writeAt _ _ _
  · show extent (rs ++ ss) ≤ max _ _
    rw [extent_append]
    exact le_trans hroom (Nat.le_max_left _ _)

theorem Tail.size_append {t : Tail} (h : t.Holds maxBlob rs)
    (hfits : ∀ r ∈ ss, r.Fits maxBlob) (hroom : extent rs + extent ss ≤ t.file.size) :
    (t.append ss).file.size = t.file.size := by
  have hst : (ss.foldl (Batch.stage t.dataEnd) Batch.empty).staging = framed ss :=
    (foldl_stage t.dataEnd hfits Batch.empty).1
  refine File.size_writeAt ?_
  rw [hst, length_framed hfits, h.dataEnd]
  exact hroom

theorem Tail.window_append {t : Tail} (h : t.Holds maxBlob rs)
    (hfits : ∀ r ∈ ss, r.Fits maxBlob) {a n : ℕ} (ha : extent rs + extent ss ≤ a)
    (hn : a + n ≤ t.file.size) : window (t.append ss).file.byte a n = window t.file.byte a n := by
  have hst : (ss.foldl (Batch.stage t.dataEnd) Batch.empty).staging = framed ss :=
    (foldl_stage t.dataEnd hfits Batch.empty).1
  refine window_writeAt_of_disjoint hn (.inr ?_)
  rw [hst, length_framed hfits, h.dataEnd]
  exact ha

/-- Batch after batch, the segment holds every record appended so far, in order; the bytes behind
them and the size of the file stay as they were. -/
theorem Tail.Holds.batches {t : Tail} (h : t.Holds maxBlob rs)
    {bs : List (List AppendReq)} (hfits : ∀ b ∈ bs, ∀ r ∈ b, r.Fits maxBlob)
    (hroom : extent rs + extent bs.flatten ≤ t.file.size) (hsize : t.file.size < 2 ^ 32) :
    (bs.foldl Tail.append t).Holds maxBlob (rs ++ bs.flatten) ∧
      (bs.foldl Tail.append t).file.size = t.file.size ∧
      ∀ a n, extent rs + extent bs.flatten ≤ a → a + n ≤ t.file.size →
        window (bs.foldl Tail.append t).file.byte a n = window t.file.byte a n := by
  induction bs generalizing t rs with
  | nil => exact ⟨by simpa using h, rfl, fun _ _ _ _ => rfl⟩
  | cons b bs ih =>
    rw [flatten_cons, extent_append] at hroom
    have hb : ∀ r ∈ b, r.Fits maxBlob := hfits b mem_cons_self
    have hsz : (t.append b).file.size = t.file.size := Tail.size_append h hb (by omega)
    obtain ⟨hheld, hsame, hframe⟩ := ih (h.append hb (by omega) hsize)
      (fun c hc => hfits c (mem_cons_of_mem _ hc)) (by rw [hsz, extent_append]; omega)
      (by rw [hsz]; exact hsize)
    rw [flatten_cons, ← append_assoc, extent_append]
    refine ⟨hheld, hsame.trans hsz, ?_⟩
    intro a n ha hn
    rw [foldl_cons, hframe a n (by rw [extent_append]; omega) (by rw [hsz]; exact hn),
      Tail.window_append h hb (by omega) hn]

end KVStash.Nvme
