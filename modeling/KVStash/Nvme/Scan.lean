/- GID: KVStash/Nvme/Scan
   digest: The forward scan of an unsealed segment returns its maximal prefix of intact records. -/

import KVStash.Nvme.Layout

set_option autoImplicit false

namespace KVStash.Nvme

open Foundation.Bytes List

/-- What one turn of the scan loop finds: the end of the good records, with the bytes it counts
as truncated, or a record. -/
inductive Verdict where
  | stop (truncated : ℕ)
  | record (h : RecordHeader)
  deriving DecidableEq, Repr

def allZero (b : List UInt8) : Bool := b.all (· == 0)

/-- The largest buffer the pool hands out; a larger request is refused. -/
def poolMax (maxBlobLen : UInt32) : ℕ := roundUpAlign (recordSpan maxBlobLen % 2 ^ 32) % 2 ^ 32

/-- The space below which records may lie: all but the trailer chunk, by a 64-bit subtraction. -/
def scanLimit (segBytes : ℕ) : ℕ :=
  if recordAlign ≤ segBytes then segBytes - recordAlign else segBytes + 2 ^ 64 - recordAlign

/-- One turn of the loop at `off`, with the ranges it reads. -/
def scanAt (dg : Digests) (maxBlob : UInt32) (f : File) (limit off : ℕ) : Verdict × List (ℕ × ℕ) :=
  if off + recordAlign ≤ limit then
    match f.readAt off recordAlign with
    | none => (.stop recordAlign, [(off, recordAlign)])
    | some hdrBuf =>
      match parseRecordHeader hdrBuf maxBlob with
      | .error _ =>
        (.stop (if allZero (hdrBuf.take recordHdrSize) then 0 else recordAlign),
          [(off, recordAlign)])
      | .ok h =>
        if limit < off + recordSpan h.len then (.stop (recordSpan h.len), [(off, recordAlign)])
        else if poolMax maxBlob < recordSpan h.len % 2 ^ 32 then (.stop 0, [(off, recordAlign)])
        else match f.readAt off (recordSpan h.len) with
          | none => (.stop (recordSpan h.len), [(off, recordAlign), (off, recordSpan h.len)])
          | some chunk =>
            if dg.xxh3 (slice chunk recordHdrSize h.len.toNat) ≠ h.xxh3 then
              (.stop (recordSpan h.len), [(off, recordAlign), (off, recordSpan h.len)])
            else (.record h, [(off, recordAlign), (off, recordSpan h.len)])
  else (.stop 0, [])

/-- The scan's variables; `reads` lists the ranges read so far. -/
structure Scan where
  off : ℕ
  recovered : List FooterEntry
  truncated : ℕ
  reads : List (ℕ × ℕ)

def RecordHeader.entryAt (h : RecordHeader) (off : ℕ) : FooterEntry where
  ns := h.ns
  key := h.key
  off := UInt32.ofNat off
  len := h.len
  xxh3 := h.xxh3

/-- The loop, for at most the given number of turns. -/
def scanLoop (dg : Digests) (maxBlob : UInt32) (f : File) (limit : ℕ) : ℕ → Scan → Scan
  | 0, s => s
  | turns + 1, s =>
    match scanAt dg maxBlob f limit s.off with
    | (.stop t, rs) => { s with truncated := s.truncated + t, reads := s.reads ++ rs }
    | (.record h, rs) =>
      scanLoop dg maxBlob f limit turns
        { off := s.off + recordSpan h.len, recovered := s.recovered ++ [h.entryAt s.off],
          truncated := s.truncated, reads := s.reads ++ rs }

def Scan.start : Scan := ⟨0, [], 0, []⟩

/-- The turns that suffice for a file: each record takes at least one aligned chunk of it. -/
def scanTurns (f : File) : ℕ := f.size / recordAlign + 1

def scanRun (dg : Digests) (maxBlob : UInt32) (f : File) : Scan :=
  scanLoop dg maxBlob f (scanLimit f.size) (scanTurns f) Scan.start

/-- The forward scan: the entries of the good records, their end, and the bytes counted as torn. -/
def scanTail (dg : Digests) (maxBlob : UInt32) (f : File) : List FooterEntry × UInt32 × ℕ :=
  let s := scanRun dg maxBlob f
  (s.recovered, UInt32.ofNat s.off, s.truncated)

theorem scanTail_entries (dg : Digests) (maxBlob : UInt32) (f : File) :
    (scanTail dg maxBlob f).1 = (scanRun dg maxBlob f).recovered := by rw [scanTail]

theorem scanTail_dataEnd (dg : Digests) (maxBlob : UInt32) (f : File) :
    (scanTail dg maxBlob f).2.1 = UInt32.ofNat (scanRun dg maxBlob f).off := by rw [scanTail]

/-! ## What a turn finds -/

/-- An intact record at `off`: its header carries the magic and a length within the cap, it ends
below the limit, and its payload has the digest the header names. -/
structure Intact (dg : Digests) (maxBlob : UInt32) (f : File) (limit off : ℕ) (h : RecordHeader) :
    Prop where
  magic : leAt (window f.byte off recordHdrSize) 0 4 = recordMagic
  header : RecordHeader.decode (window f.byte off recordHdrSize) = h
  len_le : h.len ≤ maxBlob
  room : off + recordSpan h.len ≤ limit
  digest : dg.xxh3 (window f.byte (off + recordHdrSize) h.len.toNat) = h.xxh3

/-- Intact records one behind the other, from one offset to another. -/
inductive Chain (dg : Digests) (maxBlob : UInt32) (f : File) (limit : ℕ) :
    ℕ → List RecordHeader → ℕ → Prop
  | nil (off : ℕ) : Chain dg maxBlob f limit off [] off
  | cons {off : ℕ} {h : RecordHeader} {hs : List RecordHeader} {e : ℕ}
      (head : Intact dg maxBlob f limit off h)
      (rest : Chain dg maxBlob f limit (off + recordSpan h.len) hs e) :
      Chain dg maxBlob f limit off (h :: hs) e

def entriesFrom (off : ℕ) : List RecordHeader → List FooterEntry
  | [] => []
  | h :: hs => h.entryAt off :: entriesFrom (off + recordSpan h.len) hs

section Scanning

variable {dg : Digests} {maxBlob : UInt32} {f : File} {limit : ℕ}

variable {off : ℕ} {hs : List RecordHeader} {h k : RecordHeader}

theorem Intact.unique (hh : Intact dg maxBlob f limit off h)
    (hk : Intact dg maxBlob f limit off k) : h = k := hh.header.symm.trans hk.header

theorem Chain.prefix_of_stopped {e e' : ℕ} {hs' : List RecordHeader}
    (hc : Chain dg maxBlob f limit off hs e) (hstop : ∀ h, ¬Intact dg maxBlob f limit e h)
    (hc' : Chain dg maxBlob f limit off hs' e') : hs' <+: hs := by
  induction hc generalizing hs' e' with
  | nil off =>
    cases hc' with
    | nil => exact prefix_rfl
    | cons head _ => exact absurd head (hstop _)
  | cons head rest ih =>
    cases hc' with
    | nil => exact nil_prefix
    | cons head' rest' =>
      obtain rfl := head'.unique head
      exact (prefix_cons_inj _).mpr (ih hstop rest')

theorem Chain.length_le {e : ℕ} (hc : Chain dg maxBlob f limit off hs e) : off ≤ e := by
  induction hc with
  | nil => exact le_rfl
  | cons _ _ ih => omega

theorem Chain.unique {e e' : ℕ} {hs' : List RecordHeader}
    (hc : Chain dg maxBlob f limit off hs e) (hstop : ∀ h, ¬Intact dg maxBlob f limit e h)
    (hc' : Chain dg maxBlob f limit off hs' e') (hstop' : ∀ h, ¬Intact dg maxBlob f limit e' h) :
    hs = hs' ∧ e = e' := by
  induction hc generalizing hs' e' with
  | nil off =>
    cases hc' with
    | nil => exact ⟨rfl, rfl⟩
    | cons head _ => exact absurd head (hstop _)
  | cons head rest ih =>
    cases hc' with
    | nil => exact absurd head (hstop' _)
    | cons head' rest' =>
      obtain rfl := head'.unique head
      obtain ⟨rfl, rfl⟩ := ih hstop rest' hstop'
      exact ⟨rfl, rfl⟩

private theorem parse_chunk_iff :
    parseRecordHeader (window f.byte off recordAlign) maxBlob = .ok h ↔
      leAt (window f.byte off recordHdrSize) 0 4 = recordMagic ∧
        RecordHeader.decode (window f.byte off recordHdrSize) = h ∧ h.len ≤ maxBlob := by
  have htake : (window f.byte off recordAlign).take recordHdrSize =
      window f.byte off recordHdrSize :=
    take_window _ (by decide)
  have hmagic : leAt (window f.byte off recordHdrSize) 0 4 =
      leAt (window f.byte off recordAlign) 0 4 := by
    rw [← htake, leAt_take (by decide)]
  have hdec : RecordHeader.decode (window f.byte off recordHdrSize) =
      RecordHeader.decode (window f.byte off recordAlign) := by
    rw [← htake, RecordHeader.decode_take _ le_rfl]
  have hlong : ¬(window f.byte off recordAlign).length < recordHdrSize := by
    rw [length_window]
    decide
  rw [hmagic, hdec, parseRecordHeader, if_neg hlong]
  by_cases hm : leAt (window f.byte off recordAlign) 0 4 = recordMagic
  · rw [if_neg (not_not.mpr hm)]
    by_cases hl : maxBlob < (RecordHeader.decode (window f.byte off recordAlign)).len
    · rw [if_pos hl]
      constructor
      · intro hx
        cases hx
      · rintro ⟨-, rfl, hle⟩
        exact absurd hl (UInt32.not_lt.mpr hle)
    · rw [if_neg hl]
      constructor
      · intro hx
        cases hx
        exact ⟨hm, rfl, UInt32.not_lt.mp hl⟩
      · rintro ⟨-, rfl, -⟩
        rfl
  · rw [if_pos hm]
    constructor
    · intro hx
      cases hx
    · rintro ⟨hx, -⟩
      exact absurd hx hm

private theorem span_le_poolMax (hpool : recordSpan maxBlob < 2 ^ 32) {n : UInt32}
    (hn : n ≤ maxBlob) : ¬poolMax maxBlob < recordSpan n % 2 ^ 32 := by
  have hle := recordSpan_mono hn
  have hround : roundUpAlign (recordSpan maxBlob) = recordSpan maxBlob := by
    have hmod := recordSpan_mod maxBlob
    have hlo := le_roundUpAlign (recordSpan maxBlob)
    have hhi := roundUpAlign_lt (recordSpan maxBlob)
    have hmod' := roundUpAlign_mod (recordSpan maxBlob)
    unfold recordAlign at *
    omega
  rw [poolMax, Nat.mod_eq_of_lt hpool, hround, Nat.mod_eq_of_lt hpool,
    Nat.mod_eq_of_lt (lt_of_le_of_lt hle hpool)]
  omega

theorem scanAt_eq_record_iff (hlimit : limit ≤ f.size) (hpool : recordSpan maxBlob < 2 ^ 32) :
    (scanAt dg maxBlob f limit off).1 = .record h ↔ Intact dg maxBlob f limit off h := by
  unfold scanAt
  by_cases hchunk : off + recordAlign ≤ limit
  · rw [if_pos hchunk, File.readAt_eq_some (hchunk.trans hlimit)]
    dsimp only
    cases hp : parseRecordHeader (window f.byte off recordAlign) maxBlob with
    | error e =>
      constructor
      · intro hx
        cases hx
      · intro hi
        rw [parse_chunk_iff.mpr ⟨hi.magic, hi.header, hi.len_le⟩] at hp
        cases hp
    | ok k =>
      obtain ⟨hmagic, hdec, hle⟩ := parse_chunk_iff.mp hp
      dsimp only
      by_cases hroom : limit < off + recordSpan k.len
      · rw [if_pos hroom]
        constructor
        · intro hx
          cases hx
        · intro hi
          obtain rfl : k = h := hdec.symm.trans hi.header
          exact absurd hi.room (by omega)
      · have hread : off + recordSpan k.len ≤ f.size := (Nat.le_of_not_lt hroom).trans hlimit
        rw [if_neg hroom, if_neg (span_le_poolMax hpool hle), File.readAt_eq_some hread]
        dsimp only
        rw [slice_window _ (hdr_add_len_le_span k.len)]
        by_cases hsum : dg.xxh3 (window f.byte (off + recordHdrSize) k.len.toNat) = k.xxh3
        · rw [if_neg (not_not.mpr hsum)]
          constructor
          · intro hx
            cases hx
            exact ⟨hmagic, hdec, hle, Nat.le_of_not_lt hroom, hsum⟩
          · intro hi
            obtain rfl : k = h := hdec.symm.trans hi.header
            rfl
        · rw [if_pos hsum]
          constructor
          · intro hx
            cases hx
          · intro hi
            obtain rfl : k = h := hdec.symm.trans hi.header
            exact absurd hi.digest hsum
  · rw [if_neg hchunk]
    constructor
    · intro hx
      cases hx
    · intro hi
      have := align_le_span h.len
      exact absurd hi.room (by omega)

theorem scanAt_reads {r : ℕ × ℕ} (hr : r ∈ (scanAt dg maxBlob f limit off).2) :
    r.1 + r.2 ≤ limit := by
  unfold scanAt at hr
  split at hr
  · rename_i hchunk
    have hone : r ∈ [(off, recordAlign)] → r.1 + r.2 ≤ limit := by
      intro h
      obtain rfl := mem_singleton.mp h
      exact hchunk
    split at hr
    · exact hone hr
    split at hr
    · exact hone hr
    rename_i h _
    split at hr
    · exact hone hr
    rename_i hroom
    have htwo : r ∈ [(off, recordAlign), (off, recordSpan h.len)] → r.1 + r.2 ≤ limit := by
      intro hx
      rcases mem_cons.mp hx with rfl | hx
      · exact hchunk
      · obtain rfl := mem_singleton.mp hx
        exact Nat.le_of_not_lt hroom
    split at hr
    · exact hone hr
    split at hr
    · exact htwo hr
    · split at hr
      · exact htwo hr
      · exact htwo hr
  · simp at hr

/-! ## The loop -/

theorem scanLoop_spec (hlimit : limit ≤ f.size) (hpool : recordSpan maxBlob < 2 ^ 32)
    {n : ℕ} {s : Scan} (hturns : limit < s.off + n * recordAlign) :
    ∃ hs, Chain dg maxBlob f limit s.off hs (scanLoop dg maxBlob f limit n s).off ∧
      (scanLoop dg maxBlob f limit n s).recovered = s.recovered ++ entriesFrom s.off hs ∧
      ∀ h, ¬Intact dg maxBlob f limit (scanLoop dg maxBlob f limit n s).off h := by
  induction n generalizing s with
  | zero =>
    refine ⟨[], .nil _, (append_nil _).symm, ?_⟩
    intro h hi
    have hroom : s.off + recordSpan h.len ≤ limit := hi.room
    omega
  | succ n ih =>
    rw [scanLoop]
    split
    · rename_i t rs hat
      refine ⟨[], .nil _, (append_nil _).symm, ?_⟩
      intro h hi
      have := (scanAt_eq_record_iff hlimit hpool).mpr hi
      rw [hat] at this
      cases this
    · rename_i h rs hat
      have hi : Intact dg maxBlob f limit s.off h := by
        rw [← scanAt_eq_record_iff hlimit hpool, hat]
      have hspan := align_le_span h.len
      rw [Nat.succ_mul] at hturns
      obtain ⟨hs, hchain, hrec, hstop⟩ :=
        @ih ⟨s.off + recordSpan h.len, s.recovered ++ [h.entryAt s.off], s.truncated, s.reads ++ rs⟩
          (by dsimp only; omega)
      refine ⟨h :: hs, .cons hi hchain, ?_, hstop⟩
      rw [hrec, entriesFrom, append_assoc, singleton_append]

theorem scanLoop_add {n : ℕ} {s : Scan} (hturns : limit < s.off + n * recordAlign) (m : ℕ) :
    scanLoop dg maxBlob f limit (n + m) s = scanLoop dg maxBlob f limit n s := by
  induction n generalizing s with
  | zero =>
    cases m with
    | zero => rfl
    | succ m =>
      have hat : scanAt dg maxBlob f limit s.off = (.stop 0, []) := if_neg (by omega)
      rw [Nat.zero_add]
      simp only [scanLoop, hat, Nat.add_zero, append_nil]
  | succ n ih =>
    rw [Nat.succ_add, scanLoop, scanLoop]
    split
    · rfl
    rename_i h rs _
    have hspan := align_le_span h.len
    rw [Nat.succ_mul] at hturns
    exact ih (by dsimp only; omega)

theorem scanLoop_reads {n : ℕ} {s : Scan} (hs : ∀ r ∈ s.reads, r.1 + r.2 ≤ limit) :
    ∀ r ∈ (scanLoop dg maxBlob f limit n s).reads, r.1 + r.2 ≤ limit := by
  induction n generalizing s with
  | zero => exact hs
  | succ n ih =>
    have hall : ∀ {v : Verdict} {rs : List (ℕ × ℕ)}, scanAt dg maxBlob f limit s.off = (v, rs) →
        ∀ r ∈ s.reads ++ rs, r.1 + r.2 ≤ limit := by
      intro v rs hat r hr
      rcases mem_append.mp hr with hr | hr
      · exact hs r hr
      · have hr' : r ∈ (scanAt dg maxBlob f limit s.off).2 := by rwa [hat]
        exact scanAt_reads hr'
    rw [scanLoop]
    split
    · rename_i t rs hat
      exact hall hat
    · rename_i h rs hat
      exact ih (hall hat)

/-! ## The records of the writer -/

theorem intact_of_framed {r : AppendReq} (hfits : r.Fits maxBlob) (hsum : dg.xxh3 r.data = r.xxh3)
    (hbytes : window f.byte off (recordSpan r.len) = appendRecord [] r.header r.data)
    (hroom : off + recordSpan r.len ≤ limit) : Intact dg maxBlob f limit off r.header := by
  rw [appendRecord_nil] at hbytes
  have hspan := hdr_add_len_le_span r.len
  have hhdr : window f.byte off recordHdrSize = r.header.encode := by
    have htake := congrArg (take recordHdrSize) hbytes
    rwa [take_window _ (by omega), take_left' r.header.length_encode] at htake
  have hdata : window f.byte (off + recordHdrSize) r.len.toNat = r.data := by
    have hslice := congrArg (slice · recordHdrSize r.len.toNat) hbytes
    rwa [slice_window _ hspan, slice_append r.header.length_encode hfits.toNat_len.symm] at hslice
  constructor
  · have := r.header.magic_encode []
    rwa [append_nil, ← hhdr] at this
  · have := r.header.decode_encode []
    rwa [append_nil, ← hhdr] at this
  · exact hfits.len_le
  · exact hroom
  · exact (congrArg dg.xxh3 hdata).trans hsum

theorem chain_of_framed {rs : List AppendReq} (hfits : ∀ r ∈ rs, r.Fits maxBlob)
    (hsum : ∀ r ∈ rs, dg.xxh3 r.data = r.xxh3) (hbytes : window f.byte off (extent rs) = framed rs)
    (hroom : off + extent rs ≤ limit) :
    Chain dg maxBlob f limit off (rs.map AppendReq.header) (off + extent rs) := by
  induction rs generalizing off with
  | nil => exact .nil off
  | cons r rs ih =>
    have hr : r.Fits maxBlob := hfits r mem_cons_self
    have hlen : (appendRecord [] r.header r.data).length = recordSpan r.len := by
      rw [length_appendRecord [] r.header hr.toNat_len.symm, length_nil, Nat.zero_add]
      rfl
    rw [extent_cons, framed_cons, window_add] at hbytes
    rw [extent_cons] at hroom
    obtain ⟨hhead, hrest⟩ := append_inj hbytes (by rw [length_window, hlen])
    rw [map_cons, extent_cons, ← Nat.add_assoc]
    refine .cons (intact_of_framed hr (hsum r mem_cons_self) hhead (by omega)) ?_
    exact ih (fun x hx => hfits x (mem_cons_of_mem _ hx))
      (fun x hx => hsum x (mem_cons_of_mem _ hx))
      hrest (show off + recordSpan r.len + extent rs ≤ limit by omega)

theorem entriesFrom_headers (off : ℕ) (rs : List AppendReq) :
    entriesFrom off (rs.map AppendReq.header) = placed off rs := by
  induction rs generalizing off with
  | nil => rfl
  | cons r rs ih => exact congrArg (r.entry (UInt32.ofNat off) :: ·) (ih _)

end Scanning

/-! ## The whole scan -/

section Whole

variable (dg : Digests) (p : Params) (f : File)

theorem scanLimit_eq {size : ℕ} (hlo : recordAlign ≤ size) :
    scanLimit size = size - recordAlign := if_pos hlo

theorem Params.span_lt (p : Params) : recordSpan p.maxBlobLen < 2 ^ 32 := by
  have := p.span_le (UInt32.le_refl p.maxBlobLen)
  have := p.lt
  omega

variable {f}

theorem scanTurns_enough (f : File) :
    f.size - recordAlign < Scan.start.off + scanTurns f * recordAlign := by
  have := Nat.div_add_mod f.size recordAlign
  unfold scanTurns Scan.start recordAlign at *
  omega

theorem scanRun_chain (hlo : recordAlign ≤ f.size) :
    ∃ hs, Chain dg p.maxBlobLen f (f.size - recordAlign) 0 hs (scanRun dg p.maxBlobLen f).off ∧
      (∀ h, ¬Intact dg p.maxBlobLen f (f.size - recordAlign) (scanRun dg p.maxBlobLen f).off h) ∧
      (scanRun dg p.maxBlobLen f).recovered = entriesFrom 0 hs := by
  obtain ⟨hs, hchain, hrec, hstop⟩ :=
    @scanLoop_spec dg p.maxBlobLen f _ (Nat.sub_le _ _) p.span_lt _ _ (scanTurns_enough f)
  rw [← scanLimit_eq hlo, ← scanRun] at hchain hrec hstop
  rw [← scanLimit_eq hlo]
  refine ⟨hs, hchain, hstop, ?_⟩
  rw [hrec, Scan.start, nil_append]

theorem scanTail_chain (hlo : recordAlign ≤ f.size) :
    ∃ hs e, Chain dg p.maxBlobLen f (f.size - recordAlign) 0 hs e ∧
      (∀ h, ¬Intact dg p.maxBlobLen f (f.size - recordAlign) e h) ∧
      (scanTail dg p.maxBlobLen f).1 = entriesFrom 0 hs ∧
      (scanTail dg p.maxBlobLen f).2.1 = UInt32.ofNat e := by
  obtain ⟨hs, hchain, hstop, hrec⟩ := scanRun_chain dg p hlo
  rw [scanTail_entries, scanTail_dataEnd]
  exact ⟨hs, (scanRun dg p.maxBlobLen f).off, hchain, hstop, hrec, rfl⟩

/-- A crash image of an unsealed segment: records went out in batches, the first `k` of them are
intact in the image, and what lies behind them fails verification. -/
structure TornImage (blank : File) (batches : List (List AppendReq)) (k : ℕ) (f : File) : Prop where
  created : blank.size = p.segmentBytes
  sized : f.size = p.segmentBytes
  fits : ∀ b ∈ batches, ∀ r ∈ b, r.Fits p.maxBlobLen
  room : extent batches.flatten + recordAlign ≤ p.segmentBytes
  digests : ∀ r ∈ batches.flatten.take k, dg.xxh3 r.data = r.xxh3
  survived : window f.byte 0 (extent (batches.flatten.take k)) =
    window (batches.foldl Tail.append ⟨blank, 0, []⟩).file.byte 0 (extent (batches.flatten.take k))
  torn : ∀ h, ¬Intact dg p.maxBlobLen f (f.size - recordAlign) (extent (batches.flatten.take k)) h

private theorem extent_take_le (rs : List AppendReq) (k : ℕ) : extent (rs.take k) ≤ extent rs := by
  have h := extent_append (rs.take k) (rs.drop k)
  rw [take_append_drop] at h
  omega

private theorem placed_take (off : ℕ) (rs : List AppendReq) (k : ℕ) :
    (placed off rs).take k = placed off (rs.take k) := by
  induction rs generalizing off k with
  | nil => simp [placed]
  | cons r rs ih =>
    cases k with
    | zero => rfl
    | succ k => rw [placed, take_succ_cons, take_succ_cons, ih, placed]

private theorem framed_take {maxBlob : UInt32} {rs : List AppendReq}
    (hfits : ∀ r ∈ rs, r.Fits maxBlob) (k : ℕ) :
    (framed rs).take (extent (rs.take k)) = framed (rs.take k) := by
  have hlen : (framed (rs.take k)).length = extent (rs.take k) :=
    length_framed fun r hr => hfits r (mem_of_mem_take hr)
  have hsplit : framed rs = framed (rs.take k) ++ framed (rs.drop k) := by
    rw [← framed_append, take_append_drop]
  rw [hsplit]
  exact take_left' hlen

variable {dg p}

theorem TornImage.scan {blank : File} {batches : List (List AppendReq)} {k : ℕ}
    (h : TornImage dg p blank batches k f) :
    (scanTail dg p.maxBlobLen f).1 = (batches.foldl Tail.append ⟨blank, 0, []⟩).entries.take k ∧
      (scanTail dg p.maxBlobLen f).2.1 = UInt32.ofNat (extent (batches.flatten.take k)) := by
  have hlt := p.lt
  have hroom := h.room
  have hsized := h.sized
  have hheld : (batches.foldl Tail.append ⟨blank, 0, []⟩).Holds p.maxBlobLen batches.flatten := by
    have hb := ((Tail.holds_empty p.maxBlobLen blank).batches h.fits
      (by rw [extent_nil, Nat.zero_add, h.created]; omega) (by rw [h.created]; omega)).1
    rwa [nil_append] at hb
  have hle := extent_take_le batches.flatten k
  have hbytes : window f.byte 0 (extent (batches.flatten.take k)) =
      framed (batches.flatten.take k) := by
    rw [h.survived, ← framed_take hheld.fits, ← hheld.bytes, take_window _ hle]
  have hchain := chain_of_framed (fun r hr => hheld.fits r (mem_of_mem_take hr)) h.digests hbytes
    (show 0 + extent (batches.flatten.take k) ≤ f.size - recordAlign by omega)
  rw [Nat.zero_add] at hchain
  obtain ⟨hs, e, hc, hstop, hrec, hend⟩ :=
    scanTail_chain dg p (show recordAlign ≤ f.size by omega)
  obtain ⟨rfl, rfl⟩ := hc.unique hstop hchain h.torn
  refine ⟨?_, hend⟩
  rw [hrec, entriesFrom_headers, hheld.entries, placed_take]

/-- Torn-tail recovery: on a crash image the scan returns the entries of the intact records as the
writer reported them. On any image it returns the longest chain of intact records, reads only inside
the file, and is done after the turns it is given. -/
theorem torn_tail_recovery (dg : Digests) (p : Params) (f : File) (hlo : recordAlign ≤ f.size) :
    (∀ (blank : File) (batches : List (List AppendReq)) (k : ℕ), TornImage dg p blank batches k f →
      (scanTail dg p.maxBlobLen f).1 = (batches.foldl Tail.append ⟨blank, 0, []⟩).entries.take k ∧
        (scanTail dg p.maxBlobLen f).2.1 = UInt32.ofNat (extent (batches.flatten.take k))) ∧
    (∃ hs e, Chain dg p.maxBlobLen f (f.size - recordAlign) 0 hs e ∧
      (scanTail dg p.maxBlobLen f).1 = entriesFrom 0 hs ∧
      (scanTail dg p.maxBlobLen f).2.1 = UInt32.ofNat e ∧
      ∀ hs' e', Chain dg p.maxBlobLen f (f.size - recordAlign) 0 hs' e' → hs' <+: hs) ∧
    (∀ r ∈ (scanRun dg p.maxBlobLen f).reads, r.1 + r.2 ≤ f.size) ∧
    ∀ more, scanLoop dg p.maxBlobLen f (scanLimit f.size) (scanTurns f + more) Scan.start =
      scanRun dg p.maxBlobLen f := by
  refine ⟨fun blank batches k h => h.scan, ?_, ?_, ?_⟩
  · obtain ⟨hs, e, hchain, hstop, hrec, hend⟩ := scanTail_chain dg p hlo
    exact ⟨hs, e, hchain, hrec, hend, fun hs' e' hc' => hchain.prefix_of_stopped hstop hc'⟩
  · intro r hr
    have hbound := scanLoop_reads (by simp [Scan.start]) r hr
    rw [scanLimit_eq hlo] at hbound
    omega
  · intro more
    refine scanLoop_add ?_ more
    rw [scanLimit_eq hlo]
    exact scanTurns_enough f

/-- The smallest segments for eight-byte payloads. -/
def Params.tiny : Params where
  segmentBytes := 16384
  maxBlobLen := 8
  syncEveryBytes := 8 * 2 ^ 20
  ckptEverySegs := 1
  readWorkers := 1
  min_le := by decide
  aligned := by decide
  lt := by decide

def AppendReq.sample : AppendReq := ⟨7, 11, 1, [1], 0⟩

/-- A payload digest that tells one-byte payloads apart. -/
private def firstByte : Digests := ⟨fun _ _ => 0, fun data => (data.headD 0).toUInt64⟩

private def pair : File := (Tail.append ⟨.zeros 16384, 0, []⟩ [.sample, .sample]).file

/-- Two records were written, and the payload byte of the second is damaged. -/
private def damaged : File := pair.writeAt (recordAlign + recordHdrSize) [9]

private theorem pair_size : pair.size = 16384 := by decide +kernel

private theorem damaged_size : damaged.size = 16384 :=
  (File.size_writeAt (by rw [pair_size]; decide)).trans pair_size

private theorem damaged_torn :
    TornImage firstByte Params.tiny (.zeros 16384) [[.sample, .sample]] 1 damaged where
  created := rfl
  sized := damaged_size
  fits := by decide
  room := by decide +kernel
  digests := by decide +kernel
  survived := by
    have hext : extent ([[AppendReq.sample, .sample]].flatten.take 1) = recordAlign := by
      decide +kernel
    rw [hext]
    exact window_writeAt_of_disjoint (by rw [pair_size]; decide) (by decide)
  torn := by
    rintro h ⟨-, rfl, -, -, hdigest⟩
    revert hdigest
    decide +kernel

/-- The record before the damaged one is recovered, and the segment ends behind it. -/
theorem torn_tail_recovery_sample :
    (scanTail firstByte 8 damaged).1 = [AppendReq.sample.entry 0] ∧
      (scanTail firstByte 8 damaged).2.1 = 4096 := by
  have h :=
    (torn_tail_recovery firstByte Params.tiny damaged (by rw [damaged_size]; decide)).1 _ _ _
    damaged_torn
  exact ⟨h.1.trans (by decide +kernel), h.2.trans (by decide +kernel)⟩

end Whole

end KVStash.Nvme
