/- GID: KVStash/Nvme/Format
   digest: The on-disk records, entry tables and seal trailers of a segment file. -/

import KVStash.Foundation.Bytes

set_option autoImplicit false

namespace KVStash.Nvme

open Foundation.Bytes List

def recordAlign : ℕ := 4096
def recordHdrSize : ℕ := 56
def footerEntrySz : ℕ := 52
def trailerSize : ℕ := 64

/-- The letters `KVBR`. -/
def recordMagic : ℕ := 0x5242564B

/-- The letters `KVBF`. -/
def trailerMagic : ℕ := 0x4642564B

def segmentVersion : ℕ := 1

def roundUpAlign (n : ℕ) : ℕ := (n + (recordAlign - 1)) / recordAlign * recordAlign

/-- The aligned footprint of a record with the given payload length. -/
def recordSpan (payloadLen : UInt32) : ℕ := roundUpAlign (recordHdrSize + payloadLen.toNat)

def minSegmentBytes (maxBlobLen : UInt32) : ℕ :=
  recordSpan maxBlobLen + 2 * recordAlign + trailerSize

/-- A 32-byte block key, as the number its bytes spell. -/
abbrev BlockKey := BitVec 256

structure RecordHeader where
  ns : UInt32
  key : BlockKey
  len : UInt32
  xxh3 : UInt64
  deriving DecidableEq, Repr

/-- The 56 header bytes; the four at index 44 are reserved. -/
def RecordHeader.encode (h : RecordHeader) : List UInt8 :=
  fields [(4, recordMagic), (4, h.ns.toNat), (32, h.key.toNat), (4, h.len.toNat), (4, 0),
    (8, h.xxh3.toNat)]

/-- Header, payload and the zeros up to the next aligned boundary, behind what is staged. -/
def appendRecord (dst : List UInt8) (h : RecordHeader) (payload : List UInt8) : List UInt8 :=
  let framed := dst ++ h.encode ++ payload
  framed ++ replicate (dst.length + recordSpan h.len - framed.length) 0

inductive HeaderError where
  | short (bytes : ℕ)
  | magic (found : ℕ)
  | tooLong (len maxLen : UInt32)
  deriving DecidableEq, Repr

def RecordHeader.decode (b : List UInt8) : RecordHeader where
  ns := UInt32.ofNat (leAt b 4 4)
  key := BitVec.ofNat 256 (leAt b 8 32)
  len := UInt32.ofNat (leAt b 40 4)
  xxh3 := UInt64.ofNat (leAt b 48 8)

def parseRecordHeader (b : List UInt8) (maxLen : UInt32) : Except HeaderError RecordHeader :=
  if b.length < recordHdrSize then .error (.short b.length)
  else if leAt b 0 4 ≠ recordMagic then .error (.magic (leAt b 0 4))
  else if maxLen < (RecordHeader.decode b).len
    then .error (.tooLong (RecordHeader.decode b).len maxLen)
  else .ok (RecordHeader.decode b)

structure FooterEntry where
  ns : UInt32
  key : BlockKey
  off : UInt32
  len : UInt32
  xxh3 : UInt64
  deriving DecidableEq, Repr

def FooterEntry.fieldList (e : FooterEntry) : List (ℕ × ℕ) :=
  [(4, e.ns.toNat), (32, e.key.toNat), (4, e.off.toNat), (4, e.len.toNat), (8, e.xxh3.toNat)]

def FooterEntry.decode (c : List UInt8) : FooterEntry where
  ns := UInt32.ofNat (leAt c 0 4)
  key := BitVec.ofNat 256 (leAt c 4 32)
  off := UInt32.ofNat (leAt c 36 4)
  len := UInt32.ofNat (leAt c 40 4)
  xxh3 := UInt64.ofNat (leAt c 44 8)

/-- The entries one behind the other, without the padding. -/
def encodeRows (entries : List FooterEntry) : List UInt8 :=
  entries.flatMap fun e => fields e.fieldList

def encodeEntries (entries : List FooterEntry) : List UInt8 :=
  encodeRows entries ++
    replicate (roundUpAlign (entries.length * footerEntrySz) - entries.length * footerEntrySz) 0

/-- The first `count` entries of a table chunk; a chunk too short for them is refused. -/
def decodeEntries (b : List UInt8) (count : UInt32) : Option (List FooterEntry) :=
  if b.length < count.toNat * footerEntrySz then none
    else some (rows FooterEntry.decode footerEntrySz b count.toNat)

structure Trailer where
  entryCount : UInt32
  dataEnd : UInt32
  footerOff : UInt32
  segID : UInt32
  crc : UInt32
  deriving DecidableEq, Repr

/-- The 60 trailer bytes that the checksum covers. -/
def Trailer.pre (t : Trailer) : List UInt8 :=
  fields [(4, trailerMagic), (4, segmentVersion), (4, t.entryCount.toNat), (4, t.dataEnd.toNat),
    (4, t.footerOff.toNat), (4, t.segID.toNat), (36, 0)]

def encodeTrailer (t : Trailer) : List UInt8 := t.pre ++ leBytes 4 t.crc.toNat

inductive TrailerError where
  | short (bytes : ℕ)
  | magic (found : ℕ)
  | version (found : ℕ)
  | segID (found want : UInt32)
  deriving DecidableEq, Repr

def Trailer.decode (b : List UInt8) : Trailer where
  entryCount := UInt32.ofNat (leAt b 8 4)
  dataEnd := UInt32.ofNat (leAt b 12 4)
  footerOff := UInt32.ofNat (leAt b 16 4)
  segID := UInt32.ofNat (leAt b 20 4)
  crc := UInt32.ofNat (leAt b 60 4)

def decodeTrailer (b : List UInt8) (wantSegID : UInt32) : Except TrailerError Trailer :=
  if b.length < trailerSize then .error (.short b.length)
  else if leAt b 0 4 ≠ trailerMagic then .error (.magic (leAt b 0 4))
  else if leAt b 4 4 ≠ segmentVersion then .error (.version (leAt b 4 4))
  else if (Trailer.decode b).segID ≠ wantSegID
    then .error (.segID (Trailer.decode b).segID wantSegID)
  else .ok (Trailer.decode b)

/-- The two digests of the format: CRC-32C with its running value, and the 64-bit payload hash. -/
structure Digests where
  crcUpdate : UInt32 → List UInt8 → UInt32
  xxh3 : List UInt8 → UInt64

def Digests.zero : Digests := ⟨fun _ _ => 0, fun _ => 0⟩

def Digests.sealCRC (dg : Digests) (entryTable trailerPrefix60 : List UInt8) : UInt32 :=
  dg.crcUpdate (dg.crcUpdate 0 entryTable) trailerPrefix60

/-! ## Alignment -/

theorem le_roundUpAlign (n : ℕ) : n ≤ roundUpAlign n := by
  have := Nat.div_add_mod (n + (recordAlign - 1)) recordAlign
  unfold roundUpAlign recordAlign at *
  omega

theorem roundUpAlign_lt (n : ℕ) : roundUpAlign n < n + recordAlign := by
  have := Nat.div_add_mod (n + (recordAlign - 1)) recordAlign
  unfold roundUpAlign recordAlign at *
  omega

theorem roundUpAlign_mod (n : ℕ) : roundUpAlign n % recordAlign = 0 := Nat.mul_mod_left _ _

theorem roundUpAlign_mono {m n : ℕ} (h : m ≤ n) : roundUpAlign m ≤ roundUpAlign n :=
  Nat.mul_le_mul_right _ (Nat.div_le_div_right (Nat.add_le_add_right h _))

theorem recordSpan_mod (n : UInt32) : recordSpan n % recordAlign = 0 := roundUpAlign_mod _

theorem hdr_add_len_le_span (n : UInt32) : recordHdrSize + n.toNat ≤ recordSpan n :=
    le_roundUpAlign _

theorem recordSpan_mono {m n : UInt32} (h : m ≤ n) : recordSpan m ≤ recordSpan n :=
  roundUpAlign_mono (Nat.add_le_add_left (UInt32.le_iff_toNat_le.mp h) _)

theorem align_le_span (n : UInt32) : recordAlign ≤ recordSpan n := by
  have hpos := hdr_add_len_le_span n
  have hmod := recordSpan_mod n
  unfold recordHdrSize recordAlign at *
  omega

/-! ## Round trips -/

theorem uint32_lt (x : UInt32) : x.toNat < 256 ^ 4 := x.toNat_lt

theorem key_lt (x : BlockKey) : x.toNat < 256 ^ 32 := by
  have h : (256 : ℕ) ^ 32 = 2 ^ 256 := by norm_num
  rw [h]
  exact x.isLt

theorem uint64_lt (x : UInt64) : x.toNat < 256 ^ 8 := x.toNat_lt

@[simp] theorem RecordHeader.length_encode (h : RecordHeader) : h.encode.length = recordHdrSize :=
  length_fields _

theorem RecordHeader.decode_encode (h : RecordHeader) (rest : List UInt8) :
    RecordHeader.decode (h.encode ++ rest) = h := by
  have e1 : leAt (h.encode ++ rest) 4 4 = h.ns.toNat := leAt_field 1 rfl rfl (uint32_lt h.ns) rest
  have e2 : leAt (h.encode ++ rest) 8 32 = h.key.toNat := leAt_field 2 rfl rfl (key_lt h.key) rest
  have e3 : leAt (h.encode ++ rest) 40 4 = h.len.toNat :=
    leAt_field 3 rfl rfl (uint32_lt h.len) rest
  have e4 : leAt (h.encode ++ rest) 48 8 = h.xxh3.toNat :=
    leAt_field 5 rfl rfl (uint64_lt h.xxh3) rest
  unfold RecordHeader.decode
  rw [e1, e2, e3, e4, UInt32.ofNat_toNat, UInt32.ofNat_toNat, UInt64.ofNat_toNat,
    BitVec.ofNat_toNat, BitVec.setWidth_eq]

theorem RecordHeader.magic_encode (h : RecordHeader) (rest : List UInt8) :
    leAt (h.encode ++ rest) 0 4 = recordMagic :=
  leAt_field 0 rfl rfl (by norm_num [recordMagic]) rest

theorem RecordHeader.decode_take (b : List UInt8) {m : ℕ} (hm : recordHdrSize ≤ m) :
    RecordHeader.decode (b.take m) = RecordHeader.decode b := by
  unfold recordHdrSize at hm
  simp only [RecordHeader.decode]
  rw [leAt_take (by omega), leAt_take (by omega), leAt_take (by omega), leAt_take (by omega)]

theorem length_appendRecord (dst : List UInt8) (h : RecordHeader) {payload : List UInt8}
    (hlen : payload.length = h.len.toNat) :
    (appendRecord dst h payload).length = dst.length + recordSpan h.len := by
  have := hdr_add_len_le_span h.len
  simp only [appendRecord, length_append, RecordHeader.length_encode, length_replicate]
  omega

theorem appendRecord_eq (dst : List UInt8) (h : RecordHeader) (payload : List UInt8) :
    appendRecord dst h payload = dst ++ appendRecord [] h payload := by
  have hpad : dst.length + recordSpan h.len - (dst ++ h.encode ++ payload).length =
      recordSpan h.len - (h.encode ++ payload).length := by
    rw [append_assoc, length_append, Nat.add_sub_add_left]
  unfold appendRecord
  dsimp only
  rw [hpad, nil_append, length_nil, Nat.zero_add, append_assoc, append_assoc, append_assoc]

theorem appendRecord_nil (h : RecordHeader) (payload : List UInt8) :
    appendRecord [] h payload = h.encode ++ (payload ++
      replicate (recordSpan h.len - (h.encode ++ payload).length) 0) := by
  unfold appendRecord
  dsimp only
  rw [nil_append, length_nil, Nat.zero_add, append_assoc]

@[simp] theorem FooterEntry.length_encode (e : FooterEntry) :
    (fields e.fieldList).length = footerEntrySz := length_fields _

theorem FooterEntry.decode_encode (e : FooterEntry) (rest : List UInt8) :
    FooterEntry.decode (fields e.fieldList ++ rest) = e := by
  have e1 : leAt (fields e.fieldList ++ rest) 0 4 = e.ns.toNat :=
    leAt_field 0 rfl rfl (uint32_lt e.ns) rest
  have e2 : leAt (fields e.fieldList ++ rest) 4 32 = e.key.toNat :=
    leAt_field 1 rfl rfl (key_lt e.key) rest
  have e3 : leAt (fields e.fieldList ++ rest) 36 4 = e.off.toNat :=
    leAt_field 2 rfl rfl (uint32_lt e.off) rest
  have e4 : leAt (fields e.fieldList ++ rest) 40 4 = e.len.toNat :=
    leAt_field 3 rfl rfl (uint32_lt e.len) rest
  have e5 : leAt (fields e.fieldList ++ rest) 44 8 = e.xxh3.toNat :=
    leAt_field 4 rfl rfl (uint64_lt e.xxh3) rest
  unfold FooterEntry.decode
  rw [e1, e2, e3, e4, e5, UInt32.ofNat_toNat, UInt32.ofNat_toNat, UInt32.ofNat_toNat,
    UInt64.ofNat_toNat, BitVec.ofNat_toNat, BitVec.setWidth_eq]

@[simp] theorem length_encodeRows (es : List FooterEntry) :
    (encodeRows es).length = es.length * footerEntrySz :=
  length_flatMap_rows FooterEntry.length_encode es

theorem length_encodeEntries (es : List FooterEntry) :
    (encodeEntries es).length = roundUpAlign (es.length * footerEntrySz) := by
  have := le_roundUpAlign (es.length * footerEntrySz)
  rw [encodeEntries, length_append, length_encodeRows, length_replicate]
  omega

theorem decodeEntries_encodeEntries {es : List FooterEntry} (hcount : es.length < 2 ^ 32) :
    decodeEntries (encodeEntries es) (UInt32.ofNat es.length) = some es := by
  have hn : (UInt32.ofNat es.length).toNat = es.length := UInt32.toNat_ofNat_of_lt' hcount
  have hlen : ¬(encodeEntries es).length < (UInt32.ofNat es.length).toNat * footerEntrySz := by
    rw [hn, length_encodeEntries]
    exact Nat.not_lt.mpr (le_roundUpAlign _)
  rw [decodeEntries, if_neg hlen, hn, encodeEntries, encodeRows,
    rows_flatMap FooterEntry.length_encode FooterEntry.decode_encode]

@[simp] theorem Trailer.length_pre (t : Trailer) : t.pre.length = 60 := length_fields _

@[simp] theorem length_encodeTrailer (t : Trailer) : (encodeTrailer t).length = trailerSize := by
  rw [encodeTrailer, length_append, Trailer.length_pre, length_leBytes]
  rfl

theorem decodeTrailer_encodeTrailer (t : Trailer) :
    decodeTrailer (encodeTrailer t) t.segID = .ok t := by
  have m0 : leAt (encodeTrailer t) 0 4 = trailerMagic :=
    leAt_field 0 rfl rfl (by norm_num [trailerMagic]) _
  have m1 : leAt (encodeTrailer t) 4 4 = segmentVersion :=
    leAt_field 1 rfl rfl (by norm_num [segmentVersion]) _
  have e1 : leAt (encodeTrailer t) 8 4 = t.entryCount.toNat := leAt_field 2 rfl rfl (uint32_lt _) _
  have e2 : leAt (encodeTrailer t) 12 4 = t.dataEnd.toNat := leAt_field 3 rfl rfl (uint32_lt _) _
  have e3 : leAt (encodeTrailer t) 16 4 = t.footerOff.toNat := leAt_field 4 rfl rfl (uint32_lt _) _
  have e4 : leAt (encodeTrailer t) 20 4 = t.segID.toNat := leAt_field 5 rfl rfl (uint32_lt _) _
  have e5 : leAt (encodeTrailer t) 60 4 = t.crc.toNat := by
    have := leAt_append (c := []) t.length_pre (uint32_lt t.crc)
    rwa [append_nil] at this
  have hd : Trailer.decode (encodeTrailer t) = t := by
    unfold Trailer.decode
    rw [e1, e2, e3, e4, e5]
    simp only [UInt32.ofNat_toNat]
  simp only [decodeTrailer, length_encodeTrailer, lt_irrefl, if_false, m0, m1, hd, ne_eq,
    not_true_eq_false]

theorem Trailer.pre_take (t : Trailer) : (encodeTrailer t).take 60 = t.pre :=
    take_left' t.length_pre

end KVStash.Nvme
