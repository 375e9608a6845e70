/- GID: KVStash/Nvme/Checkpoint
   digest: The checkpoint file: the entries of sealed segments under one checksum. -/

import KVStash.Nvme.Format

set_option autoImplicit false

namespace KVStash.Nvme

open Foundation.Bytes

/-- The letters `KVBC`. -/
def ckptMagic : ℕ := 0x4342564B

def ckptVersion : ℕ := 1
def ckptHdrSize : ℕ := 24
def ckptEntrySize : ℕ := 56

/-- A larger checkpoint file is refused unread. -/
def ckptMaxBytes : ℕ := 512 * 2 ^ 20

structure CkptEntry where
  ns : UInt32
  key : BlockKey
  segID : UInt32
  off : UInt32
  len : UInt32
  xxh3 : UInt64
  deriving DecidableEq, Repr

def CkptEntry.fieldList (e : CkptEntry) : List (ℕ × ℕ) :=
  [(4, e.ns.toNat), (32, e.key.toNat), (4, e.segID.toNat), (4, e.off.toNat), (4, e.len.toNat),
    (8, e.xxh3.toNat)]

def CkptEntry.decode (r : List UInt8) : CkptEntry where
  ns := UInt32.ofNat (leAt r 0 4)
  key := BitVec.ofNat 256 (leAt r 4 32)
  segID := UInt32.ofNat (leAt r 36 4)
  off := UInt32.ofNat (leAt r 40 4)
  len := UInt32.ofNat (leAt r 44 4)
  xxh3 := UInt64.ofNat (leAt r 48 8)

/-- The footer entry that a checkpoint row stands for. -/
def CkptEntry.footer (e : CkptEntry) : FooterEntry := ⟨e.ns, e.key, e.off, e.len, e.xxh3⟩

/-- The checkpoint row of an entry of segment `id`. -/
def FooterEntry.row (id : UInt32) (e : FooterEntry) : CkptEntry :=
  ⟨e.ns, e.key, id, e.off, e.len, e.xxh3⟩

def ckptHeader (nowNanos : UInt64) (maxSealed : UInt32) (count : ℕ) : List (ℕ × ℕ) :=
  [(4, ckptMagic), (4, ckptVersion), (8, nowNanos.toNat), (4, maxSealed.toNat),
    (4, (UInt32.ofNat count).toNat)]

/-- What the checksum of a checkpoint covers. -/
def ckptBody (nowNanos : UInt64) (maxSealed : UInt32) (entries : List CkptEntry) : List UInt8 :=
  fields (ckptHeader nowNanos maxSealed entries.length) ++ entries.flatMap fun e =>
    fields e.fieldList

def encodeCkpt (dg : Digests) (nowNanos : UInt64) (maxSealed : UInt32) (entries : List CkptEntry) :
    List UInt8 :=
  ckptBody nowNanos maxSealed entries ++
    leBytes 4 (dg.crcUpdate 0 (ckptBody nowNanos maxSealed entries)).toNat

inductive CkptError where
  | tooLarge (bytes : ℕ)
  | short (bytes : ℕ)
  | crc
  | magic (found : ℕ)
  | version (found : ℕ)
  | size (bytes count : ℕ)
  deriving DecidableEq, Repr

def readCkptFile (dg : Digests) (buf : List UInt8) : Except CkptError (List CkptEntry × UInt32) :=
  if ckptMaxBytes < buf.length then .error (.tooLarge buf.length)
  else if buf.length < ckptHdrSize + 4 then .error (.short buf.length)
  else
    let body := buf.take (buf.length - 4)
    let count := leAt body 20 4
    if (dg.crcUpdate 0 body).toNat ≠ leAt buf (buf.length - 4) 4 then .error .crc
    else if leAt body 0 4 ≠ ckptMagic then .error (.magic (leAt body 0 4))
    else if leAt body 4 4 ≠ ckptVersion then .error (.version (leAt body 4 4))
    else if body.length ≠ ckptHdrSize + count * ckptEntrySize then .error (.size body.length count)
    else .ok (rows CkptEntry.decode ckptEntrySize (body.drop ckptHdrSize) count,
      UInt32.ofNat (leAt body 16 4))

/-- A usable checkpoint, with the sequence number of its file. -/
structure Ckpt where
  entries : List CkptEntry
  maxSealed : UInt32
  seq : UInt64

/-- The newest checkpoint that reads, of files listed newest first. -/
def loadNewestCkpt (dg : Digests) : List (UInt64 × List UInt8) → Option Ckpt
  | [] => none
  | (seq, buf) :: older =>
    match readCkptFile dg buf with
    | .ok (entries, maxSealed) => some ⟨entries, maxSealed, seq⟩
    | .error _ => loadNewestCkpt dg older

/-- The rows of one segment, in the order of the file. -/
def Ckpt.group (ck : Ckpt) (id : UInt32) : List FooterEntry :=
  (ck.entries.filter (·.segID == id)).map CkptEntry.footer

/-! ## Round trip -/

@[simp] theorem CkptEntry.length_encode (e : CkptEntry) :
    (fields e.fieldList).length = ckptEntrySize := length_fields _

theorem CkptEntry.decode_encode (e : CkptEntry) (rest : List UInt8) :
    CkptEntry.decode (fields e.fieldList ++ rest) = e := by
  have e1 : leAt (fields e.fieldList ++ rest) 0 4 = e.ns.toNat :=
    leAt_field 0 rfl rfl (uint32_lt e.ns) rest
  have e2 : leAt (fields e.fieldList ++ rest) 4 32 = e.key.toNat :=
    leAt_field 1 rfl rfl (key_lt e.key) rest
  have e3 : leAt (fields e.fieldList ++ rest) 36 4 = e.segID.toNat :=
    leAt_field 2 rfl rfl (uint32_lt e.segID) rest
  have e4 : leAt (fields e.fieldList ++ rest) 40 4 = e.off.toNat :=
    leAt_field 3 rfl rfl (uint32_lt e.off) rest
  have e5 : leAt (fields e.fieldList ++ rest) 44 4 = e.len.toNat :=
    leAt_field 4 rfl rfl (uint32_lt e.len) rest
  have e6 : leAt (fields e.fieldList ++ rest) 48 8 = e.xxh3.toNat :=
    leAt_field 5 rfl rfl (uint64_lt e.xxh3) rest
  unfold CkptEntry.decode
  rw [e1, e2, e3, e4, e5, e6]
  simp only [UInt32.ofNat_toNat, UInt64.ofNat_toNat, BitVec.ofNat_toNat, BitVec.setWidth_eq]

theorem length_ckptBody (nowNanos : UInt64) (maxSealed : UInt32) (entries : List CkptEntry) :
    (ckptBody nowNanos maxSealed entries).length =
      ckptHdrSize + entries.length * ckptEntrySize := by
  rw [ckptBody, List.length_append, length_fields, length_flatMap_rows CkptEntry.length_encode]
  rfl

theorem readCkptFile_encodeCkpt (dg : Digests) (nowNanos : UInt64) (maxSealed : UInt32)
    {entries : List CkptEntry}
    (hcap : (encodeCkpt dg nowNanos maxSealed entries).length ≤ ckptMaxBytes) :
    readCkptFile dg (encodeCkpt dg nowNanos maxSealed entries) = .ok (entries, maxSealed) := by
  have hbody := length_ckptBody nowNanos maxSealed entries
  have hlen : (encodeCkpt dg nowNanos maxSealed entries).length =
      (ckptBody nowNanos maxSealed entries).length + 4 := by
    rw [encodeCkpt, List.length_append, length_leBytes]
  have hcount : (UInt32.ofNat entries.length).toNat = entries.length := by
    refine UInt32.toNat_ofNat_of_lt' ?_
    unfold ckptMaxBytes ckptEntrySize at *
    have : UInt32.size = 4294967296 := rfl
    omega
  have htake : (encodeCkpt dg nowNanos maxSealed entries).take
      ((encodeCkpt dg nowNanos maxSealed entries).length - 4) =
      ckptBody nowNanos maxSealed entries := by
    rw [hlen, Nat.add_sub_cancel]
    exact List.take_left' rfl
  have hcrc : leAt (encodeCkpt dg nowNanos maxSealed entries)
      ((encodeCkpt dg nowNanos maxSealed entries).length - 4) 4 =
      (dg.crcUpdate 0 (ckptBody nowNanos maxSealed entries)).toNat := by
    rw [hlen, Nat.add_sub_cancel]
    have h := leAt_append (a := ckptBody nowNanos maxSealed entries) (c := []) rfl
      (uint32_lt (dg.crcUpdate 0 (ckptBody nowNanos maxSealed entries)))
    rwa [List.append_nil] at h
  have hmagic : leAt (ckptBody nowNanos maxSealed entries) 0 4 = ckptMagic :=
    leAt_field 0 rfl rfl (by norm_num [ckptMagic]) _
  have hversion : leAt (ckptBody nowNanos maxSealed entries) 4 4 = ckptVersion :=
    leAt_field 1 rfl rfl (by norm_num [ckptVersion]) _
  have hmax : leAt (ckptBody nowNanos maxSealed entries) 16 4 = maxSealed.toNat :=
    leAt_field 3 rfl rfl (uint32_lt _) _
  have hn : leAt (ckptBody nowNanos maxSealed entries) 20 4 = (UInt32.ofNat entries.length).toNat :=
    leAt_field 4 rfl rfl (uint32_lt _) _
  have hrows : rows CkptEntry.decode ckptEntrySize
      ((ckptBody nowNanos maxSealed entries).drop ckptHdrSize) entries.length = entries := by
    have hdrop : (ckptBody nowNanos maxSealed entries).drop ckptHdrSize =
        (entries.flatMap fun e => fields e.fieldList) ++ [] := by
      rw [List.append_nil]
      exact List.drop_left' (length_fields _)
    rw [hdrop, rows_flatMap CkptEntry.length_encode CkptEntry.decode_encode]
  unfold readCkptFile
  rw [if_neg (Nat.not_lt.mpr hcap), if_neg (by rw [hlen, hbody]; omega)]
  dsimp only
  rw [htake, hcrc, hmagic, hversion, hmax, hn, hcount, hrows, UInt32.ofNat_toNat, hbody]
  simp only [ne_eq, not_true_eq_false, if_false]

end KVStash.Nvme
