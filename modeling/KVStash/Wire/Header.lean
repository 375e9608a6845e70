/- GID: KVStash/Wire/Header
   digest: The 64-byte frame header, its checksum and cap checks, opcodes, flags and statuses, and
     the negotiated limits. -/

import KVStash.Nvme.Format

set_option autoImplicit false

namespace KVStash.Wire

open Foundation.Bytes Nvme

def headerSize : ℕ := 64
def version1 : ℕ := 1

/-- The letters `KVB1`. -/
def magicLE : ℕ := 0x3142564B

/-- The length of the part of the header that the checksum covers. -/
def crcOffset : ℕ := 60

abbrev Opcode := UInt8

def opNop : Opcode := 0x00
def opHello : Opcode := 0x01
def opBatchExists : Opcode := 0x02
def opBatchGet : Opcode := 0x03
def opPutStream : Opcode := 0x04
def opTouchLease : Opcode := 0x05
def opPin : Opcode := 0x06
def opDelete : Opcode := 0x07
def opStats : Opcode := 0x08

def flagResp : UInt16 := 0x0001
def flagMore : UInt16 := 0x0002
def flagFatal : UInt16 := 0x0004
def flagForce : UInt16 := 0x0008

/-- The sub-operation in bits 4 to 7 of the flags. -/
def subOp (flags : UInt16) : UInt8 := (flags >>> 4 &&& 0xF).toUInt8

def putBeginOp : UInt8 := 0
def putChunkOp : UInt8 := 1
def putCommitOp : UInt8 := 2
def putAbortOp : UInt8 := 3
def touchRecencyOp : UInt8 := 0
def unpinOp : UInt8 := 2

abbrev Status := UInt8

namespace Status

def ok : Status := 0x00
def okExists : Status := 0x01
def notFound : Status := 0x10
def errAuthRequired : Status := 0x20
def errAuthFailed : Status := 0x21
def errQuotaBytes : Status := 0x30
def errTooLarge : Status := 0x32
def errBatchTooLarge : Status := 0x33
def errBusy : Status := 0x34
def errChecksum : Status := 0x40
def errShortStream : Status := 0x41
def errStaleStream : Status := 0x42
def errImmutableConflict : Status := 0x43
def errUnsupported : Status := 0x50
def errMalformed : Status := 0x51
def fatalProtocol : Status := 0xF0

def names : List (Status × String) :=
  [(0x00, "OK"), (0x01, "OK_EXISTS"), (0x10, "NOT_FOUND"), (0x11, "EVICTED"),
    (0x20, "ERR_AUTH_REQUIRED"),
    (0x21, "ERR_AUTH_FAILED"), (0x22, "ERR_NAMESPACE_UNKNOWN"), (0x23, "ERR_FORBIDDEN"),
    (0x30, "ERR_QUOTA_BYTES"),
    (0x31, "ERR_PIN_QUOTA"), (0x32, "ERR_TOO_LARGE"), (0x33, "ERR_BATCH_TOO_LARGE"),
    (0x34, "ERR_BUSY"),
    (0x40, "ERR_CHECKSUM"), (0x41, "ERR_SHORT_STREAM"), (0x42, "ERR_STALE_STREAM"),
    (0x43, "ERR_IMMUTABLE_CONFLICT"),
    (0x44, "ERR_LEASED"), (0x45, "ERR_PINNED"), (0x50, "ERR_UNSUPPORTED"), (0x51, "ERR_MALFORMED"),
    (0x60, "ERR_INTERNAL"), (0xF0, "FATAL_PROTOCOL")]

def string (s : Status) : String := (names.lookup s).getD "UNKNOWN_STATUS"

end Status

/-- A decoded header. Magic, version and checksum are constants of the encoding and are not kept. -/
structure Header where
  opcode : Opcode
  flags : UInt16
  namespaceID : UInt32
  credit : UInt32
  requestID : UInt64
  key : BlockKey
  payloadLen : UInt32
  deriving DecidableEq, Repr, Inhabited

/-- The fields of the checksummed part, in the order of their offsets. -/
def Header.fieldList (h : Header) : List (ℕ × ℕ) :=
  [(4, magicLE), (1, version1), (1, h.opcode.toNat), (2, h.flags.toNat), (4, h.namespaceID.toNat),
    (4, h.credit.toNat), (8, h.requestID.toNat), (32, h.key.toNat), (4, h.payloadLen.toNat)]

def headerCRC (dg : Digests) (b : List UInt8) : UInt32 := dg.crcUpdate 0 (b.take crcOffset)

def Header.marshal (dg : Digests) (h : Header) : List UInt8 :=
  fields h.fieldList ++ leBytes 4 (headerCRC dg (fields h.fieldList)).toNat

/-- The errors after which the connection is closed without resynchronising. -/
inductive FrameError where
  | shortHeader
  | badMagic
  | badVersion
  | badCRC
  deriving DecidableEq, Repr

/-- The outcome of parsing: a fatal error, or an authenticated header that is over the cap or
not. -/
inductive Parsed where
  | fatal (e : FrameError)
  | tooLarge (h : Header)
  | ok (h : Header)
  deriving DecidableEq, Repr

def Header.decode (b : List UInt8) : Header where
  opcode := UInt8.ofNat (leAt b 5 1)
  flags := UInt16.ofNat (leAt b 6 2)
  namespaceID := UInt32.ofNat (leAt b 8 4)
  credit := UInt32.ofNat (leAt b 12 4)
  requestID := UInt64.ofNat (leAt b 16 8)
  key := BitVec.ofNat 256 (leAt b 24 32)
  payloadLen := UInt32.ofNat (leAt b 56 4)

def parseHeader (dg : Digests) (b : List UInt8) (maxPayloadLen : UInt32) : Parsed :=
  if b.length < headerSize then .fatal .shortHeader
  else if leAt b 0 4 ≠ magicLE then .fatal .badMagic
  else if leAt b 4 1 ≠ version1 then .fatal .badVersion
  else if UInt32.ofNat (leAt b crcOffset 4) ≠ headerCRC dg b then .fatal .badCRC
  else if maxPayloadLen < (Header.decode b).payloadLen then .tooLarge (Header.decode b)
  else .ok (Header.decode b)

/-! ## Round trip -/

@[simp] theorem Header.length_fields (h : Header) : (fields h.fieldList).length = crcOffset :=
  Foundation.Bytes.length_fields _

@[simp] theorem Header.length_marshal (dg : Digests) (h : Header) :
    (h.marshal dg).length = headerSize := by
  rw [marshal, List.length_append, Header.length_fields, length_leBytes]
  rfl

theorem Header.decode_marshal (dg : Digests) (h : Header) : Header.decode (h.marshal dg) = h := by
  have hop : leAt (h.marshal dg) 5 1 = h.opcode.toNat := leAt_field 2 rfl rfl h.opcode.toNat_lt _
  have hfl : leAt (h.marshal dg) 6 2 = h.flags.toNat := leAt_field 3 rfl rfl h.flags.toNat_lt _
  have hns : leAt (h.marshal dg) 8 4 = h.namespaceID.toNat := leAt_field 4 rfl rfl (uint32_lt _) _
  have hcr : leAt (h.marshal dg) 12 4 = h.credit.toNat := leAt_field 5 rfl rfl (uint32_lt _) _
  have hid : leAt (h.marshal dg) 16 8 = h.requestID.toNat := leAt_field 6 rfl rfl (uint64_lt _) _
  have hkey : leAt (h.marshal dg) 24 32 = h.key.toNat := leAt_field 7 rfl rfl (key_lt _) _
  have hlen : leAt (h.marshal dg) 56 4 = h.payloadLen.toNat := leAt_field 8 rfl rfl (uint32_lt _) _
  unfold Header.decode
  rw [hop, hfl, hns, hcr, hid, hkey, hlen]
  simp only [UInt8.ofNat_toNat, UInt16.ofNat_toNat, UInt32.ofNat_toNat, UInt64.ofNat_toNat,
    BitVec.ofNat_toNat, BitVec.setWidth_eq]

theorem Header.crc_marshal (dg : Digests) (h : Header) :
    UInt32.ofNat (leAt (h.marshal dg) crcOffset 4) = headerCRC dg (h.marshal dg) := by
  have htake : (h.marshal dg).take crcOffset = fields h.fieldList := List.take_left' h.length_fields
  have hself : (fields h.fieldList).take crcOffset = fields h.fieldList :=
    List.take_of_length_le h.length_fields.le
  have hread :=
    leAt_append (c := []) h.length_fields (uint32_lt (headerCRC dg (fields h.fieldList)))
  rw [List.append_nil] at hread
  have hcrc : headerCRC dg (h.marshal dg) = headerCRC dg (fields h.fieldList) := by
    rw [headerCRC, headerCRC, htake, hself]
  rw [hcrc, ← UInt32.ofNat_toNat (x := headerCRC dg (fields h.fieldList))]
  exact congrArg UInt32.ofNat hread

theorem parseHeader_marshal (dg : Digests) (h : Header) (cap : UInt32) :
    parseHeader dg (h.marshal dg) cap = if cap < h.payloadLen then .tooLarge h else .ok h := by
  have hmagic : leAt (h.marshal dg) 0 4 = magicLE := leAt_field 0 rfl rfl (by norm_num [magicLE]) _
  have hver : leAt (h.marshal dg) 4 1 = version1 := leAt_field 1 rfl rfl (by norm_num [version1]) _
  unfold parseHeader
  rw [if_neg (by rw [Header.length_marshal]; exact lt_irrefl _), if_neg (not_not.mpr hmagic),
    if_neg (not_not.mpr hver), if_neg (not_not.mpr (h.crc_marshal dg)), h.decode_marshal dg]

theorem parseHeader_marshal_ok (dg : Digests) {h : Header} {cap : UInt32}
    (hcap : h.payloadLen ≤ cap) : parseHeader dg (h.marshal dg) cap = .ok h := by
  rw [parseHeader_marshal, if_neg (UInt32.not_lt.mpr hcap)]

theorem payloadLen_le_of_parseHeader {dg : Digests} {b : List UInt8} {cap : UInt32} {h : Header}
    (hp : parseHeader dg b cap = .ok h) : h.payloadLen ≤ cap := by
  unfold parseHeader at hp
  split_ifs at hp with h1 h2 h3 h4 h5
  exact Parsed.ok.inj hp ▸ UInt32.not_lt.mp h5

def defaultMaxBatchKeys : UInt32 := 512
def floorMaxBatchKeys : UInt32 := 128
def capMaxBatchKeys : UInt32 := 65536
def defaultMaxFrameLen : UInt32 := 268435456
def floorMaxFrameLen : UInt32 := 16777216
def capMaxFrameLen : UInt32 := 1073741824
def defaultMaxBlobLen : UInt32 := 33554432
def floorMaxBlobLen : UInt32 := 4194304
def defaultInitialCredit : UInt32 := 134217728
def floorInitialCredit : UInt32 := 16777216
def capInitialCredit : UInt32 := 1073741824
def defaultLeaseMS : UInt32 := 5000
def maxLeaseMS : UInt32 := 60000
def defaultStreamTimeoutMS : UInt32 := 30000

def preambleSize : ℕ := 8
def descSize : ℕ := 16

def getRespHeaderSize (nDesc : ℕ) : ℕ := preambleSize + 8 + descSize * nDesc

structure Limits where
  maxBatchKeys : UInt32
  maxFrameLen : UInt32
  maxBlobLen : UInt32
  initialCredit : UInt32
  deriving DecidableEq, Repr

/-- The floors and ceilings that an accepted configuration keeps. -/
structure Limits.Validated (l : Limits) : Prop where
  floorKeys : floorMaxBatchKeys ≤ l.maxBatchKeys
  capKeys : l.maxBatchKeys ≤ capMaxBatchKeys
  floorFrame : floorMaxFrameLen ≤ l.maxFrameLen
  capFrame : l.maxFrameLen ≤ capMaxFrameLen
  floorBlob : floorMaxBlobLen ≤ l.maxBlobLen
  floorCredit : floorInitialCredit ≤ l.initialCredit
  capCredit : l.initialCredit ≤ capInitialCredit
  blob_le : l.maxBlobLen ≤ l.maxFrameLen

/-- A proposal of zero has no opinion; any other is honoured down to the floor. -/
def negotiateOne (server floor proposal : UInt32) : UInt32 :=
  if proposal = 0 then server
  else
    let proposal := if proposal < floor then floor else proposal
    if proposal < server then proposal else server

def negotiateLimits (server : Limits) (clientBatchKeys clientFrameLen : UInt32) : Limits :=
  let keys := negotiateOne server.maxBatchKeys floorMaxBatchKeys clientBatchKeys
  let frame := negotiateOne server.maxFrameLen floorMaxFrameLen clientFrameLen
  -- the subtraction is the machine's: a frame below the headroom would wrap
  let room := frame - UInt32.ofNat (getRespHeaderSize 1)
  { server with
    maxBatchKeys := keys
    maxFrameLen := frame
    maxBlobLen := if room < server.maxBlobLen then room else server.maxBlobLen }

theorem negotiateOne_le (server floor proposal : UInt32) :
    negotiateOne server floor proposal ≤ server := by
  unfold negotiateOne
  dsimp only
  split_ifs with h1 h2 h3 h4
  · exact UInt32.le_refl _
  · exact UInt32.le_of_lt h3
  · exact UInt32.le_refl _
  · exact UInt32.le_of_lt h4
  · exact UInt32.le_refl _

theorem floor_le_negotiateOne {server floor : UInt32} (h : floor ≤ server) (proposal : UInt32) :
    floor ≤ negotiateOne server floor proposal := by
  unfold negotiateOne
  dsimp only
  split_ifs with h1 h2 h3 h4
  · exact h
  · exact UInt32.le_refl _
  · exact h
  · exact UInt32.not_lt.mp h2
  · exact h

theorem negotiateOne_le_iff {server floor proposal bound : UInt32} (hf : floor ≤ bound) :
    negotiateOne server floor proposal ≤ bound ↔
      server ≤ bound ∨ (proposal ≠ 0 ∧ proposal ≤ bound) := by
  unfold negotiateOne
  by_cases h0 : proposal = 0
  · simp [h0]
  · rw [if_neg h0]
    simp only [UInt32.le_iff_toNat_le, UInt32.lt_iff_toNat_lt, ne_eq, h0, not_false_eq_true,
      true_and] at hf ⊢
    split_ifs <;> omega

section Negotiated

variable {server : Limits}

theorem negotiated_blob_le (keys frame : UInt32) :
    (negotiateLimits server keys frame).maxBlobLen ≤ server.maxBlobLen := by
  simp only [negotiateLimits]
  split_ifs with h
  · exact UInt32.le_of_lt h
  · exact UInt32.le_refl _

theorem negotiated_blob_fits (hfloor : floorMaxFrameLen ≤ server.maxFrameLen)
    (keys frame : UInt32) :
    getRespHeaderSize 1 + (negotiateLimits server keys frame).maxBlobLen.toNat ≤
      (negotiateLimits server keys frame).maxFrameLen.toNat := by
  have hf := floor_le_negotiateOne hfloor frame
  have hroom : UInt32.ofNat (getRespHeaderSize 1) ≤
      negotiateOne server.maxFrameLen floorMaxFrameLen frame :=
    UInt32.le_trans (by decide) hf
  have hsub := UInt32.toNat_sub_of_le _ _ hroom
  have hsize : (UInt32.ofNat (getRespHeaderSize 1)).toNat = getRespHeaderSize 1 := by decide
  have hle := UInt32.le_iff_toNat_le.mp hroom
  simp only [negotiateLimits]
  split_ifs with h
  · omega
  · have := UInt32.le_iff_toNat_le.mp (UInt32.not_lt.mp h)
    omega

end Negotiated

end KVStash.Wire
