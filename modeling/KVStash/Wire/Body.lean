/- GID: KVStash/Wire/Body
   digest: The request and response bodies: encoders, strict decoders and the sizes they have. -/

import KVStash.Wire.Header

set_option autoImplicit false

namespace KVStash.Wire

open Foundation.Bytes Nvme

/-- The decoding errors of a body; each carries the status a server answers. -/
inductive BodyError where
  | bodyLength
  | keyCount
  deriving DecidableEq, Repr

def BodyError.status : BodyError → Status
  | .bodyLength => .errMalformed
  | .keyCount => .errBatchTooLarge

def padTo8 (n : ℕ) : ℕ := (n + 7) / 8 * 8

/-- The bytes of a body region, padded with zeros to a multiple of eight. -/
def pad8 (region : List UInt8) : List UInt8 :=
  region ++ List.replicate (padTo8 region.length - region.length) 0

def preamble (status : Status) (count : UInt32) : List UInt8 :=
  fields [(1, status.toNat), (3, 0), (4, count.toNat)]

/-- A refusal is exactly the preamble, with a count of zero. -/
def errorResp (status : Status) : List UInt8 := preamble status 0

def encodeKey (k : BlockKey) : List UInt8 := leBytes 32 k.toNat

def decodeKey (b : List UInt8) : BlockKey := BitVec.ofNat 256 (leAt b 0 32)

/-- The keys of the body shared by the batch verbs, with the word in front of them. -/
def decodeKeyList (body : List UInt8) (maxKeys : UInt32) :
    Except BodyError (UInt32 × List BlockKey) :=
  if body.length < 8 then .error .bodyLength
  else
    let n := UInt32.ofNat (leAt body 0 4)
    if maxKeys < n then .error .keyCount
    else if body.length ≠ 8 + 32 * n.toNat then .error .bodyLength
    else .ok (UInt32.ofNat (leAt body 4 4), rows decodeKey 32 (body.drop 8) n.toNat)

def keyList (aux : UInt32) (keys : List BlockKey) : List UInt8 :=
  fields [(4, keys.length), (4, aux.toNat)] ++ keys.flatMap encodeKey

/-- Without the bitmap feature there is no status region, and no padding. -/
def existsResp (nKeys nConsecutive : UInt32) (perKey : Option (List Status)) : List UInt8 :=
  preamble .ok nKeys ++ fields [(4, nConsecutive.toNat), (4, 0)] ++
    match perKey with
    | none => []
    | some statuses => pad8 statuses

def keyStatusResp (perKey : List Status) : List UInt8 :=
  preamble .ok (UInt32.ofNat perKey.length) ++ pad8 perKey

structure Desc where
  status : Status
  len : UInt32
  xxh3 : UInt64
  deriving DecidableEq, Repr

def Desc.fieldList (d : Desc) : List (ℕ × ℕ) :=
  [(1, d.status.toNat), (3, 0), (4, d.len.toNat), (8, d.xxh3.toNat)]

def Desc.encode (d : Desc) : List UInt8 := fields d.fieldList

def getDesc (b : List UInt8) : Desc where
  status := UInt8.ofNat (leAt b 0 1)
  len := UInt32.ofNat (leAt b 4 4)
  xxh3 := UInt64.ofNat (leAt b 8 8)

/-- The preamble with the number of descriptors, the place of the frame in the batch, and the
descriptors. -/
def getRespHeader (status : Status) (firstIndex totalKeys : UInt32) (descs : List Desc) :
    List UInt8 :=
  preamble status (UInt32.ofNat descs.length) ++
    fields [(4, firstIndex.toNat), (4, totalKeys.toNat)] ++
    descs.flatMap Desc.encode

structure HelloReq where
  protoMin : UInt8
  protoMax : UInt8
  features : UInt64
  maxBatchKeys : UInt32
  maxFrameLen : UInt32
  token : List UInt8
  ns : List UInt8
  clientName : List UInt8
  deriving DecidableEq, Repr

def helloReqFixed : ℕ := 36

def HelloReq.fieldList (r : HelloReq) : List (ℕ × ℕ) :=
  [(1, r.protoMin.toNat), (1, r.protoMax.toNat), (2, 0), (8, r.features.toNat),
    (4, r.maxBatchKeys.toNat),
    (4, r.maxFrameLen.toNat), (8, 0), (2, r.token.length), (2, r.ns.length),
    (2, r.clientName.length), (2, 0)]

def helloReq (r : HelloReq) : List UInt8 :=
  pad8 (fields r.fieldList ++ r.token ++ r.ns ++ r.clientName)

def decodeHelloReq (body : List UInt8) : Except BodyError HelloReq :=
  if body.length < helloReqFixed then .error .bodyLength
  else
    let tokenLen := leAt body 28 2
    let nsLen := leAt body 30 2
    let nameLen := leAt body 32 2
    if body.length ≠ padTo8 (helloReqFixed + tokenLen + nsLen + nameLen) then .error .bodyLength
    else .ok {
      protoMin := UInt8.ofNat (leAt body 0 1)
      protoMax := UInt8.ofNat (leAt body 1 1)
      features := UInt64.ofNat (leAt body 4 8)
      maxBatchKeys := UInt32.ofNat (leAt body 12 4)
      maxFrameLen := UInt32.ofNat (leAt body 16 4)
      token := slice body helloReqFixed tokenLen
      ns := slice body (helloReqFixed + tokenLen) nsLen
      clientName := slice body (helloReqFixed + tokenLen + nsLen) nameLen }

structure HelloResp where
  proto : UInt8
  features : UInt64
  limits : Limits
  namespaceID : UInt32
  leaseDefaultMS : UInt32
  leaseMaxMS : UInt32
  streamTimeoutMS : UInt32
  serverName : List UInt8

def helloResp (r : HelloResp) : List UInt8 :=
  pad8 (preamble .ok 0 ++ fields [(1, r.proto.toNat), (3, 0), (8, r.features.toNat),
    (4, r.limits.maxBatchKeys.toNat), (4, r.limits.maxFrameLen.toNat),
    (4, r.limits.maxBlobLen.toNat),
    (4, r.namespaceID.toNat), (4, r.limits.initialCredit.toNat), (4, r.leaseDefaultMS.toNat),
    (4, r.leaseMaxMS.toNat), (4, r.streamTimeoutMS.toNat), (2, r.serverName.length), (2, 0)] ++
    r.serverName)

def putBeginSize : ℕ := 24

structure PutBeginBody where
  totalLen : UInt32
  ttlMS : UInt32
  xxh3Hint : UInt64
  flags : UInt32
  deriving DecidableEq, Repr

def PutBeginBody.encode (b : PutBeginBody) : List UInt8 :=
  fields [(4, b.totalLen.toNat), (4, b.ttlMS.toNat), (8, b.xxh3Hint.toNat),
    (4, b.flags.toNat), (4, 0)]

def decodePutBegin (body : List UInt8) : Except BodyError PutBeginBody :=
  if body.length ≠ putBeginSize then .error .bodyLength
  else .ok {
    totalLen := UInt32.ofNat (leAt body 0 4)
    ttlMS := UInt32.ofNat (leAt body 4 4)
    xxh3Hint := UInt64.ofNat (leAt body 8 8)
    flags := UInt32.ofNat (leAt body 16 4) }

def putCommit (xxh3 : UInt64) : List UInt8 := leBytes 8 xxh3.toNat

def decodePutCommit (body : List UInt8) : Except BodyError UInt64 :=
  if body.length ≠ 8 then .error .bodyLength else .ok (UInt64.ofNat (leAt body 0 8))

def decodeStatsReq (body : List UInt8) : Except BodyError UInt32 :=
  if body.length ≠ 8 then .error .bodyLength else .ok (UInt32.ofNat (leAt body 0 4))

def featExistsBitmap : UInt64 := 2
def serverFeatures : UInt64 := 3
def knownFeatures : UInt64 := 31

def intersectFeatures (client server : UInt64) : UInt64 := client &&& server &&& knownFeatures

/-! ## Sizes and round trips -/

@[simp] theorem length_preamble (status : Status) (count : UInt32) :
    (preamble status count).length = preambleSize := length_fields _

@[simp] theorem Desc.length_encode (d : Desc) : d.encode.length = descSize := length_fields _

theorem getDesc_encode (d : Desc) (rest : List UInt8) : getDesc (d.encode ++ rest) = d := by
  have hst : leAt (d.encode ++ rest) 0 1 = d.status.toNat :=
    leAt_field 0 rfl rfl d.status.toNat_lt rest
  have hlen : leAt (d.encode ++ rest) 4 4 = d.len.toNat := leAt_field 2 rfl rfl (uint32_lt _) rest
  have hsum : leAt (d.encode ++ rest) 8 8 = d.xxh3.toNat := leAt_field 3 rfl rfl (uint64_lt _) rest
  unfold getDesc
  rw [hst, hlen, hsum, UInt8.ofNat_toNat, UInt32.ofNat_toNat, UInt64.ofNat_toNat]

/-- The fixed part of a GET response: the preamble and the place of the frame in its batch. -/
def getRespWords (status : Status) (count firstIndex totalKeys : UInt32) : List (ℕ × ℕ) :=
  [(1, status.toNat), (3, 0), (4, count.toNat), (4, firstIndex.toNat), (4, totalKeys.toNat)]

theorem length_getRespWords (status : Status) (count firstIndex totalKeys : UInt32) :
    (fields (getRespWords status count firstIndex totalKeys)).length = preambleSize + 8 :=
  length_fields _

theorem getRespHeader_eq (status : Status) (firstIndex totalKeys : UInt32) (descs : List Desc) :
    getRespHeader status firstIndex totalKeys descs =
      fields (getRespWords status (UInt32.ofNat descs.length) firstIndex totalKeys) ++
        descs.flatMap Desc.encode := by
  rw [getRespHeader, preamble, ← fields_append]
  rfl

@[simp] theorem length_getRespHeader (status : Status) (firstIndex totalKeys : UInt32)
    (descs : List Desc) :
    (getRespHeader status firstIndex totalKeys descs).length = getRespHeaderSize descs.length := by
  rw [getRespHeader_eq, List.length_append, length_fields,
    length_flatMap_rows Desc.length_encode, Nat.mul_comm]
  rfl

theorem rows_getDesc (descs : List Desc) (rest : List UInt8) :
    rows getDesc descSize (descs.flatMap Desc.encode ++ rest) descs.length = descs :=
  rows_flatMap Desc.length_encode getDesc_encode descs rest

@[simp] theorem length_encodeKey (k : BlockKey) : (encodeKey k).length = 32 := length_leBytes _ _

theorem decodeKey_encodeKey (k : BlockKey) (rest : List UInt8) :
    decodeKey (encodeKey k ++ rest) = k := by
  have hread : leAt (encodeKey k ++ rest) 0 32 = k.toNat := leAt_append (a := []) rfl (key_lt k)
  rw [decodeKey, hread, BitVec.ofNat_toNat, BitVec.setWidth_eq]

theorem length_keyList (aux : UInt32) (keys : List BlockKey) :
    (keyList aux keys).length = 8 + 32 * keys.length := by
  rw [keyList, List.length_append, length_fields,
    length_flatMap_rows length_encodeKey, Nat.mul_comm]
  rfl

theorem decodeKeyList_keyList (aux : UInt32) {keys : List BlockKey} {maxKeys : UInt32}
    (h : keys.length ≤ maxKeys.toNat) :
    decodeKeyList (keyList aux keys) maxKeys = .ok (aux, keys) := by
  have hlt : keys.length < 256 ^ 4 := lt_of_le_of_lt h (uint32_lt maxKeys)
  have hcount : leAt (keyList aux keys) 0 4 = keys.length := leAt_field 0 rfl rfl hlt _
  have haux : leAt (keyList aux keys) 4 4 = aux.toNat := leAt_field 1 rfl rfl (uint32_lt _) _
  have hn : (UInt32.ofNat keys.length).toNat = keys.length := UInt32.toNat_ofNat_of_lt' hlt
  have hcap : ¬maxKeys < UInt32.ofNat keys.length := by
    rw [UInt32.lt_iff_toNat_lt, hn]
    exact Nat.not_lt.mpr h
  have hdrop : (keyList aux keys).drop 8 = keys.flatMap encodeKey :=
    List.drop_left' (length_fields _)
  have hrows : rows decodeKey 32 (keys.flatMap encodeKey) keys.length = keys := by
    have := rows_flatMap length_encodeKey decodeKey_encodeKey keys []
    rwa [List.append_nil] at this
  unfold decodeKeyList
  dsimp only
  rw [if_neg (by rw [length_keyList]; omega), hcount, if_neg hcap, hn,
    if_neg (not_not.mpr (length_keyList aux keys)), haux, hdrop, hrows, UInt32.ofNat_toNat]

end KVStash.Wire
