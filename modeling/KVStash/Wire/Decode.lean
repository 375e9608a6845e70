/- GID: KVStash/Wire/Decode
   digest: The decoders of the bodies with every read checked against the end of the body. -/

import KVStash.Foundation.Layout
import KVStash.Wire.Body

set_option autoImplicit false

namespace KVStash.Wire

open Foundation.Bytes Nvme

/-- The padding of a count the peer chose, in 64-bit arithmetic. -/
def padTo8u64 (n : UInt64) : UInt64 := (n + 7) &&& ~~~7

structure Preamble where
  status : Status
  count : UInt32
  deriving DecidableEq, Repr

/- A decoder here returns `none` where the source would read outside the body it was handed. -/
namespace Checked

def decodePreamble (b : List UInt8) : Option (Except BodyError Preamble) := do
  if b.length < preambleSize then return .error .bodyLength
  else
    let status ← fieldAt b 0 1
    let count ← fieldAt b 4 4
    return .ok ⟨UInt8.ofNat status, UInt32.ofNat count⟩

/-- What the decoders of a response share. A status that carries no body must come as exactly the
preamble, with a count of zero, and gives `refused`; behind any other preamble the decoder goes on
with `rest`. -/
def response {α : Type} (full : Status → Bool) (refused : Preamble → α)
    (rest : Preamble → Option (Except BodyError α)) (body : List UInt8) :
    Option (Except BodyError α) := do
  match ← decodePreamble body with
  | .error e => return .error e
  | .ok p =>
    if full p.status = false then
      if body.length ≠ preambleSize ∨ p.count ≠ 0 then return .error .bodyLength
        else return .ok (refused p)
    else rest p

/-- The statuses of a batch response with a body. -/
def carriesBody (s : Status) : Bool := s = .ok ∨ s = .okExists

/-- The keys from number `i` on. A tail shorter than a key would be copied as far as it goes. -/
def keysFrom (body : List UInt8) : ℕ → ℕ → Option (List BlockKey)
  | _, 0 => some []
  | i, n + 1 => do
    let tail ← tailAt body (8 + 32 * i)
    let keys ← keysFrom body (i + 1) n
    return decodeKey tail :: keys

def decodeKeyList (body : List UInt8) (maxKeys : UInt32) :
    Option (Except BodyError (UInt32 × List BlockKey)) := do
  if body.length < 8 then return .error .bodyLength
  else
    let n := UInt32.ofNat (← fieldAt body 0 4)
    if maxKeys < n then return .error .keyCount
    else if body.length ≠ 8 + 32 * n.toNat then return .error .bodyLength
    else
      let aux ← fieldAt body 4 4
      let keys ← keysFrom body 0 n.toNat
      return .ok (UInt32.ofNat aux, keys)

end Checked

/-- An EXISTS response; the statuses are absent where the bitmap was not negotiated. -/
structure ExistsResp where
  preamble : Preamble
  nConsecutive : UInt32
  perKey : Option (List Status)
  deriving DecidableEq, Repr

/-- The region of the descriptors of a GET response, behind the words in front of it. -/
structure GetRespHeader where
  preamble : Preamble
  firstIndex : UInt32
  totalKeys : UInt32
  descs : List UInt8
  deriving DecidableEq, Repr

/-- The region as a value: the words and the descriptors. -/
structure GetResp where
  preamble : Preamble
  firstIndex : UInt32
  totalKeys : UInt32
  descs : List Desc
  deriving DecidableEq, Repr

def HelloResp.zero : HelloResp := ⟨0, 0, ⟨0, 0, 0, 0⟩, 0, 0, 0, 0, []⟩

def helloRespFixed : ℕ := preambleSize + 4 + 8 + 32 + 4

namespace Checked

def existsRest (body : List UInt8) (expectBitmap : Bool) (p : Preamble) :
    Option (Except BodyError ExistsResp) := do
  let want64 : UInt64 := if expectBitmap then 16 + padTo8u64 p.count.toUInt64 else 16
  if body.length ≠ want64.toNat then return .error .bodyLength
  else
    let nConsecutive ← fieldAt body preambleSize 4
    if expectBitmap then
      let perKey ← sliceAt body (preambleSize + 8) p.count.toNat
      return .ok ⟨p, UInt32.ofNat nConsecutive, some perKey⟩
    else return .ok ⟨p, UInt32.ofNat nConsecutive, none⟩

def decodeExistsResp (body : List UInt8) (expectBitmap : Bool) :
    Option (Except BodyError ExistsResp) :=
  response carriesBody (fun p => ⟨p, 0, none⟩) (existsRest body expectBitmap) body

def keyStatusRest (body : List UInt8) (p : Preamble) :
    Option (Except BodyError (Preamble × List Status)) := do
  let want64 : UInt64 := 8 + padTo8u64 p.count.toUInt64
  if body.length ≠ want64.toNat then return .error .bodyLength
  else
    let perKey ← sliceAt body preambleSize p.count.toNat
    return .ok (p, perKey)

def decodeKeyStatusResp (body : List UInt8) : Option (Except BodyError (Preamble × List Status)) :=
  response carriesBody (fun p => (p, [])) (keyStatusRest body) body

/-- The header region of a GET response behind its preamble; block bytes may follow the region. -/
def getRespRest (body : List UInt8) (p : Preamble) : Option (Except BodyError GetRespHeader) := do
  let want64 : UInt64 := 16 + 16 * p.count.toUInt64
  if body.length < want64.toNat then return .error .bodyLength
  else
    let firstIndex ← fieldAt body preambleSize 4
    let totalKeys ← fieldAt body (preambleSize + 4) 4
    let descs ← sliceAt body (preambleSize + 8) (want64.toNat - (preambleSize + 8))
    return .ok ⟨p, UInt32.ofNat firstIndex, UInt32.ofNat totalKeys, descs⟩

def decodeGetRespHeader (body : List UInt8) : Option (Except BodyError GetRespHeader) :=
  response carriesBody (fun p => ⟨p, 0, 0, []⟩) (getRespRest body) body

def desc (g : GetRespHeader) (i : ℕ) : Option Desc := do
  let tail ← tailAt g.descs (i * descSize)
  let row ← sliceAt tail 0 descSize
  return getDesc row

/-- The descriptors from number `i` on, as a caller that iterates under the count reads them. -/
def descsFrom (g : GetRespHeader) : ℕ → ℕ → Option (List Desc)
  | _, 0 => some []
  | i, n + 1 => do
    let d ← desc g i
    let ds ← descsFrom g (i + 1) n
    return d :: ds

/-- The header region with all of its descriptors. -/
def readGetResp (body : List UInt8) : Option (Except BodyError GetResp) := do
  match ← decodeGetRespHeader body with
  | .error e => return .error e
  | .ok g =>
    let descs ← descsFrom g 0 g.preamble.count.toNat
    return .ok ⟨g.preamble, g.firstIndex, g.totalKeys, descs⟩

def decodeHelloReq (body : List UInt8) : Option (Except BodyError HelloReq) := do
  if body.length < helloReqFixed then return .error .bodyLength
  else
    let tokenLen ← fieldAt body 28 2
    let nsLen ← fieldAt body 30 2
    let nameLen ← fieldAt body 32 2
    if body.length ≠ padTo8 (helloReqFixed + tokenLen + nsLen + nameLen)
      then return .error .bodyLength
    else
      let protoMin ← fieldAt body 0 1
      let protoMax ← fieldAt body 1 1
      let features ← fieldAt body 4 8
      let maxBatchKeys ← fieldAt body 12 4
      let maxFrameLen ← fieldAt body 16 4
      let token ← sliceAt body helloReqFixed tokenLen
      let ns ← sliceAt body (helloReqFixed + tokenLen) nsLen
      let clientName ← sliceAt body (helloReqFixed + tokenLen + nsLen) nameLen
      return .ok ⟨UInt8.ofNat protoMin, UInt8.ofNat protoMax, UInt64.ofNat features,
        UInt32.ofNat maxBatchKeys, UInt32.ofNat maxFrameLen, token, ns, clientName⟩

def helloRespRest (body : List UInt8) (p : Preamble) :
    Option (Except BodyError (Preamble × HelloResp)) := do
  if body.length < helloRespFixed then return .error .bodyLength
  else
    let nameLen ← fieldAt body (helloRespFixed - 4) 2
    if body.length ≠ padTo8 (helloRespFixed + nameLen) then return .error .bodyLength
    else
      let proto ← fieldAt body preambleSize 1
      let features ← fieldAt body (preambleSize + 4) 8
      let maxBatchKeys ← fieldAt body (preambleSize + 12) 4
      let maxFrameLen ← fieldAt body (preambleSize + 16) 4
      let maxBlobLen ← fieldAt body (preambleSize + 20) 4
      let initialCredit ← fieldAt body (preambleSize + 28) 4
      let namespaceID ← fieldAt body (preambleSize + 24) 4
      let leaseDefaultMS ← fieldAt body (preambleSize + 32) 4
      let leaseMaxMS ← fieldAt body (preambleSize + 36) 4
      let streamTimeoutMS ← fieldAt body (preambleSize + 40) 4
      let serverName ← sliceAt body helloRespFixed nameLen
      return .ok (p, {
        proto := UInt8.ofNat proto
        features := UInt64.ofNat features
        limits := ⟨UInt32.ofNat maxBatchKeys, UInt32.ofNat maxFrameLen, UInt32.ofNat maxBlobLen,
          UInt32.ofNat initialCredit⟩
        namespaceID := UInt32.ofNat namespaceID
        leaseDefaultMS := UInt32.ofNat leaseDefaultMS
        leaseMaxMS := UInt32.ofNat leaseMaxMS
        streamTimeoutMS := UInt32.ofNat streamTimeoutMS
        serverName := serverName })

def decodeHelloResp (body : List UInt8) : Option (Except BodyError (Preamble × HelloResp)) :=
  response (fun s => s = .ok) (fun p => (p, HelloResp.zero)) (helloRespRest body) body

def decodePutBegin (body : List UInt8) : Option (Except BodyError PutBeginBody) := do
  if body.length ≠ putBeginSize then return .error .bodyLength
  else
    let totalLen ← fieldAt body 0 4
    let ttlMS ← fieldAt body 4 4
    let xxh3Hint ← fieldAt body 8 8
    let flags ← fieldAt body 16 4
    return .ok ⟨UInt32.ofNat totalLen, UInt32.ofNat ttlMS, UInt64.ofNat xxh3Hint,
      UInt32.ofNat flags⟩

def decodePutCommit (body : List UInt8) : Option (Except BodyError UInt64) := do
  if body.length ≠ 8 then return .error .bodyLength
  else
    let xxh3 ← fieldAt body 0 8
    return .ok (UInt64.ofNat xxh3)

def decodeStatsReq (body : List UInt8) : Option (Except BodyError UInt32) := do
  if body.length ≠ 8 then return .error .bodyLength
  else
    let sections ← fieldAt body 0 4
    return .ok (UInt32.ofNat sections)

end Checked

def statsReq (sections : UInt32) : List UInt8 := fields [(4, sections.toNat), (4, 0)]

/-! ## Sizes in 64-bit arithmetic -/

private theorem and_not_seven (n : ℕ) (h : n < 2 ^ 64) : n &&& (2 ^ 64 - 1 - 7) = n / 8 * 8 := by
  apply Nat.eq_of_testBit_eq
  intro i
  have hmask : (2 ^ 64 - 1 - 7 : ℕ) = (2 ^ 61 - 1) * 2 ^ 3 := by norm_num
  rw [hmask, show (8 : ℕ) = 2 ^ 3 from rfl, Nat.testBit_and, Nat.testBit_mul_two_pow,
    Nat.testBit_mul_two_pow, Nat.testBit_two_pow_sub_one, Nat.testBit_div_two_pow]
  rcases Nat.lt_or_ge i 3 with hi | hi
  · simp [Nat.not_le.mpr hi]
  have hsplit : 3 + (i - 3) = i := by omega
  rw [Nat.add_comm (i - 3), hsplit]
  rcases Nat.lt_or_ge i 64 with hlt | hge
  · simp [hi, show i - 3 < 61 by omega]
  · have hzero : n.testBit i = false :=
      Nat.testBit_lt_two_pow (h.trans_le (Nat.pow_le_pow_right (by omega) hge))
    simp [hzero]

theorem padTo8u64_toNat (c : UInt32) : (padTo8u64 c.toUInt64).toNat = padTo8 c.toNat := by
  have hc : c.toNat < 2 ^ 32 := c.toNat_lt
  have hadd : (c.toUInt64 + 7).toNat = c.toNat + 7 := by
    rw [UInt64.toNat_add, UInt32.toNat_toUInt64]
    exact Nat.mod_eq_of_lt (by simp; omega)
  have hmask : (~~~7 : UInt64).toNat = 2 ^ 64 - 1 - 7 := rfl
  rw [padTo8u64, UInt64.toNat_and, hadd, hmask, and_not_seven _ (by omega), padTo8]

theorem padTo8_lt (c : UInt32) : padTo8 c.toNat ≤ 2 ^ 32 := by
  have hc : c.toNat < 2 ^ 32 := c.toNat_lt
  unfold padTo8
  omega

private theorem statusSize_toNat (fixed : UInt64) (hfixed : fixed.toNat ≤ 16) (c : UInt32) :
    (fixed + padTo8u64 c.toUInt64).toNat = fixed.toNat + padTo8 c.toNat := by
  have hpad := padTo8_lt c
  rw [UInt64.toNat_add, padTo8u64_toNat]
  exact Nat.mod_eq_of_lt (by omega)

theorem keyStatusSize_toNat (c : UInt32) : (8 + padTo8u64 c.toUInt64).toNat = 8 + padTo8 c.toNat :=
  statusSize_toNat 8 (by decide) c

theorem existsSize_toNat (expectBitmap : Bool) (c : UInt32) :
    (if expectBitmap then 16 + padTo8u64 c.toUInt64 else 16 : UInt64).toNat =
      16 + if expectBitmap then padTo8 c.toNat else 0 := by
  cases expectBitmap with
  | false => rfl
  | true => exact statusSize_toNat 16 (by decide) c

theorem descsSize_toNat (c : UInt32) :
    (16 + 16 * c.toUInt64 : UInt64).toNat = 16 + 16 * c.toNat := by
  have hc : c.toNat < 2 ^ 32 := c.toNat_lt
  rw [UInt64.toNat_add, UInt64.toNat_mul, UInt32.toNat_toUInt64]
  simp only [UInt64.reduceToNat]
  omega

/-! ## The shape of a response -/

namespace Checked

def preambleOf (b : List UInt8) : Preamble := ⟨UInt8.ofNat (leAt b 0 1), UInt32.ofNat (leAt b 4 4)⟩

theorem decodePreamble_eq (b : List UInt8) :
    decodePreamble b = some (if b.length < preambleSize then .error .bodyLength
      else .ok (preambleOf b)) := by
  unfold decodePreamble
  split_ifs with hshort
  · rfl
  · have hsize : 8 ≤ b.length := Nat.not_lt.mp hshort
    rw [fieldAt_eq (by omega), fieldAt_eq (by omega)]
    rfl

theorem preambleOf_append (s : Status) (c : UInt32) (rest : List UInt8) :
    preambleOf (preamble s c ++ rest) = ⟨s, c⟩ := by
  have hs : leAt (preamble s c ++ rest) 0 1 = s.toNat := leAt_field 0 rfl rfl s.toNat_lt rest
  have hc : leAt (preamble s c ++ rest) 4 4 = c.toNat := leAt_field 2 rfl rfl (uint32_lt c) rest
  rw [preambleOf, hs, hc, UInt8.ofNat_toNat, UInt32.ofNat_toNat]

section Response

variable {α : Type} {full : Status → Bool} {refused : Preamble → α}
  {rest : Preamble → Option (Except BodyError α)}
  {body : List UInt8}

theorem response_ne_none (h : preambleSize ≤ body.length → rest (preambleOf body) ≠ none) :
    response full refused rest body ≠ none := by
  unfold response
  rw [decodePreamble_eq]
  by_cases hshort : body.length < preambleSize
  · rw [if_pos hshort]
    exact Option.some_ne_none _
  rw [if_neg hshort]
  dsimp only [bind, Option.bind]
  split_ifs
  · exact Option.some_ne_none _
  · exact Option.some_ne_none _
  · exact h (Nat.not_lt.mp hshort)

theorem response_eq_ok {v : α} (h : response full refused rest body = some (.ok v)) :
    (full (preambleOf body).status = false ∧ body.length = preambleSize ∧
      (preambleOf body).count = 0 ∧
        v = refused (preambleOf body)) ∨
      (full (preambleOf body).status = true ∧ preambleSize ≤ body.length ∧
        rest (preambleOf body) = some (.ok v)) := by
  unfold response at h
  rw [decodePreamble_eq] at h
  by_cases hshort : body.length < preambleSize
  · rw [if_pos hshort] at h
    cases h
  rw [if_neg hshort] at h
  dsimp only [bind, Option.bind] at h
  split_ifs at h with hfull hshape
  · cases h
  · obtain ⟨hlen, hcount⟩ := not_or.mp hshape
    have hv : refused (preambleOf body) = v := Except.ok.inj (Option.some.inj h)
    exact .inl ⟨hfull, not_not.mp hlen, not_not.mp hcount, hv.symm⟩
  · exact .inr ⟨Bool.eq_true_of_not_eq_false hfull, Nat.not_lt.mp hshort, h⟩

theorem response_errorResp {s : Status} (h : full s = false) :
    response full refused rest (errorResp s) = some (.ok (refused ⟨s, 0⟩)) := by
  have hp : preambleOf (errorResp s) = ⟨s, 0⟩ := by
    have := preambleOf_append s 0 []
    rwa [List.append_nil] at this
  have hlen : (errorResp s).length = preambleSize := length_preamble s 0
  unfold response
  rw [decodePreamble_eq, if_neg (by omega), hp]
  dsimp only [bind, Option.bind]
  rw [if_pos h, if_neg (by simp [hlen])]
  rfl

theorem response_full (h : full (preambleOf body).status = true)
    (hlen : preambleSize ≤ body.length) :
    response full refused rest body = rest (preambleOf body) := by
  unfold response
  rw [decodePreamble_eq, if_neg (Nat.not_lt.mpr hlen)]
  dsimp only [bind, Option.bind]
  rw [if_neg (by simp [h])]

theorem response_preamble {s : Status} (h : full s = true) (c : UInt32) (tail : List UInt8) :
    response full refused rest (preamble s c ++ tail) = rest ⟨s, c⟩ := by
  have hlen : preambleSize ≤ (preamble s c ++ tail).length := by
    rw [List.length_append, length_preamble]
    omega
  have hp := preambleOf_append s c tail
  rw [response_full (by rw [hp]; exact h) hlen, hp]

end Response

end Checked

/-! ## Every decoder reads inside the body -/

theorem le_padTo8 (n : ℕ) : n ≤ padTo8 n := by
  unfold padTo8
  omega

theorem Checked.existsRest_eq (body : List UInt8) (expectBitmap : Bool) (p : Preamble) :
    existsRest body expectBitmap p =
      some (if body.length ≠ 16 + (if expectBitmap then padTo8 p.count.toNat else 0)
        then .error .bodyLength
        else .ok ⟨p, UInt32.ofNat (leAt body 8 4),
          if expectBitmap then some (slice body 16 p.count.toNat) else none⟩) := by
  have hpad := le_padTo8 p.count.toNat
  unfold existsRest
  dsimp only
  rw [existsSize_toNat]
  split_ifs with hbit hlen hlen
  · rfl
  · have hsize : body.length = 16 + padTo8 p.count.toNat := not_not.mp hlen
    rw [fieldAt_eq (by change 8 + 4 ≤ _; omega), sliceAt_eq (by change 16 + _ ≤ _; omega)]
    rfl
  · rfl
  · have hsize : body.length = 16 := not_not.mp hlen
    rw [fieldAt_eq (by change 8 + 4 ≤ _; omega)]
    rfl

theorem Checked.keyStatusRest_eq (body : List UInt8) (p : Preamble) :
    keyStatusRest body p =
      some (if body.length ≠ 8 + padTo8 p.count.toNat then .error .bodyLength
        else .ok (p, slice body 8 p.count.toNat)) := by
  have hpad := le_padTo8 p.count.toNat
  unfold keyStatusRest
  dsimp only
  rw [keyStatusSize_toNat]
  split_ifs with hlen
  · rfl
  · have hsize : body.length = 8 + padTo8 p.count.toNat := not_not.mp hlen
    rw [sliceAt_eq (by change 8 + _ ≤ _; omega)]
    rfl

theorem Checked.getRespRest_eq (body : List UInt8) (p : Preamble) :
    getRespRest body p =
      some (if body.length < 16 + 16 * p.count.toNat then .error .bodyLength
        else .ok ⟨p, UInt32.ofNat (leAt body 8 4), UInt32.ofNat (leAt body 12 4),
          slice body 16 (16 * p.count.toNat)⟩) := by
  have hregion : 16 + 16 * p.count.toNat - (preambleSize + 8) = 16 * p.count.toNat :=
    Nat.add_sub_cancel_left ..
  unfold getRespRest
  dsimp only
  rw [descsSize_toNat, hregion]
  split_ifs with hshort
  · rfl
  · rw [fieldAt_eq (by change 8 + 4 ≤ _; omega), fieldAt_eq (by change 12 + 4 ≤ _; omega),
      sliceAt_eq (by change 16 + _ ≤ _; omega)]
    rfl

theorem getDesc_take (b : List UInt8) : getDesc (b.take descSize) = getDesc b := by
  unfold getDesc
  rw [leAt_take (by decide), leAt_take (by decide), leAt_take (by decide)]

theorem Checked.desc_eq {g : GetRespHeader} {i : ℕ} (h : i * descSize + descSize ≤ g.descs.length) :
    desc g i = some (getDesc (g.descs.drop (i * descSize))) := by
  have hrow : 0 + descSize ≤ (g.descs.drop (i * descSize)).length := by
    rw [List.length_drop]
    omega
  unfold desc
  rw [tailAt_eq (by omega)]
  dsimp only [bind, Option.bind]
  rw [sliceAt_eq hrow]
  exact congrArg some (getDesc_take _)

theorem Checked.descsFrom_eq {g : GetRespHeader} {i n : ℕ}
    (h : (i + n) * descSize ≤ g.descs.length) :
    descsFrom g i n = some (rows getDesc descSize (g.descs.drop (i * descSize)) n) := by
  induction n generalizing i with
  | zero => rfl
  | succ n ih =>
    have hsplit : (i + (n + 1)) * descSize = i * descSize + descSize + n * descSize := by ring
    have hnext : (i + 1 + n) * descSize ≤ g.descs.length := by
      rw [show i + 1 + n = i + (n + 1) by omega]
      exact h
    rw [descsFrom, desc_eq (by omega), ih hnext, rows, List.drop_drop, Nat.succ_mul]
    rfl

theorem Checked.keysFrom_eq {body : List UInt8} {i n : ℕ} (h : 8 + 32 * (i + n) ≤ body.length) :
    keysFrom body i n = some (rows decodeKey 32 (body.drop (8 + 32 * i)) n) := by
  induction n generalizing i with
  | zero => rfl
  | succ n ih =>
    rw [keysFrom, tailAt_eq (by omega), ih (by omega), rows, List.drop_drop]
    rfl

theorem Checked.decodeKeyList_eq (body : List UInt8) (maxKeys : UInt32) :
    decodeKeyList body maxKeys = some (Wire.decodeKeyList body maxKeys) := by
  unfold decodeKeyList Wire.decodeKeyList
  split_ifs with hshort
  · rfl
  rw [fieldAt_eq (by omega)]
  dsimp only [bind, Option.bind]
  split_ifs with hmany hlen
  · rfl
  · rfl
  · rw [fieldAt_eq (by omega), keysFrom_eq (by omega)]
    rfl

theorem Checked.decodeHelloReq_eq (body : List UInt8) :
    decodeHelloReq body = some (Wire.decodeHelloReq body) := by
  unfold decodeHelloReq Wire.decodeHelloReq
  split_ifs with hshort
  · rfl
  have hfixed : 36 ≤ body.length := Nat.not_lt.mp hshort
  rw [fieldAt_eq (by omega), fieldAt_eq (by omega), fieldAt_eq (by omega)]
  dsimp only [bind, Option.bind]
  split_ifs with hlen
  · rfl
  have hend := (le_padTo8 _).trans_eq (not_not.mp hlen).symm
  rw [fieldAt_eq (by omega), fieldAt_eq (by omega), fieldAt_eq (by omega), fieldAt_eq (by omega),
    fieldAt_eq (by omega), sliceAt_eq (by omega), sliceAt_eq (by omega), sliceAt_eq hend]
  rfl

/-- What a HELLO response says behind its preamble. -/
def helloRespAt (body : List UInt8) (nameLen : ℕ) : HelloResp where
  proto := UInt8.ofNat (leAt body 8 1)
  features := UInt64.ofNat (leAt body 12 8)
  limits :=
    ⟨UInt32.ofNat (leAt body 20 4), UInt32.ofNat (leAt body 24 4), UInt32.ofNat (leAt body 28 4),
    UInt32.ofNat (leAt body 36 4)⟩
  namespaceID := UInt32.ofNat (leAt body 32 4)
  leaseDefaultMS := UInt32.ofNat (leAt body 40 4)
  leaseMaxMS := UInt32.ofNat (leAt body 44 4)
  streamTimeoutMS := UInt32.ofNat (leAt body 48 4)
  serverName := slice body helloRespFixed nameLen

theorem Checked.helloRespRest_eq (body : List UInt8) (p : Preamble) :
    helloRespRest body p =
      some (if body.length < helloRespFixed then .error .bodyLength
        else if body.length ≠ padTo8 (helloRespFixed + leAt body 52 2) then .error .bodyLength
        else .ok (p, helloRespAt body (leAt body 52 2))) := by
  have hoff : helloRespFixed - 4 = 52 := rfl
  unfold helloRespRest
  rw [hoff]
  split_ifs with hshort hlen
  · rfl
  · have hfixed : 56 ≤ body.length := Nat.not_lt.mp hshort
    rw [fieldAt_eq (by omega)]
    exact if_pos hlen
  have hfixed : 56 ≤ body.length := Nat.not_lt.mp hshort
  have hend := (le_padTo8 _).trans_eq (not_not.mp hlen).symm
  rw [fieldAt_eq (by omega)]
  dsimp only [bind, Option.bind]
  rw [if_neg hlen, fieldAt_eq (by change 8 + 1 ≤ _; omega),
    fieldAt_eq (by change 12 + 8 ≤ _; omega),
    fieldAt_eq (by change 20 + 4 ≤ _; omega), fieldAt_eq (by change 24 + 4 ≤ _; omega),
    fieldAt_eq (by change 28 + 4 ≤ _; omega), fieldAt_eq (by change 36 + 4 ≤ _; omega),
    fieldAt_eq (by change 32 + 4 ≤ _; omega), fieldAt_eq (by change 40 + 4 ≤ _; omega),
    fieldAt_eq (by change 44 + 4 ≤ _; omega), fieldAt_eq (by change 48 + 4 ≤ _; omega),
    sliceAt_eq hend]
  rfl

theorem Checked.decodePutBegin_eq (body : List UInt8) :
    decodePutBegin body = some (Wire.decodePutBegin body) := by
  unfold decodePutBegin Wire.decodePutBegin
  split_ifs with hlen
  · rfl
  · have hsize : body.length = 24 := not_not.mp hlen
    rw [fieldAt_eq (by omega), fieldAt_eq (by omega), fieldAt_eq (by omega), fieldAt_eq (by omega)]
    rfl

theorem Checked.decodePutCommit_eq (body : List UInt8) :
    decodePutCommit body = some (Wire.decodePutCommit body) := by
  unfold decodePutCommit Wire.decodePutCommit
  split_ifs with hlen
  · rfl
  · rw [fieldAt_eq (by omega)]
    rfl

theorem Checked.decodeStatsReq_eq (body : List UInt8) :
    decodeStatsReq body = some (Wire.decodeStatsReq body) := by
  unfold decodeStatsReq Wire.decodeStatsReq
  split_ifs with hlen
  · rfl
  · rw [fieldAt_eq (by omega)]
    rfl

end KVStash.Wire
