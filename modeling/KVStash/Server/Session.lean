/- GID: KVStash/Server/Session
   digest: The server side of a connection: the store it serves, its PUT streams, and every verb's
     handler. -/

import KVStash.Wire.Body
import KVStash.Config
import KVStash.Foundation.Table

set_option autoImplicit false

namespace KVStash.Serving

open Foundation Nvme Wire

variable {σ : Type}

/-! ## The store behind the server -/

/-- What one lookup of a key brings back. -/
structure Fetched where
  data : List UInt8
  sum : UInt64
  hit : Bool
  busy : Bool

/-- The lookups a store may offer: with a tier and a status, with a reference, or plain. -/
inductive Getter (σ : Type) where
  | tier (getRefTier : UInt32 → BlockKey → σ → (List UInt8 × UInt64 × Status) × σ)
  | refs (getRef : UInt32 → BlockKey → σ → (List UInt8 × UInt64 × Bool) × σ)
  | plain (get : UInt32 → BlockKey → σ → (List UInt8 × UInt64 × Bool) × σ)

def Getter.fetch (g : Getter σ) (ns : UInt32) (key : BlockKey) (st : σ) : Fetched × σ :=
  match g with
  | .tier getRefTier =>
    let ((data, sum, status), st') := getRefTier ns key st
    (⟨data, sum, status = .ok, status = .errBusy⟩, st')
  | .refs getRef =>
    let ((data, sum, hit), st') := getRef ns key st
    (⟨data, sum, hit, false⟩, st')
  | .plain get =>
    let ((data, sum, hit), st') := get ns key st
    (⟨data, sum, hit, false⟩, st')

/-- The lease and pin calls of a store that has them. -/
structure Lifecycle (σ : Type) where
  touchLease : UInt32 → BlockKey → UInt8 → UInt32 → σ → Status × σ
  pinOp : UInt32 → BlockKey → UInt8 → σ → Status × σ

/-- A store as the server calls it. Its state is that of the rest of the world: every call may
answer by it and change it. -/
structure Store (σ : Type) where
  existsPrefix : UInt32 → List BlockKey → Bool → σ → (UInt32 × Option (List Status)) × σ
  getter : Getter σ
  put : UInt32 → BlockKey → List UInt8 → UInt64 → σ → Status × σ
  contains : UInt32 → BlockKey → σ → Bool × σ
  delete : UInt32 → BlockKey → Bool → σ → Status × σ
  /-- The statistics document, scoped to the namespace that asks. -/
  stats : UInt32 → σ → List UInt8 × σ
  lifecycle : Option (Lifecycle σ)
  /-- The capacity probe at BEGIN. -/
  canStore : Option (UInt32 → UInt32 → σ → Bool × σ)

structure Server (σ : Type) where
  cfg : Config
  store : Store σ
  /-- The one-shot hash. -/
  xxh3 : List UInt8 → UInt64
  /-- The streaming hash of what was written to it, write by write. -/
  sum64 : List (List UInt8) → UInt64
  authenticate : List UInt8 → List UInt8 → Option UInt32

/-! ## The state of a connection -/

/-- A PUT in flight. The staging buffer has a length and a capacity; the hasher exists for
multi-chunk streams. -/
structure PutStream where
  ns : UInt32
  key : BlockKey
  totalLen : UInt32
  ttlMS : UInt32
  xxh3Hint : UInt64
  buf : List UInt8
  bufCap : ℕ
  allocated : Bool
  digest : Option (List (List UInt8))
  oneShot : UInt64
  received : UInt32
  tombstoned : Bool
  lastActive : ℤ
  tombstonedAt : ℤ
  deriving DecidableEq, Repr

structure Session where
  authed : Bool
  ns : UInt32
  limits : Limits
  feats : UInt64
  streams : Table UInt64 PutStream
  liveStreams : ℤ
  stagedBytes : ℤ

def newSession (srv : Server σ) : Session where
  authed := false
  ns := 0
  limits := srv.cfg.wireLimits
  feats := 0
  streams := ∅
  liveStreams := 0
  stagedBytes := 0

structure State (σ : Type) where
  sess : Session
  store : σ

/-- What a handler does beyond the state it keeps, in the order it does it. -/
inductive Effect where
  /-- Payload bytes returned to the client's window. -/
  | grant (n : UInt32)
  /-- A response frame queued for the writer. -/
  | write (h : Header) (bufs : List (List UInt8))
  /-- A block handed to the store, with the store's answer. -/
  | put (ns : UInt32) (key : BlockKey) (data : List UInt8) (sum : UInt64) (answer : Status)
  /-- The negotiated limits installed on the transport. -/
  | setLimits (l : Limits)
  /-- The fatal report, and the end of the connection. -/
  | abort (status : Status)
  | close
  deriving DecidableEq

abbrev Outcome (σ : Type) := State σ × List Effect

/-- The payload length of a queued frame is what its buffers add up to. -/
def writeFrames (h : Header) (bufs : List (List UInt8)) : Effect :=
  .write { h with payloadLen := UInt32.ofNat (bufs.map List.length).sum } bufs

/-- The body is returned and its bytes are granted. -/
def consume (h : Header) : Effect := .grant h.payloadLen

/-- The namespace echoed in a response: the authenticated one, once there is one. -/
def respNS (s : Session) (h : Header) : UInt32 := if s.authed then s.ns else h.namespaceID

def writeRespFlags (s : Session) (h : Header) (flags : UInt16) (bufs : List (List UInt8)) :
    Effect :=
  writeFrames ⟨h.opcode, flags, respNS s h, 0, h.requestID, 0, 0⟩ bufs

def writeResp (s : Session) (h : Header) (body : List UInt8) : Effect :=
  writeRespFlags s h flagResp [body]

def respondStatus (s : Session) (h : Header) (status : Status) : Effect :=
  writeResp s h (preamble status 0)

/-! ## HELLO -/

def fatalHello (h : Header) (status : Status) : List Effect :=
  [writeFrames ⟨opHello, flagResp ||| flagFatal, h.namespaceID, 0, h.requestID, 0,
    0⟩ [preamble status 0], .close]

def serverName : List UInt8 := [0x6b, 0x76, 0x62, 0x6c, 0x6f, 0x63, 0x6b, 0x64]

def handleHello (srv : Server σ) (h : Header) (body : List UInt8) (st : State σ) : Outcome σ :=
  match decodeHelloReq body with
  | .error _ => (st, consume h :: fatalHello h .errMalformed)
  | .ok req =>
    if version1 < req.protoMin.toNat ∨ req.protoMax.toNat < version1 then
      (st, consume h :: fatalHello h .errUnsupported)
    else match srv.authenticate req.ns req.token with
      | none => (st, consume h :: fatalHello h .errAuthFailed)
      | some id =>
        let feats := intersectFeatures req.features serverFeatures
        let limits := negotiateLimits srv.cfg.wireLimits req.maxBatchKeys req.maxFrameLen
        let sess := { st.sess with ns := id, feats := feats, limits := limits, authed := true }
        let resp : HelloResp := {
          proto := UInt8.ofNat version1, features := feats, limits := limits, namespaceID := id,
          leaseDefaultMS := srv.cfg.leaseDefaultMS, leaseMaxMS := srv.cfg.leaseMaxMS,
          streamTimeoutMS := srv.cfg.streamTimeoutMS, serverName := serverName }
        ({ st with sess := sess },
          [consume h, .setLimits limits, writeResp sess h (helloResp resp)])

/-! ## The batch verbs -/

/-- The keys of a batch, or the status its body is refused with. -/
def decodeKeys (s : Session) (body : List UInt8) : Except Status (UInt32 × List BlockKey) :=
  match decodeKeyList body s.limits.maxBatchKeys with
  | .error e => .error e.status
  | .ok r => .ok r

def handleBatchExists (srv : Server σ) (h : Header) (body : List UInt8) (st : State σ) :
    Outcome σ :=
  match decodeKeys st.sess body with
  | .error status => (st, [consume h, respondStatus st.sess h status])
  | .ok (_, keys) =>
    let withBitmap := st.sess.feats &&& featExistsBitmap != 0
    let ((nConsec, perKey), store) := srv.store.existsPrefix st.sess.ns keys withBitmap st.store
    ({ st with store := store },
      [consume h, writeResp st.sess h (existsResp (UInt32.ofNat keys.length) nConsec perKey)])

def Fetched.desc (f : Fetched) : Desc :=
  if f.hit then ⟨.ok, UInt32.ofNat f.data.length, f.sum⟩
  else if f.busy then ⟨.errBusy, 0, 0⟩
  else ⟨.notFound, 0, 0⟩

def Fetched.blen (f : Fetched) : ℕ := if f.hit then f.data.length else 0

/-- A frame while it is filled: its descriptors, the block buffers behind them and their bytes. -/
structure Packing where
  descs : List Desc
  bufs : List (List UInt8)
  payloadBytes : ℕ

/-- A key packed; a block of length zero is a descriptor only. -/
def Packing.add (p : Packing) (f : Fetched) : Packing where
  descs := p.descs ++ [f.desc]
  bufs := if f.hit ∧ 0 < f.blen then p.bufs ++ [f.data] else p.bufs
  payloadBytes := p.payloadBytes + f.blen

/-- The inner loop: keys are fetched and packed until one would overflow the frame. That key is
fetched again for the next frame; a frame holds at least one. -/
def packFrame (fetch : BlockKey → σ → Fetched × σ) (maxFrame : ℕ) :
    List BlockKey → σ → Packing → Packing × List BlockKey × σ
  | [], st, p => (p, [], st)
  | k :: ks, st, p =>
    let (f, st') := fetch k st
    let projected := getRespHeaderSize (p.descs.length + 1) + p.payloadBytes + f.blen
    if 0 < p.descs.length ∧ maxFrame < projected then (p, k :: ks, st')
    else packFrame fetch maxFrame ks st' (p.add f)

theorem packFrame_length (fetch : BlockKey → σ → Fetched × σ) (maxFrame : ℕ)
    (keys : List BlockKey) (st : σ) (p : Packing) :
    (packFrame fetch maxFrame keys st p).2.1.length ≤ keys.length := by
  induction keys generalizing st p with
  | nil => exact le_refl _
  | cons k ks ih =>
    rw [packFrame]
    dsimp only
    split_ifs
    · exact le_refl _
    · exact (ih _ _).trans (Nat.le_succ _)

theorem packFrame_progress (fetch : BlockKey → σ → Fetched × σ) (maxFrame : ℕ) (k : BlockKey)
    (ks : List BlockKey) (st : σ) :
    (packFrame fetch maxFrame (k :: ks) st ⟨[], [], 0⟩).2.1.length < (k :: ks).length := by
  rw [packFrame]
  dsimp only
  rw [if_neg (by simp)]
  exact Nat.lt_succ_of_le (packFrame_length _ _ _ _ _)

/-- The outer loop, from the key with index `total - keys.length` on: one frame after the other, all
but the last flagged. -/
def getFrames (fetch : BlockKey → σ → Fetched × σ) (maxFrame total : ℕ)
    (write : UInt16 → List (List UInt8) → Effect) :
    List BlockKey → σ → List Effect × σ
  | [], st => ([], st)
  | k :: ks, st =>
    let r := packFrame fetch maxFrame (k :: ks) st ⟨[], [], 0⟩
    let region :=
      getRespHeader .ok (UInt32.ofNat (total - (k :: ks).length)) (UInt32.ofNat total) r.1.descs
    let flags := if r.2.1 = [] then flagResp else flagResp ||| flagMore
    let next := getFrames fetch maxFrame total write r.2.1 r.2.2
    (write flags (region :: r.1.bufs) :: next.1, next.2)
termination_by keys => keys.length
decreasing_by exact packFrame_progress fetch maxFrame k ks st

def handleBatchGet (srv : Server σ) (h : Header) (body : List UInt8) (st : State σ) : Outcome σ :=
  match decodeKeys st.sess body with
  | .error status => (st, [consume h, respondStatus st.sess h status])
  | .ok (_, keys) =>
    if keys = [] then
      -- an empty batch still gets its response
      (st, [consume h, writeRespFlags st.sess h flagResp [getRespHeader .ok 0 0 []]])
    else
      let (frames, store) :=
        getFrames (srv.store.getter.fetch st.sess.ns) st.sess.limits.maxFrameLen.toNat
        keys.length (writeRespFlags st.sess h) keys st.store
      ({ st with store := store }, consume h :: frames)

/-- A call per key, one after the other. -/
def perKey (call : BlockKey → σ → Status × σ) : List BlockKey → σ → List Status × σ
  | [], st => ([], st)
  | k :: ks, st =>
    let (status, st') := call k st
    let (rest, st'') := perKey call ks st'
    (status :: rest, st'')

/-- TOUCH_LEASE and PIN; without the lifecycle calls, presence is acknowledged. -/
def handleKeyStatusVerb (srv : Server σ) (h : Header) (body : List UInt8) (st : State σ) :
    Outcome σ :=
  if unpinOp < subOp h.flags then (st, [consume h, respondStatus st.sess h .errUnsupported])
  else match decodeKeys st.sess body with
    | .error status => (st, [consume h, respondStatus st.sess h status])
    | .ok (ttlMS, keys) =>
      let call : BlockKey → σ → Status × σ := match srv.store.lifecycle with
        | none => fun k s => let (present, s') := srv.store.contains st.sess.ns k s
          (if present then .ok else .notFound, s')
        | some lc => if h.opcode = opTouchLease then fun k =>
          lc.touchLease st.sess.ns k (subOp h.flags) ttlMS
          else fun k => lc.pinOp st.sess.ns k (subOp h.flags)
      let (statuses, store) := perKey call keys st.store
      ({ st with store := store }, [consume h, writeResp st.sess h (keyStatusResp statuses)])

def handleDelete (srv : Server σ) (h : Header) (body : List UInt8) (st : State σ) : Outcome σ :=
  match decodeKeys st.sess body with
  | .error status => (st, [consume h, respondStatus st.sess h status])
  | .ok (_, keys) =>
    let force := h.flags &&& flagForce != 0
    let (statuses, store) := perKey (fun k => srv.store.delete st.sess.ns k force) keys st.store
    ({ st with store := store }, [consume h, writeResp st.sess h (keyStatusResp statuses)])

def handleStats (srv : Server σ) (h : Header) (body : List UInt8) (st : State σ) : Outcome σ :=
  match decodeStatsReq body with
  | .error e => (st, [consume h, respondStatus st.sess h e.status])
  | .ok _ =>
    let (doc, store) := srv.store.stats st.sess.ns st.store
    ({ st with store := store },
      [consume h, writeResp st.sess h (preamble .ok (UInt32.ofNat doc.length) ++ doc)])

/-! ## PUT_STREAM -/

def maxLiveStreams : ℕ := 256
def maxStreamEntries : ℕ := 4 * maxLiveStreams
def maxStagedPerConn : ℕ := 268435456

/-- A live stream becomes a tombstone: its staging and its hasher are dropped. -/
def tombstoneLive (id : UInt64) (st : PutStream) (now : ℤ) (s : Session) : Session :=
  { s with
    stagedBytes := s.stagedBytes - st.buf.length
    streams := s.streams.insert id
      { st with
        buf := [], bufCap := 0, allocated := false, digest := none, tombstoned := true
        tombstonedAt := now }
    liveStreams := s.liveStreams - 1 }

def putBegin (srv : Server σ) (now : ℤ) (h : Header) (body : List UInt8) (st : State σ) :
    Outcome σ :=
  match decodePutBegin body with
  | .error e => (st, [consume h, respondStatus st.sess h e.status])
  | .ok b =>
    let s := st.sess
    let (isSealed, store) := srv.store.contains s.ns h.key st.store
    if (s.streams.lookup h.requestID).any (fun existing => !existing.tombstoned) then
      (⟨s, store⟩, [consume h, respondStatus s h .errMalformed])
    else if isSealed then (⟨s, store⟩, [consume h, respondStatus s h .okExists])
    else if s.limits.maxBlobLen < b.totalLen
      then (⟨s, store⟩, [consume h, respondStatus s h .errTooLarge])
    else
      let (beginOK, store) := match srv.store.canStore with
        | some canStore => canStore s.ns b.totalLen store
        | none => (true, store)
      if !beginOK then (⟨s, store⟩, [consume h, respondStatus s h .errQuotaBytes])
      else if (maxLiveStreams : ℤ) ≤ s.liveStreams ∨ maxStreamEntries ≤ Table.size s.streams then
        (⟨s, store⟩, [consume h, respondStatus s h .errBusy])
      else
        -- nothing is reserved yet: buffer and hasher come with the first chunk that has bytes
        let stream : PutStream := {
          ns := s.ns, key := h.key, totalLen := b.totalLen, ttlMS :=
            b.ttlMS, xxh3Hint := b.xxh3Hint,
          buf := [], bufCap := 0, allocated := false, digest := none, oneShot := 0, received := 0,
          tombstoned := false, lastActive := now, tombstonedAt := 0 }
        (⟨{ s with
            liveStreams := s.liveStreams + 1
            streams := s.streams.insert h.requestID stream }, store⟩,
          [consume h, respondStatus s h .ok])

/-- A chunk appended to the staging of its stream. The first one reserves the declared length; a
block that is complete with it is hashed at once, any other feeds the streaming hasher. -/
def appendChunk (srv : Server σ) (payloadLen : UInt32) (body : List UInt8) (now : ℤ)
    (st : PutStream) : PutStream :=
  let cap := if st.allocated then st.bufCap else st.totalLen.toNat
  let buf := st.buf ++ body
  let received := st.received + payloadLen
  let st := { st with
    buf := buf, bufCap := max cap buf.length, allocated := true, received :=
      received, lastActive := now }
  match st.digest with
  | some written => { st with digest := some (written ++ [body]) }
  | none =>
    if received = st.totalLen then { st with oneShot := srv.xxh3 buf }
    else { st with digest := some [buf] }

def putChunk (srv : Server σ) (now : ℤ) (h : Header) (body : List UInt8) (st : State σ) :
    Outcome σ :=
  let s := st.sess
  let s' := match s.streams.lookup h.requestID with
    | none => s
    | some p =>
      if p.tombstoned then s
      else if h.payloadLen = 0 then s
      else if p.totalLen < p.received + h.payloadLen then tombstoneLive h.requestID p now s
      else if (maxStagedPerConn : ℤ) < s.stagedBytes + h.payloadLen.toNat
        then tombstoneLive h.requestID p now s
      else { s with
        streams := s.streams.insert h.requestID (appendChunk srv h.payloadLen body now p)
        stagedBytes := s.stagedBytes + h.payloadLen.toNat }
  ({ st with sess := s' }, [consume h])

/-- The digest of what was staged: from the hasher, the one-shot sum, or that of no bytes. -/
def stagedSum (srv : Server σ) (p : PutStream) : UInt64 :=
  match p.digest with
  | some written => srv.sum64 written
  | none => if 0 < p.received then p.oneShot else srv.xxh3 []

/-- The TTL of BEGIN takes effect with a commit that answered OK, where the store has leases. -/
def applyTTL (srv : Server σ) (p : PutStream) (status : Status) (store : σ) : σ :=
  if status = .ok ∧ 0 < p.ttlMS then
    match srv.store.lifecycle with
    | some lc => (lc.touchLease p.ns p.key touchRecencyOp p.ttlMS store).2
    | none => store
  else store

def putCommit (srv : Server σ) (h : Header) (body : List UInt8) (st : State σ) : Outcome σ :=
  match decodePutCommit body with
  | .error e => (st, [consume h, respondStatus st.sess h e.status])
  | .ok sum =>
    let s := st.sess
    match s.streams.lookup h.requestID with
    | none => (st, [consume h, respondStatus s h .errStaleStream])
    | some p =>
      if p.tombstoned then
        ({ st with sess := { s with streams := s.streams.erase h.requestID } },
          [consume h, respondStatus s h .errStaleStream])
      else
        let s' := { s with
          streams := s.streams.erase h.requestID
          liveStreams := s.liveStreams - 1
          stagedBytes := s.stagedBytes - p.buf.length }
        if p.received ≠ p.totalLen then (⟨s', st.store⟩,
          [consume h, respondStatus s' h .errShortStream])
        else if stagedSum srv p ≠ sum then (⟨s', st.store⟩,
          [consume h, respondStatus s' h .errChecksum])
        else
          let (answer, store) := srv.store.put p.ns p.key p.buf sum st.store
          let status := if answer = .errQuotaBytes then .errBusy else answer
          (⟨s', applyTTL srv p status store⟩,
            [consume h, .put p.ns p.key p.buf sum answer, respondStatus s' h status])

def putAbort (h : Header) (st : State σ) : Outcome σ :=
  let s := st.sess
  match s.streams.lookup h.requestID with
  | none => (st, [consume h, respondStatus s h .errStaleStream])
  | some p =>
    let s' := { s with
      stagedBytes := s.stagedBytes - p.buf.length
      streams := s.streams.erase h.requestID
      liveStreams := if p.tombstoned then s.liveStreams else s.liveStreams - 1 }
    ({ st with sess := s' },
      [consume h, respondStatus s' h (if p.tombstoned then .errStaleStream else .ok)])

def handlePutStream (srv : Server σ) (now : ℤ) (h : Header) (body : List UInt8) (st : State σ) :
    Outcome σ :=
  if subOp h.flags = putBeginOp then putBegin srv now h body st
  else if subOp h.flags = putChunkOp then putChunk srv now h body st
  else if subOp h.flags = putCommitOp then putCommit srv h body st
  else if subOp h.flags = putAbortOp then putAbort h st
  else (st, [consume h, respondStatus st.sess h .errUnsupported])

/-- One entry of a reaper pass: a tombstone past its grace is deleted, an idle live stream
tombstoned. -/
def sweepOne (now timeout : ℤ) (s : Session) (id : UInt64) : Session :=
  match s.streams.lookup id with
  | none => s
  | some p =>
    if p.tombstoned then
      if timeout < now - p.tombstonedAt then { s with streams := s.streams.erase id } else s
    else if timeout < now - p.lastActive then tombstoneLive id p now s
    else s

def sweepStreams (now timeout : ℤ) (s : Session) : Session :=
  s.streams.keys.foldl (sweepOne now timeout) s

/-! ## Dispatch -/

/-- HELLO first; then each opcode's handler. Every path consumes the frame once. -/
def handleFrame (srv : Server σ) (now : ℤ) (h : Header) (body : List UInt8) (st : State σ) :
    Outcome σ :=
  if !st.sess.authed then
    if h.opcode ≠ opHello then (st, [consume h, .abort .errAuthRequired])
    else handleHello srv h body st
  else if h.flags &&& flagResp ≠ 0 then (st, [consume h, respondStatus st.sess h .errMalformed])
  else if h.opcode = opNop then (st, [consume h])
  else if h.opcode = opHello then (st, [consume h, respondStatus st.sess h .errMalformed])
  else if h.opcode = opBatchExists then handleBatchExists srv h body st
  else if h.opcode = opBatchGet then handleBatchGet srv h body st
  else if h.opcode = opPutStream then handlePutStream srv now h body st
  else if h.opcode = opTouchLease ∨ h.opcode = opPin then handleKeyStatusVerb srv h body st
  else if h.opcode = opDelete then handleDelete srv h body st
  else if h.opcode = opStats then handleStats srv h body st
  else (st, [consume h, respondStatus st.sess h .errUnsupported])

/-- Every block held in the first state is held in the second. -/
def Fewer (holds : σ → UInt32 → BlockKey → List UInt8 → Prop) (st' st : σ) : Prop :=
  ∀ ns key data, holds st' ns key data → holds st ns key data

/-- The contract of a store whose blocks are those that `holds` names: a lookup answers with a block
that is held, only PUT adds one, and PUT adds nothing but the block it was handed, and only when it
answers OK. -/
structure Store.Laws (S : Store σ) (holds : σ → UInt32 → BlockKey → List UInt8 → Prop) : Prop where
  hit : ∀ ns key st, (S.getter.fetch ns key st).1.hit = true →
    holds st ns key (S.getter.fetch ns key st).1.data
  fetch : ∀ ns key st, Fewer holds (S.getter.fetch ns key st).2 st
  existsPrefix : ∀ ns keys bitmap st, Fewer holds (S.existsPrefix ns keys bitmap st).2 st
  contains : ∀ ns key st, Fewer holds (S.contains ns key st).2 st
  delete : ∀ ns key force st, Fewer holds (S.delete ns key force st).2 st
  stats : ∀ ns st, Fewer holds (S.stats ns st).2 st
  canStore : ∀ probe, S.canStore = some probe → ∀ ns len st, Fewer holds (probe ns len st).2 st
  touchLease : ∀ lc, S.lifecycle = some lc →
    ∀ ns key sub ttl st, Fewer holds (lc.touchLease ns key sub ttl st).2 st
  pinOp : ∀ lc, S.lifecycle = some lc → ∀ ns key sub st, Fewer holds (lc.pinOp ns key sub st).2 st
  put : ∀ ns key data sum st ns' key' data', holds (S.put ns key data sum st).2 ns' key' data' →
    holds st ns' key' data' ∨
    ((S.put ns key data sum st).1 = .ok ∧ ns' = ns ∧ key' = key ∧ data' = data)

/-! ## The in-heap store -/

/-- The blocks of the in-heap store. Its shards are picked by the key, so together they are one
map. -/
abbrev Ram := Table (UInt32 × BlockKey) (List UInt8 × UInt64)

/-- The consecutive hits from the first key on, and a status for each key. Without a bitmap the loop
stops at the first miss. -/
def existsLoop (present : BlockKey → Bool) (withBitmap : Bool) :
    List BlockKey → Bool → UInt32 × List Status
  | [], _ => (0, [])
  | k :: ks, consecutiveDone =>
    if consecutiveDone && !withBitmap then (0, [])
    else
      let ok := present k
      let (n, rest) := existsLoop present withBitmap ks (consecutiveDone || !ok)
      (if ok && !consecutiveDone then n + 1 else n, (if ok then .ok else .notFound) :: rest)

/-- `document` renders the statistics from the number of blocks and of bytes. -/
def ramstub (document : ℕ → ℕ → List UInt8) : Store Ram where
  existsPrefix ns keys withBitmap m :=
    let (n, perKey) := existsLoop (fun k => (m.lookup (ns, k)).isSome) withBitmap keys false
    ((n, if withBitmap then some perKey else none), m)
  getter := .plain fun ns key m =>
    match m.lookup (ns, key) with
    | some (data, sum) => ((data, sum, true), m)
    | none => (([], 0, false), m)
  put ns key data sum m :=
    match m.lookup (ns, key) with
    | some (_, existing) => (if existing = sum then .okExists else .errImmutableConflict, m)
    | none => (.ok, m.insert (ns, key) (data, sum))
  contains ns key m := ((m.lookup (ns, key)).isSome, m)
  delete ns key _ m := (if (m.lookup (ns, key)).isSome then .ok else .notFound, m.erase (ns, key))
  stats _ m := (document (Table.size m) (Table.total (fun _ e => e.1.length) m), m)
  lifecycle := none
  canStore := none

def ramHolds (m : Ram) (ns : UInt32) (key : BlockKey) (data : List UInt8) : Prop :=
  ∃ sum, m.lookup (ns, key) = some (data, sum)

theorem ramstub_laws (document : ℕ → ℕ → List UInt8) : (ramstub document).Laws ramHolds where
  hit ns key m hhit := by
    simp only [ramstub, Getter.fetch] at hhit ⊢
    cases hl : m.lookup (ns, key) with
    | none => simp [hl] at hhit
    | some e => exact ⟨e.2, hl⟩
  fetch ns key m := by
    simp only [ramstub, Getter.fetch]
    cases m.lookup (ns, key) <;> exact fun _ _ _ hd => hd
  existsPrefix _ _ _ _ := fun _ _ _ hd => hd
  contains _ _ _ := fun _ _ _ hd => hd
  delete ns key _ m ns' key' data := by
    rintro ⟨sum, hl⟩
    refine ⟨sum, ?_⟩
    by_cases hk : (ns', key') = (ns, key)
    · rw [hk] at hl
      exact absurd (hl.symm.trans (AList.lookup_erase _ _)) nofun
    · rwa [← AList.lookup_erase_ne hk]
  stats _ _ := fun _ _ _ hd => hd
  canStore _ h := by cases h
  touchLease _ h := by cases h
  pinOp _ h := by cases h
  put ns key data sum m ns' key' data' := by
    simp only [ramstub]
    cases hl : m.lookup (ns, key) with
    | some e => exact .inl
    | none =>
      rintro ⟨sum', hl'⟩
      by_cases hk : (ns', key') = (ns, key)
      · obtain ⟨rfl, rfl⟩ := Prod.mk.inj hk
        rw [AList.lookup_insert, Option.some.injEq, Prod.mk.injEq] at hl'
        exact .inr ⟨rfl, rfl, rfl, hl'.1.symm⟩
      · rw [AList.lookup_insert_ne hk] at hl'
        exact .inl ⟨sum', hl'⟩

end KVStash.Serving
