/- GID: KVStash/Server/Shared
   digest: Several connections and the S3-compatible endpoint over one store, and the frames of
     BATCH_GET under them. -/

import KVStash.Server.Dispatch

set_option autoImplicit false

namespace KVStash.Serving

open Foundation Foundation.Run Foundation.Bytes Nvme Wire

variable {σ : Type}

/-! ## The S3-compatible endpoint -/

/-- A PutObject request after its path was resolved. The length is negative when the client declared
none; `slot` says whether the gate on payload buffers has a free slot. -/
structure PutObject where
  awsChunked : Bool
  contentLength : ℤ
  slot : Bool
  body : List UInt8

/-- The answer of the endpoint: stored, with the digest in the ETag, or an S3 error. -/
inductive S3Answer where
  | ok (etag : UInt64)
  | error (status : ℕ) (code message : String)
  deriving DecidableEq

/-- How a refusal of the store is reported. -/
def storeAnswer (sum : UInt64) (st : Status) : S3Answer :=
  if st = .ok ∨ st = .okExists then .ok sum
  else if st = .errImmutableConflict then .error 409 "ImmutableConflict"
    ("key already stored with different content: blocks are write-once and keys are " ++
      "content-derived — this indicates client-side corruption")
  else if st = .errQuotaBytes then .error 507 "QuotaExceeded" "namespace byte quota exhausted"
  else if st = .errBusy then .error 503 "SlowDown" "transient backpressure; retry"
  else .error 500 "InternalError" ("store refused the write: " ++ Status.string st)

def putObject (srv : Server σ) (ns : UInt32) (key : BlockKey) (r : PutObject) (store : σ) :
    S3Answer × σ :=
  if r.awsChunked then
    (.error 501 "NotImplemented"
      ("streaming (aws-chunked) payloads are not supported; configure the client to send the " ++
        "body raw (disable streaming/trailer checksums)"),
      store)
  else if r.contentLength < 0 then
    (.error 411 "MissingContentLength"
      "PutObject requires Content-Length (chunked transfer encoding is not supported)", store)
  else if (srv.cfg.maxBlobLen.toNat : ℤ) < r.contentLength then
    (.error 400 "EntityTooLarge"
      ("object is " ++ toString r.contentLength ++ " bytes; max_blob_len is " ++
      toString srv.cfg.maxBlobLen), store)
  else if !r.slot
    then (.error 503 "SlowDown" "concurrent PutObject buffers exhausted; retry", store)
  else match readFull r.contentLength.toNat r.body with
    | none =>
      (.error 400 "IncompleteBody" "request body ended before Content-Length bytes arrived", store)
    | some (buf, _) =>
      let sum := srv.xxh3 buf
      let (st, store') := srv.store.put ns key buf sum store
      (storeAnswer sum st, store')

variable {srv : Server σ} {data : List UInt8}

theorem putObject_stores {holds : σ → UInt32 → BlockKey → List UInt8 → Prop}
    (laws : srv.store.Laws holds) {ns ns' : UInt32} {key key' : BlockKey} {r : PutObject}
    {store : σ} (hnew : holds (putObject srv ns key r store).2 ns' key' data)
    (hold : ¬holds store ns' key' data) : data.length ≤ srv.cfg.maxBlobLen.toNat := by
  unfold putObject at hnew
  split_ifs at hnew with h1 h2 h3 h4
  · exact absurd hnew hold
  · exact absurd hnew hold
  · exact absurd hnew hold
  · exact absurd hnew hold
  cases hread : readFull r.contentLength.toNat r.body with
  | none =>
    rw [hread] at hnew
    exact absurd hnew hold
  | some p =>
    rw [hread] at hnew
    obtain ⟨hlen, -⟩ := readFull_eq_some hread
    rcases laws.put _ _ _ _ _ _ _ _ hnew with hbefore | ⟨-, -, -, rfl⟩
    · exact absurd hbefore hold
    · omega

/-! ## Connections over one store -/

/-- The server at work: the session of every connection, and the store they share. -/
structure Shared (σ : Type) where
  conns : ℕ → Session
  store : σ

def Shared.new (srv : Server σ) (store : σ) : Shared σ := ⟨fun _ => newSession srv, store⟩

/-- A connection as its handlers see it. -/
def Shared.conn (u : Shared σ) (c : ℕ) : State σ := ⟨u.conns c, u.store⟩

/-- What happens to the server: a frame or a reaper pass on some connection, a PutObject, or a step
of the store on its own, which adds no block. -/
inductive SharedEvent (holds : σ → UInt32 → BlockKey → List UInt8 → Prop) where
  | frame (c : ℕ) (now : ℤ) (r : Request)
  | sweep (c : ℕ) (now timeout : ℤ)
  | putObject (ns : UInt32) (key : BlockKey) (r : PutObject)
  | world (f : σ → σ) (fewer : ∀ st, Fewer holds (f st) st)

variable {holds : σ → UInt32 → BlockKey → List UInt8 → Prop}

def sharedNext (srv : Server σ) (u : Shared σ) : SharedEvent holds → Shared σ
  | .frame c now r =>
    let st := (handleFrame srv now r.hdr r.body (u.conn c)).1
    ⟨Function.update u.conns c st.sess, st.store⟩
  | .sweep c now timeout =>
    { u with conns := Function.update u.conns c (sweepStreams now timeout (u.conns c)) }
  | .putObject ns key r => { u with store := (putObject srv ns key r u.store).2 }
  | .world f _ => { u with store := f u.store }

def sharedStep (srv : Server σ) (u : Shared σ) (e : SharedEvent holds) : Option (Shared σ) :=
  some (sharedNext srv u e)

/-- In every state of the server each session is in order, and no block is longer than the
configured length. -/
structure SharedOk (srv : Server σ) (holds : σ → UInt32 → BlockKey → List UInt8 → Prop)
    (u : Shared σ) : Prop where
  sessions : ∀ c, SessionOk srv (u.conns c)
  blocks : ∀ ns key data, holds u.store ns key data → data.length ≤ srv.cfg.maxBlobLen.toNat

theorem SessionOk.update {conns : ℕ → Session} (h : ∀ c, SessionOk srv (conns c)) {c : ℕ}
    {s : Session} (hs : SessionOk srv s) (c' : ℕ) :
    SessionOk srv (Function.update conns c s c') := by
  by_cases hc : c' = c
  · subst hc
    rwa [Function.update_self]
  · rw [Function.update_of_ne hc]
    exact h c'

theorem handleFrame_block_le (laws : srv.store.Laws holds) {st : State σ}
    (hs : SessionOk srv st.sess) (now : ℤ) {h : Header} {body : List UInt8} {ns : UInt32}
    {key : BlockKey} (hnew : holds (handleFrame srv now h body st).1.store ns key data)
    (hold : ¬holds st.store ns key data) : data.length ≤ srv.cfg.maxBlobLen.toNat := by
  obtain ⟨p, hp, hlive, hfull, rfl⟩ := handleFrame_stores laws now h body st hnew hold
  obtain ⟨hok, htotal⟩ := hs.books.streams _ _ hp
  calc p.buf.length = p.totalLen.toNat := by rw [(hok.live hlive).received, hfull]
    _ ≤ st.sess.limits.maxBlobLen.toNat := UInt32.le_iff_toNat_le.mp htotal
    _ ≤ srv.cfg.maxBlobLen.toNat := UInt32.le_iff_toNat_le.mp hs.blob_le

theorem sharedNext_ok (laws : srv.store.Laws holds) {u : Shared σ} (hu : SharedOk srv holds u)
    (e : SharedEvent holds) : SharedOk srv holds (sharedNext srv u e) := by
  cases e with
  | frame c now r =>
    refine ⟨SessionOk.update hu.sessions (handleFrame_ok (hu.sessions c) now r.length_eq), ?_⟩
    intro ns key data hd
    by_cases hold : holds u.store ns key data
    · exact hu.blocks ns key data hold
    · exact handleFrame_block_le laws (hu.sessions c) now hd hold
  | sweep c now timeout =>
    exact ⟨SessionOk.update hu.sessions (sweepStreams_ok (hu.sessions c) now timeout), hu.blocks⟩
  | putObject ns key r =>
    refine ⟨hu.sessions, fun ns' key' data hd => ?_⟩
    by_cases hold : holds u.store ns' key' data
    · exact hu.blocks ns' key' data hold
    · exact putObject_stores laws hd hold
  | world f fewer =>
    exact ⟨hu.sessions, fun ns key data hd => hu.blocks ns key data (fewer _ ns key data hd)⟩

theorem run_sharedOk (laws : srv.store.Laws holds) {store : σ}
    (hstore : ∀ ns key data, holds store ns key data → data.length ≤ srv.cfg.maxBlobLen.toNat)
    {events : List (SharedEvent holds)} {t : Shared σ}
    (hrun : run (sharedStep srv) (Shared.new srv store) events = some t) : SharedOk srv holds t :=
  run_invariant (C := fun _ _ => True) (I := SharedOk srv holds)
    (fun _ e _ hu _ hs => Option.some.inj hs ▸ sharedNext_ok laws hu e)
    ⟨fun _ => newSession_ok srv, hstore⟩ along_true hrun

/-! ## The frames of a BATCH_GET -/

/-- A BATCH_GET that fits its connection: the connection's block length is the configured one, or no
block held under one of the requested keys is longer. -/
def GetFits (srv : Server σ) (holds : σ → UInt32 → BlockKey → List UInt8 → Prop) (st : State σ)
    (body : List UInt8) : Prop :=
  srv.cfg.maxBlobLen ≤ st.sess.limits.maxBlobLen ∨
    ∀ aux keys, decodeKeys st.sess body = .ok (aux, keys) →
    ∀ k ∈ keys, ∀ data, holds st.store st.sess.ns k data →
    data.length ≤ st.sess.limits.maxBlobLen.toNat

theorem respondStatus_within {s : Session} {h hd : Header} {status : Status}
    {bufs : List (List UInt8)} {maxFrame : UInt32} {maxBlob : ℕ}
    (hroom : getRespHeaderSize 1 + maxBlob ≤ maxFrame.toNat)
    (hmem : .write hd bufs ∈ [consume h, respondStatus s h status]) : hd.payloadLen ≤ maxFrame := by
  simp only [consume, respondStatus, writeResp, writeRespFlags, writeFrames,
    List.mem_cons, reduceCtorEq, Effect.write.injEq, List.not_mem_nil, or_false, false_or] at hmem
  have hlen : hd.payloadLen.toNat = preambleSize := by
    rw [hmem.1]
    simp [preambleSize]
  rw [UInt32.le_iff_toNat_le, hlen]
  unfold getRespHeaderSize at hroom
  omega

/-- Every frame that answers a batch is within the cap, where the blocks of its keys leave room for
one descriptor. -/
theorem handleBatchGet_within (laws : srv.store.Laws holds) {h : Header} {body : List UInt8}
    {st : State σ} {maxBlob : ℕ}
    (hroom : getRespHeaderSize 1 + maxBlob ≤ st.sess.limits.maxFrameLen.toNat)
    (hblob : ∀ aux keys, decodeKeys st.sess body = .ok (aux, keys) →
      ∀ k ∈ keys, ∀ data, holds st.store st.sess.ns k data → data.length ≤ maxBlob)
    {hd : Header} {bufs : List (List UInt8)}
    (hmem : .write hd bufs ∈ (handleBatchGet srv h body st).2) :
    hd.payloadLen ≤ st.sess.limits.maxFrameLen := by
  cases hkeys : decodeKeys st.sess body with
  | error status =>
    simp only [handleBatchGet, hkeys] at hmem
    exact respondStatus_within hroom hmem
  | ok r =>
    obtain ⟨plan, heffects, -, hans, hfits, -⟩ := handleBatchGet_spec srv h st hkeys
    rw [heffects] at hmem
    obtain ⟨f, hf, he⟩ : ∃ f ∈ plan, writeRespFlags st.sess h f.flags (f.bufs r.2.length) =
      .write hd bufs := by
      rcases List.mem_cons.mp hmem with hgrant | hframe
      · cases hgrant
      · exact List.mem_map.mp hframe
    have hblen : ∀ a ∈ f.answers, a.blen ≤ maxBlob := by
      intro a ha
      refine hans.all (P := fun a => a.blen ≤ maxBlob) (fun k hk s hs => ?_) a (mem_answersOf hf ha)
      unfold Fetched.blen
      split_ifs with hhit
      · exact hblob r.1 r.2 hkeys k hk _ (Reached.fewer laws hs _ _ _ (laws.hit _ k s hhit))
      · exact Nat.zero_le _
    have hlen := frameLen_le (hfits f hf) hblen hroom
    obtain ⟨hd', he', -, -, hpay⟩ := writeRespFlags_bufs st.sess h f r.2.length
      (hlen.trans_lt st.sess.limits.maxFrameLen.toNat_lt)
    obtain ⟨rfl, -⟩ := Effect.write.inj (he.symm.trans he')
    rwa [UInt32.le_iff_toNat_le, hpay]

def narrowHello : Request where
  hdr := ⟨opHello, 0, 0, 0, 1, 0, 40⟩
  body := helloReq ⟨1, 1, 0, 0, floorMaxFrameLen, [], [], []⟩
  length_eq := by decide

def oneKeyGet : Request where
  hdr := ⟨opBatchGet, 0, 7, 0, 2, 0, 40⟩
  body := keyList 0 [5]
  length_eq := by decide

/-- The endpoint stores a block, and a connection negotiates the smallest frame length. -/
def narrowEvents (data : List UInt8) : List (SharedEvent ramHolds) :=
  [.putObject 7 5 ⟨false, data.length, true, data⟩, .frame 1 0 narrowHello]

def narrowSession : Session :=
  ⟨true, 7, negotiateLimits Config.default.wireLimits 0 floorMaxFrameLen, 0, ∅, 0, 0⟩

theorem narrowHello_session (m : Ram) :
    (handleFrame ramServer 0 narrowHello.hdr narrowHello.body ⟨newSession ramServer, m⟩).1 =
      ⟨narrowSession, m⟩ := by
  have hdec : decodeHelloReq narrowHello.body = .ok ⟨1, 1, 0, 0, floorMaxFrameLen, [], [], []⟩ := by
    decide +kernel
  unfold handleFrame
  rw [if_pos (by rfl), if_neg (by decide)]
  unfold handleHello
  rw [hdec]
  rfl

theorem narrow_run (hlen : data.length ≤ defaultMaxBlobLen.toNat) :
    run (sharedStep ramServer) (Shared.new ramServer ∅) (narrowEvents data) =
      some ⟨Function.update (fun _ => newSession ramServer) 1 narrowSession,
        (∅ : Ram).insert (7, 5) (data, ramServer.xxh3 data)⟩ := by
  have hput : (putObject ramServer 7 5 ⟨false, data.length, true, data⟩ ∅).2 =
      (∅ : Ram).insert (7, 5) (data, ramServer.xxh3 data) := by
    have hread : readFull data.length data = some (data, []) := by
      simpa using readFull_append (rfl : data.length = data.length) []
    have hcap : ¬((ramServer.cfg.maxBlobLen.toNat : ℤ) < (data.length : ℤ)) :=
      not_lt.mpr (Int.ofNat_le.mpr hlen)
    simp only [putObject, Bool.false_eq_true, if_false, if_neg hcap, Bool.not_true,
      if_neg (not_lt.mpr (Int.natCast_nonneg data.length)), Int.toNat_natCast, hread]
    rfl
  simp only [narrowEvents, run, sharedStep, sharedNext, hput, Shared.conn, Shared.new,
    Option.bind_some]
  rw [narrowHello_session]

/-- In every state that several connections, the S3-compatible endpoint and the store's own steps
lead to, every frame that answers a BATCH_GET is within the frame length of its connection, where
the request fits it. -/
theorem batchGet_within_frame (srv : Server σ) (laws : srv.store.Laws holds)
    (hcfg : srv.cfg.wireLimits.Validated) {store : σ}
    (hstore : ∀ ns key data, holds store ns key data → data.length ≤ srv.cfg.maxBlobLen.toNat)
    {events : List (SharedEvent holds)} {t : Shared σ}
    (hrun : run (sharedStep srv) (Shared.new srv store) events = some t) (c : ℕ)
    (now : ℤ) {r : Request} (hop : r.hdr.opcode = opBatchGet)
    (hfits : GetFits srv holds (t.conn c) r.body) {hd : Header} {bufs : List (List UInt8)}
    (hmem : .write hd bufs ∈ (handleFrame srv now r.hdr r.body (t.conn c)).2) :
    hd.payloadLen ≤ (t.conns c).limits.maxFrameLen := by
  have ht := run_sharedOk laws hstore hrun
  unfold handleFrame at hmem
  by_cases hauthed : (t.conns c).authed = false
  · rw [if_pos (by rw [Shared.conn, hauthed]; rfl), if_pos (by rw [hop]; decide)] at hmem
    simp [consume] at hmem
  obtain ⟨keys, frame, hlim⟩ := (ht.sessions c).negotiated (by simpa using hauthed)
  have hroom := negotiated_blob_fits hcfg.floorFrame keys frame
  rw [← hlim] at hroom
  rw [if_neg (by simpa [Shared.conn] using hauthed)] at hmem
  by_cases hresp : r.hdr.flags &&& flagResp ≠ 0
  · rw [if_pos hresp] at hmem
    exact respondStatus_within hroom hmem
  rw [if_neg hresp, if_neg (by rw [hop]; decide), if_neg (by rw [hop]; decide),
    if_neg (by rw [hop]; decide), if_pos hop] at hmem
  refine handleBatchGet_within laws hroom ?_ hmem
  intro aux ks hks k hk data hd
  rcases hfits with hwide | hheld
  · exact (ht.blocks _ _ _ hd).trans (UInt32.le_iff_toNat_le.mp hwide)
  · exact hheld aux ks hks k hk data hd

theorem batchGet_within_frame_small :
    ∃ t, run (sharedStep ramServer) (Shared.new ramServer ∅) (narrowEvents [1, 2, 3]) = some t ∧
      ∀ hd bufs,
        .write hd bufs ∈ (handleFrame ramServer 0 oneKeyGet.hdr oneKeyGet.body (t.conn 1)).2 →
        hd.payloadLen ≤ 16777216 := by
  refine ⟨_, narrow_run (by decide), fun hd bufs hmem => ?_⟩
  have hkeys : decodeKeys narrowSession oneKeyGet.body = .ok (0, [5]) := by decide +kernel
  refine batchGet_within_frame ramServer (ramstub_laws fun _ _ => []) (by constructor <;> decide)
    (fun _ _ _ ⟨_, hl⟩ => absurd hl nofun)
    (narrow_run (by decide)) 1 0 rfl (.inr ?_) hmem
  intro aux keys hdec k hk data hd
  obtain ⟨-, rfl⟩ := Prod.mk.inj (Except.ok.inj (hkeys.symm.trans hdec))
  obtain rfl := List.mem_singleton.mp hk
  obtain ⟨sum, hl⟩ := hd
  have hblock : ((∅ : Ram).insert (7, 5) ([1, 2, 3], ramServer.xxh3 [1, 2, 3])).lookup (7, 5) =
      some (data, sum) := hl
  rw [AList.lookup_insert, Option.some.injEq, Prod.mk.injEq] at hblock
  rw [← hblock.1]
  decide

theorem oneKeyGet_frame {m : Ram} {sum : UInt64} (hl : m.lookup (7, 5) = some (data, sum)) :
    (handleFrame ramServer 0 oneKeyGet.hdr oneKeyGet.body ⟨narrowSession, m⟩).2 =
      [consume oneKeyGet.hdr, writeRespFlags narrowSession oneKeyGet.hdr flagResp
        (ResponseFrame.bufs 1 ⟨0, false, [⟨data, sum, true, false⟩]⟩)] := by
  have hkeys : decodeKeys narrowSession oneKeyGet.body = .ok (0, [5]) := by decide +kernel
  have hfetch : (ramServer.store.getter.fetch narrowSession.ns 5 m).1 =
      ⟨data, sum, true, false⟩ := by
    have hl' : m.lookup (narrowSession.ns, 5) = some (data, sum) := hl
    simp only [ramServer, ramstub, Getter.fetch, hl']
  unfold handleFrame
  rw [if_neg (by simp [narrowSession]), if_neg (by decide), if_neg (by decide), if_neg (by decide),
    if_neg (by decide), if_pos (by decide), handleBatchGet_singleton _ _ _ hkeys, hfetch]

/-- A block of 20 MiB, within the configured length, goes out in one frame of more than the 16 MiB
negotiated. -/
theorem batchGet_exceeds_frame :
    ∃ (events : List (SharedEvent ramHolds)) (t : Shared Ram) (hd : Header)
      (bufs : List (List UInt8)),
      run (sharedStep ramServer) (Shared.new ramServer ∅) events = some t ∧
      (t.conns 1).limits.maxFrameLen = 16777216 ∧
      .write hd bufs ∈ (handleFrame ramServer 0 oneKeyGet.hdr oneKeyGet.body (t.conn 1)).2 ∧
      hd.payloadLen = 20971552 := by
  obtain ⟨data, hlen⟩ : ∃ data : List UInt8, data.length = 20971520 :=
    ⟨List.replicate 20971520 0, List.length_replicate⟩
  have hframe : frameLen [⟨data, ramServer.xxh3 data, true, false⟩] = 20971552 := by
    simp [frameLen, Fetched.blen, hlen, getRespHeaderSize, preambleSize, descSize]
  obtain ⟨hd, he, -, -, hpay⟩ := writeRespFlags_bufs narrowSession oneKeyGet.hdr
    ⟨0, false, [⟨data, ramServer.xxh3 data, true, false⟩]⟩ 1 (by rw [hframe]; decide)
  refine ⟨narrowEvents data, _, hd,
    ResponseFrame.bufs 1 ⟨0, false, [⟨data, ramServer.xxh3 data, true, false⟩]⟩,
    narrow_run (hlen.trans_le (by decide)), rfl, ?_, UInt32.toNat_inj.mp (hpay.trans hframe)⟩
  change _ ∈ (handleFrame ramServer 0 oneKeyGet.hdr oneKeyGet.body ⟨narrowSession, _⟩).2
  rw [oneKeyGet_frame (AList.lookup_insert _)]
  exact List.mem_cons_of_mem _ (List.mem_singleton.mpr he.symm)

end KVStash.Serving
