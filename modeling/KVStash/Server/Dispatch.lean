/- GID: KVStash/Server/Dispatch
   digest: What one frame of any opcode can do to the session and to the blocks of the store. -/

import KVStash.Server.PutRuns
import KVStash.Server.BatchGet

set_option autoImplicit false

namespace KVStash.Serving

open Foundation Nvme Wire

variable {σ : Type} {srv : Server σ} {s s' s'' : Session}

/-! ## The session -/

/-- The parts of a session that HELLO sets and nothing changes afterwards. -/
structure SameConn (s s' : Session) : Prop where
  authed : s'.authed = s.authed
  ns : s'.ns = s.ns
  limits : s'.limits = s.limits
  feats : s'.feats = s.feats

theorem SameConn.refl (s : Session) : SameConn s s := ⟨rfl, rfl, rfl, rfl⟩

theorem SameConn.trans (h : SameConn s s') (h' : SameConn s' s'') : SameConn s s'' :=
  ⟨h'.authed.trans h.authed, h'.ns.trans h.ns, h'.limits.trans h.limits, h'.feats.trans h.feats⟩

theorem SameConn.of_streams (s : Session) (streams : Table UInt64 PutStream) (live staged : ℤ) :
    SameConn s { s with streams := streams, liveStreams := live, stagedBytes := staged } :=
  ⟨rfl, rfl, rfl, rfl⟩

section Session

variable (srv : Server σ) (now : ℤ) (h : Header) (body : List UInt8) (st : State σ)

theorem putBegin_sameConn : SameConn st.sess (putBegin srv now h body st).1.sess := by
  unfold putBegin
  cases decodePutBegin body with
  | error e => exact .refl _
  | ok b =>
    dsimp only
    split_ifs
    all_goals first | exact .refl _ | exact .of_streams _ _ _ _

theorem putChunk_sameConn : SameConn st.sess (putChunk srv now h body st).1.sess := by
  unfold putChunk
  dsimp only
  cases st.sess.streams.lookup h.requestID with
  | none => exact .refl _
  | some p =>
    dsimp only
    split_ifs
    all_goals first | exact .refl _ | exact .of_streams _ _ _ _

theorem putCommit_sameConn : SameConn st.sess (putCommit srv h body st).1.sess := by
  unfold putCommit
  cases decodePutCommit body with
  | error e => exact .refl _
  | ok sum =>
    dsimp only
    cases st.sess.streams.lookup h.requestID with
    | none => exact .refl _
    | some p =>
      dsimp only
      split_ifs
      all_goals exact .of_streams _ _ _ _

theorem putAbort_sameConn : SameConn st.sess (putAbort h st).1.sess := by
  unfold putAbort
  dsimp only
  cases st.sess.streams.lookup h.requestID with
  | none => exact .refl _
  | some p => exact .of_streams _ _ _ _

theorem handlePutStream_sameConn : SameConn st.sess (handlePutStream srv now h body st).1.sess := by
  unfold handlePutStream
  split_ifs
  · exact putBegin_sameConn srv now h body st
  · exact putChunk_sameConn srv now h body st
  · exact putCommit_sameConn srv h body st
  · exact putAbort_sameConn h st
  · exact .refl _

theorem sweepStreams_sameConn (timeout : ℤ) (s : Session) :
    SameConn s (sweepStreams now timeout s) := by
  unfold sweepStreams
  generalize s.streams.keys = ids
  induction ids generalizing s with
  | nil => exact .refl s
  | cons id ids ih =>
    refine SameConn.trans ?_ (ih (sweepOne now timeout s id))
    unfold sweepOne
    cases s.streams.lookup id with
    | none => exact .refl s
    | some p =>
      dsimp only
      split_ifs
      all_goals first | exact .refl _ | exact .of_streams _ _ _ _

end Session

/-- What holds of every session: its books are in order, its block limit is within the configured
one, it has no streams before HELLO, and after it the limits are negotiated ones. -/
structure SessionOk (srv : Server σ) (s : Session) : Prop where
  books : Books srv s
  blob_le : s.limits.maxBlobLen ≤ srv.cfg.maxBlobLen
  fresh : s.authed = false → Fresh s
  negotiated : s.authed = true → ∃ keys frame,
    s.limits = negotiateLimits srv.cfg.wireLimits keys frame

theorem newSession_ok (srv : Server σ) : SessionOk srv (newSession srv) where
  books := Fresh.books ⟨rfl, rfl, rfl⟩
  blob_le := UInt32.le_refl _
  fresh _ := ⟨rfl, rfl, rfl⟩
  negotiated h := absurd h Bool.false_ne_true

theorem SessionOk.same (hs : SessionOk srv s) (hsame : SameConn s s')
    (hbooks : Books srv s') (hauthed : s.authed = true) : SessionOk srv s' where
  books := hbooks
  blob_le := hsame.limits ▸ hs.blob_le
  fresh h := absurd (hsame.authed.symm.trans h) (by rw [hauthed]; decide)
  negotiated _ := hsame.limits ▸ hs.negotiated hauthed

theorem handleHello_ok {st : State σ} (hs : SessionOk srv st.sess) (hnew : st.sess.authed = false)
    (h : Header) (body : List UInt8) : SessionOk srv (handleHello srv h body st).1.sess := by
  obtain ⟨hstreams, hlive, hstaged⟩ := hs.fresh hnew
  unfold handleHello
  cases decodeHelloReq body with
  | error e => exact hs
  | ok req =>
    dsimp only
    split_ifs
    · exact hs
    · cases srv.authenticate req.ns req.token with
      | none => exact hs
      | some id => exact ⟨Fresh.books ⟨hstreams, hlive, hstaged⟩, negotiated_blob_le _ _, nofun,
          fun _ => ⟨_, _, rfl⟩⟩

theorem handleFrame_session (srv : Server σ) (now : ℤ) (h : Header) (body : List UInt8)
    (st : State σ) :
    (handleFrame srv now h body st).1.sess = st.sess ∨
      (st.sess.authed = false ∧ (handleFrame srv now h body st).1 = (handleHello srv h body st).1) ∨
      (st.sess.authed = true ∧ (handleFrame srv now h body st).1 =
        (handlePutStream srv now h body st).1) := by
  unfold handleFrame
  split_ifs with hnew _ _ _ _ _ _ hput
  · exact .inl rfl
  · exact .inr (.inl ⟨by simpa using hnew, rfl⟩)
  · exact .inl rfl
  · exact .inl rfl
  · exact .inl rfl
  · left
    unfold handleBatchExists
    cases decodeKeys st.sess body <;> rfl
  · left
    unfold handleBatchGet
    cases decodeKeys st.sess body with
    | error e => rfl
    | ok r =>
      dsimp only
      split_ifs <;> rfl
  · exact .inr (.inr ⟨by simpa using hnew, rfl⟩)
  · left
    unfold handleKeyStatusVerb
    by_cases hsub : unpinOp < subOp h.flags
    · rw [if_pos hsub]
    · rw [if_neg hsub]
      cases decodeKeys st.sess body <;> rfl
  · left
    unfold handleDelete
    cases decodeKeys st.sess body <;> rfl
  · left
    unfold handleStats
    cases decodeStatsReq body <;> rfl
  · exact .inl rfl

theorem handleFrame_ok {st : State σ} (hs : SessionOk srv st.sess) (now : ℤ) {h : Header}
    {body : List UInt8} (hbody : body.length = h.payloadLen.toNat) :
    SessionOk srv (handleFrame srv now h body st).1.sess := by
  rcases handleFrame_session srv now h body st with hsame | ⟨hnew, hhello⟩ | ⟨hauthed, hput⟩
  · rwa [hsame]
  · rw [hhello]
    exact handleHello_ok hs hnew h body
  · rw [hput]
    exact hs.same (handlePutStream_sameConn srv now h body st)
      (handlePutStream_books hs.books now hbody) hauthed

theorem sweepStreams_ok (hs : SessionOk srv s) (now timeout : ℤ) :
    SessionOk srv (sweepStreams now timeout s) := by
  have hsame := sweepStreams_sameConn now timeout s
  cases hauthed : s.authed with
  | true => exact hs.same hsame (sweepStreams_books hs.books now timeout) hauthed
  | false =>
    -- there is nothing to sweep before HELLO
    have hempty : sweepStreams now timeout s = s := by
      unfold sweepStreams
      rw [(hs.fresh hauthed).streams]
      rfl
    rwa [hempty]

/-! ## The blocks of the store -/

section Blocks

variable {srv : Server σ} {holds : σ → UInt32 → BlockKey → List UInt8 → Prop}

theorem Fewer.refl (st : σ) : Fewer holds st st := fun _ _ _ h => h

theorem Fewer.trans {st st' st'' : σ} (h : Fewer holds st' st) (h' : Fewer holds st'' st') :
    Fewer holds st'' st :=
  fun ns key data hd => h ns key data (h' ns key data hd)

theorem perKey_fewer {call : BlockKey → σ → Status × σ}
    (hcall : ∀ k st, Fewer holds (call k st).2 st) (keys : List BlockKey) (st : σ) :
    Fewer holds (perKey call keys st).2 st := by
  induction keys generalizing st with
  | nil => exact .refl st
  | cons k ks ih => exact (hcall k st).trans (ih (call k st).2)

theorem Reached.fewer (laws : srv.store.Laws holds) {ns : UInt32} {st st' : σ}
    (h : Reached (srv.store.getter.fetch ns) st st') : Fewer holds st' st := by
  induction h with
  | start => exact .refl st
  | fetched k _ ih => exact ih.trans (laws.fetch ns k _)

theorem getFrames_reached (fetch : BlockKey → σ → Fetched × σ) (maxFrame total : ℕ)
    (write : UInt16 → List (List UInt8) → Effect) (keys : List BlockKey) (st : σ) :
    Reached fetch st (getFrames fetch maxFrame total write keys st).2 := by
  induction hn : keys.length using Nat.strong_induction_on generalizing keys st with
  | _ n ih =>
    subst hn
    cases keys with
    | nil =>
      rw [getFrames]
      exact .start
    | cons k ks =>
      obtain ⟨fs, taken, rest, st', hrun, -, -, hst', -⟩ := packFrame_takes fetch maxFrame k ks st
      have hrun' : packFrame fetch maxFrame (k :: ks) st ⟨[], [], 0⟩ = (.of fs, rest, st') := hrun
      have hprog := packFrame_progress fetch maxFrame k ks st
      rw [hrun'] at hprog
      rw [getFrames, hrun']
      exact hst'.trans (ih rest.length hprog rest st' rfl)

section Verbs

variable (laws : srv.store.Laws holds) (h : Header) (body : List UInt8) (st : State σ)

theorem handleHello_store : (handleHello srv h body st).1.store = st.store := by
  unfold handleHello
  cases decodeHelloReq body with
  | error e => rfl
  | ok req =>
    dsimp only
    split_ifs
    · rfl
    · cases srv.authenticate req.ns req.token <;> rfl

include laws

theorem handleBatchExists_fewer :
    Fewer holds (handleBatchExists srv h body st).1.store st.store := by
  unfold handleBatchExists
  cases decodeKeys st.sess body with
  | error e => exact .refl _
  | ok r => exact laws.existsPrefix _ _ _ _

theorem handleBatchGet_fewer : Fewer holds (handleBatchGet srv h body st).1.store st.store := by
  unfold handleBatchGet
  cases decodeKeys st.sess body with
  | error e => exact .refl _
  | ok r =>
    dsimp only
    split_ifs
    · exact .refl _
    · exact Reached.fewer laws (getFrames_reached _ _ _ _ _ _)

theorem handleKeyStatusVerb_fewer :
    Fewer holds (handleKeyStatusVerb srv h body st).1.store st.store := by
  unfold handleKeyStatusVerb
  by_cases hsub : unpinOp < subOp h.flags
  · rw [if_pos hsub]
    exact .refl _
  rw [if_neg hsub]
  cases decodeKeys st.sess body with
  | error e => exact .refl _
  | ok r =>
    refine perKey_fewer (fun k s => ?_) _ _
    cases hlc : srv.store.lifecycle with
    | none => exact laws.contains _ _ _
    | some lc =>
      dsimp only
      split_ifs
      · exact laws.touchLease lc hlc _ _ _ _ _
      · exact laws.pinOp lc hlc _ _ _ _

theorem handleDelete_fewer : Fewer holds (handleDelete srv h body st).1.store st.store := by
  unfold handleDelete
  cases decodeKeys st.sess body with
  | error e => exact .refl _
  | ok r => exact perKey_fewer (fun k s => laws.delete _ k _ s) _ _

theorem handleStats_fewer : Fewer holds (handleStats srv h body st).1.store st.store := by
  unfold handleStats
  cases decodeStatsReq body with
  | error e => exact .refl _
  | ok r => exact laws.stats _ _

end Verbs

theorem handleFrame_stores (laws : srv.store.Laws holds) (now : ℤ) (h : Header) (body : List UInt8)
    (st : State σ) {ns : UInt32} {key : BlockKey} {data : List UInt8}
    (hnew : holds (handleFrame srv now h body st).1.store ns key data)
    (hold : ¬holds st.store ns key data) :
    ∃ p, st.sess.streams.lookup h.requestID = some p ∧ p.tombstoned = false ∧
      p.received = p.totalLen ∧
      data = p.buf := by
  have hkeep : ∀ {store : σ}, Fewer holds store st.store → ¬holds store ns key data :=
    fun hf hd => hold (hf ns key data hd)
  unfold handleFrame at hnew
  split_ifs at hnew with _ _ _ _ _ _ _ hput
  · exact absurd hnew hold
  · exact absurd hnew (handleHello_store h body st ▸ hold)
  · exact absurd hnew hold
  · exact absurd hnew hold
  · exact absurd hnew hold
  · exact absurd hnew (hkeep (handleBatchExists_fewer laws h body st))
  · exact absurd hnew (hkeep (handleBatchGet_fewer laws h body st))
  · obtain ⟨-, p, hp, hlive, hfull, -, -, hdata, -⟩ :=
      handlePutStream_stores laws now h body st hnew hold
    exact ⟨p, hp, hlive, hfull, hdata⟩
  · exact absurd hnew (hkeep (handleKeyStatusVerb_fewer laws h body st))
  · exact absurd hnew (hkeep (handleDelete_fewer laws h body st))
  · exact absurd hnew (hkeep (handleStats_fewer laws h body st))
  · exact absurd hnew hold

end Blocks

end KVStash.Serving
