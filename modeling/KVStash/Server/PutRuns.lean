/- GID: KVStash/Server/PutRuns
   digest: Runs of PUT_STREAM frames, sweeps and changes of the world: responses, counters, caps and
     what gets stored. -/

import KVStash.Server.PutStream

set_option autoImplicit false

namespace KVStash.Serving

open Foundation Foundation.Run Nvme Wire

variable {σ : Type} {srv : Server σ}

/-- A frame as the transport hands it over: a body of the length its header gives. -/
structure Request where
  hdr : Header
  body : List UInt8
  length_eq : body.length = hdr.payloadLen.toNat

/-- What happens to a connection's PUT streams: a PUT_STREAM frame, a pass of the reaper, or a step
of the rest of the world, which leaves the session alone. -/
inductive PutEvent (σ : Type) where
  | frame (now : ℤ) (r : Request)
  | sweep (now timeout : ℤ)
  | world (f : σ → σ)

def putOutcome (srv : Server σ) (st : State σ) : PutEvent σ → Outcome σ
  | .frame now r => handlePutStream srv now r.hdr r.body st
  | .sweep now timeout => ({ st with sess := sweepStreams now timeout st.sess }, [])
  | .world f => ({ st with store := f st.store }, [])

def putStep (srv : Server σ) (st : State σ) (e : PutEvent σ) : Option (State σ) :=
  some (putOutcome srv st e).1

structure Fresh (s : Session) : Prop where
  streams : s.streams = ∅
  live : s.liveStreams = 0
  staged : s.stagedBytes = 0

theorem Fresh.books {s : Session} (h : Fresh s) : Books srv s := by
  obtain ⟨h1, h2, h3⟩ := h
  refine ⟨fun id p hp => ?_, ?_, ?_, ?_, ?_, ?_⟩
  · rw [h1] at hp
    cases hp
  all_goals rw [h1]
  · rw [h2]
    rfl
  · rw [h3]
    rfl
  all_goals exact Nat.zero_le _

theorem putOutcome_books {st : State σ} (hb : Books srv st.sess) (e : PutEvent σ) :
    Books srv (putOutcome srv st e).1.sess := by
  cases e with
  | frame now r => exact handlePutStream_books hb now r.length_eq
  | sweep now timeout => exact sweepStreams_books hb now timeout
  | world f => exact hb

theorem run_books {s t : State σ} {events : List (PutEvent σ)} (h0 : Fresh s.sess)
    (hrun : run (putStep srv) s events = some t) : Books srv t.sess :=
  run_invariant (C := fun _ _ => True) (I := fun st => Books srv st.sess)
    (fun _ e _ hb _ hs => Option.some.inj hs ▸ putOutcome_books hb e) h0.books along_true hrun

/-! ## Responses -/

def responses (effects : List Effect) : List (Header × List (List UInt8)) :=
  effects.filterMap fun
    | .write h bufs => some (h, bufs)
    | _ => none

theorem putBegin_responds (srv : Server σ) (now : ℤ) (h : Header) (body : List UInt8)
    (st : State σ) : (responses (putBegin srv now h body st).2).length = 1 := by
  unfold putBegin
  cases decodePutBegin body with
  | error e => rfl
  | ok b =>
    dsimp only
    split_ifs <;> rfl

theorem putCommit_responds (srv : Server σ) (h : Header) (body : List UInt8) (st : State σ) :
    (responses (putCommit srv h body st).2).length = 1 := by
  unfold putCommit
  cases decodePutCommit body with
  | error e => rfl
  | ok sum =>
    dsimp only
    cases st.sess.streams.lookup h.requestID with
    | none => rfl
    | some p =>
      dsimp only
      split_ifs <;> rfl

theorem putAbort_responds (h : Header) (st : State σ) :
    (responses (putAbort h st).2).length = 1 := by
  unfold putAbort
  dsimp only
  cases st.sess.streams.lookup h.requestID <;> rfl

/-- A CHUNK is never answered; every other frame gets one response. -/
theorem handlePutStream_responds (srv : Server σ) (now : ℤ) (h : Header) (body : List UInt8)
    (st : State σ) :
    (responses (handlePutStream srv now h body st).2).length = if subOp h.flags = putChunkOp
      then 0 else 1 := by
  unfold handlePutStream
  split_ifs with hbegin hchunk hcommit habort
  · rw [hbegin] at hchunk
    exact absurd hchunk (by decide)
  · exact putBegin_responds srv now h body st
  · rfl
  · exact putCommit_responds srv h body st
  · exact putAbort_responds h st
  · rfl

/-! ## Requests -/

def putFlags (sub : UInt16) : UInt16 := sub <<< 4

def beginRequest (id : UInt64) (key : BlockKey) (totalLen : UInt32) : Request where
  hdr := ⟨opPutStream, putFlags 0, 7, 0, id, key, 24⟩
  body := (PutBeginBody.mk totalLen 0 0 0).encode
  length_eq := Foundation.Bytes.length_fields _

def chunkRequest (id : UInt64) (key : BlockKey) (bytes : List UInt8) (h : bytes.length < 2 ^ 32) :
    Request where
  hdr := ⟨opPutStream, putFlags 1, 7, 0, id, key, UInt32.ofNat bytes.length⟩
  body := bytes
  length_eq := (UInt32.toNat_ofNat_of_lt' h).symm

def commitRequest (id : UInt64) (key : BlockKey) (xxh3 : UInt64) : Request where
  hdr := ⟨opPutStream, putFlags 2, 7, 0, id, key, 8⟩
  body := Wire.putCommit xxh3
  length_eq := Foundation.Bytes.length_leBytes _ _

/-- A server over the in-heap store, with the number its bytes spell as the hash of a block. -/
def ramServer : Server Ram where
  cfg := .default
  store := ramstub fun _ _ => []
  xxh3 bytes := UInt64.ofNat (Foundation.Bytes.leNat bytes)
  sum64 written := UInt64.ofNat (Foundation.Bytes.leNat written.flatten)
  authenticate _ _ := some 7

/-- A connection of it past HELLO, with the default limits. -/
def ramConn : State Ram := ⟨⟨true, 7, Config.default.wireLimits, 0, ∅, 0, 0⟩, ∅⟩

/-- A block of three bytes in two chunks, and a second stream that stays open. -/
def putEvents : List (PutEvent Ram) :=
  [.frame 0 (beginRequest 1 5 3), .frame 0 (beginRequest 2 6 9),
    .frame 1 (chunkRequest 1 5 [1, 2] (by decide)),
    .sweep 2 10, .frame 3 (chunkRequest 1 5 [3] (by decide)), .frame 4 (commitRequest 1 5 0x030201)]

/-! ## What gets stored -/

/-- The handler answered with the status, in a response of its preamble only. -/
def Answered (effects : List Effect) (status : Status) : Prop :=
  ∃ h, Effect.write h [preamble status 0] ∈ effects

section Stored

variable {srv : Server σ} {holds : σ → UInt32 → BlockKey → List UInt8 → Prop} {data : List UInt8}
  {key : BlockKey}

theorem putBegin_fewer (laws : srv.store.Laws holds) (now : ℤ) (h : Header) (body : List UInt8)
    (st : State σ) : Fewer holds (putBegin srv now h body st).1.store st.store := by
  unfold putBegin
  cases decodePutBegin body with
  | error e => exact fun _ _ _ hd => hd
  | ok b =>
    dsimp only
    have hcont := laws.contains st.sess.ns h.key st.store
    cases hprobe : srv.store.canStore with
    | none =>
      dsimp only
      split_ifs <;> exact hcont
    | some probe =>
      have hcan :
          Fewer holds (probe st.sess.ns b.totalLen
            (srv.store.contains st.sess.ns h.key st.store).2).2 st.store :=
        fun ns key data hd => hcont ns key data (laws.canStore probe hprobe _ _ _ ns key data hd)
      dsimp only
      split_ifs
      · exact hcont
      · exact hcont
      · exact hcont
      all_goals exact hcan

theorem applyTTL_fewer (laws : srv.store.Laws holds) (p : PutStream) (status : Status) (store : σ) :
    Fewer holds (applyTTL srv p status store) store := by
  unfold applyTTL
  split_ifs
  · cases hlc : srv.store.lifecycle with
    | none => exact fun _ _ _ hd => hd
    | some lc => exact laws.touchLease lc hlc _ _ _ _ _
  · exact fun _ _ _ hd => hd

/-- A block that a COMMIT adds is the staged block of its stream, under the stream's key, and the
COMMIT is answered OK. -/
theorem putCommit_stores (laws : srv.store.Laws holds) (h : Header) (body : List UInt8)
    (st : State σ) {ns : UInt32} (hnew : holds (putCommit srv h body st).1.store ns key data)
    (hold : ¬holds st.store ns key data) :
    ∃ p, st.sess.streams.lookup h.requestID = some p ∧ p.tombstoned = false ∧
      p.received = p.totalLen ∧
      ns = p.ns ∧ key = p.key ∧ data = p.buf ∧ Answered (putCommit srv h body st).2 .ok := by
  unfold putCommit at hnew ⊢
  cases hdec : decodePutCommit body with
  | error e =>
    rw [hdec] at hnew
    exact absurd hnew hold
  | ok sum =>
    rw [hdec] at hnew
    dsimp only at hnew ⊢
    cases hp : st.sess.streams.lookup h.requestID with
    | none =>
      rw [hp] at hnew
      exact absurd hnew hold
    | some p =>
      rw [hp] at hnew
      dsimp only at hnew ⊢
      by_cases htomb : p.tombstoned = true
      · rw [if_pos htomb] at hnew
        exact absurd hnew hold
      rw [if_neg htomb] at hnew ⊢
      by_cases hshort : p.received ≠ p.totalLen
      · rw [if_pos hshort] at hnew
        exact absurd hnew hold
      rw [if_neg hshort] at hnew ⊢
      by_cases hsum : stagedSum srv p ≠ sum
      · rw [if_pos hsum] at hnew
        exact absurd hnew hold
      rw [if_neg hsum] at hnew ⊢
      dsimp only at hnew ⊢
      have hput := applyTTL_fewer laws p _ _ ns key data hnew
      rcases laws.put p.ns p.key p.buf sum st.store ns key data hput
        with hbefore | ⟨hok, hns, hkey, hdata⟩
      · exact absurd hbefore hold
      · refine ⟨p, rfl, Bool.not_eq_true _ ▸ htomb, not_not.mp hshort, hns, hkey, hdata, ?_⟩
        rw [hok]
        exact ⟨_, List.mem_cons_of_mem _ (List.mem_cons_of_mem _ List.mem_cons_self)⟩

theorem handlePutStream_stores (laws : srv.store.Laws holds) (now : ℤ) (h : Header)
    (body : List UInt8) (st : State σ) {ns : UInt32}
    (hnew : holds (handlePutStream srv now h body st).1.store ns key data)
    (hold : ¬holds st.store ns key data) :
    subOp h.flags = putCommitOp ∧ ∃ p, st.sess.streams.lookup h.requestID = some p ∧
      p.tombstoned = false ∧
      p.received = p.totalLen ∧ ns = p.ns ∧ key = p.key ∧ data = p.buf ∧
      Answered (handlePutStream srv now h body st).2 .ok := by
  unfold handlePutStream at hnew ⊢
  split_ifs at hnew ⊢ with hbegin hchunk hcommit habort
  · exact absurd (putBegin_fewer laws now h body st ns key data hnew) hold
  · exact absurd hnew hold
  · exact ⟨hcommit, putCommit_stores laws h body st hnew hold⟩
  · unfold putAbort at hnew
    dsimp only at hnew
    cases hp : st.sess.streams.lookup h.requestID
    all_goals
      rw [hp] at hnew
      exact absurd hnew hold
  · exact absurd hnew hold

/-- A COMMIT, answered OK, of the live and complete stream of a key. -/
def CommitsKey (srv : Server σ) (u : State σ) (e : PutEvent σ) (ns : UInt32) (key : BlockKey) :
    Prop :=
  ∃ now r p, e = .frame now r ∧ subOp r.hdr.flags = putCommitOp ∧
    u.sess.streams.lookup r.hdr.requestID = some p ∧
    p.tombstoned = false ∧ p.ns = ns ∧ p.key = key ∧ Answered (putOutcome srv u e).2 .ok

theorem putOutcome_stores (laws : srv.store.Laws holds) {u : State σ} {e : PutEvent σ} {ns : UInt32}
    (hnew : holds (putOutcome srv u e).1.store ns key data) (hold : ¬holds u.store ns key data) :
    (∃ f, e = .world f ∧ holds (f u.store) ns key data) ∨ CommitsKey srv u e ns key := by
  cases e with
  | world f => exact .inl ⟨f, rfl, hnew⟩
  | sweep now timeout => exact absurd hnew hold
  | frame now r =>
    obtain ⟨hsub, p, hp, hlive, -, hns, hkey, -, hans⟩ :=
      handlePutStream_stores laws now r.hdr r.body u hnew hold
    exact .inr ⟨now, r, p, rfl, hsub, hp, hlive, hns.symm, hkey.symm, hans⟩

/-- The PUT_STREAM state machine, in every state that frames, sweeps and the rest of the world lead
to: every BEGIN, COMMIT and ABORT gets one response and a CHUNK none, the two counters are the
number of live streams and the bytes received into them, the three caps hold, and a key holds a
block only if it did at the start, the rest of the world stored it, or a COMMIT of a stream for that
key was answered OK. -/
theorem putStream_state_machine (srv : Server σ) {s t : State σ} {events : List (PutEvent σ)}
    (h0 : Fresh s.sess) (hrun : run (putStep srv) s events = some t) :
    (∀ now (r : Request), (responses (handlePutStream srv now r.hdr r.body t).2).length =
      if subOp r.hdr.flags = putChunkOp then 0 else 1) ∧
    t.sess.liveStreams = Table.total liveOne t.sess.streams ∧
    t.sess.stagedBytes = Table.total liveBytes t.sess.streams ∧
    t.sess.liveStreams ≤ maxLiveStreams ∧ Table.size t.sess.streams ≤ maxStreamEntries ∧
    t.sess.stagedBytes ≤ maxStagedPerConn ∧
    ∀ holds, srv.store.Laws holds → ∀ ns key, (∃ data, holds t.store ns key data) →
      (∃ data, holds s.store ns key data) ∨
      ∃ before e after u, events = before ++ e :: after ∧ run (putStep srv) s before = some u ∧
        (¬∃ data, holds u.store ns key data) ∧
        ((∃ f data, e = .world f ∧ holds (f u.store) ns key data) ∨ CommitsKey srv u e ns key) := by
  have hb := run_books h0 hrun
  refine ⟨fun now r => handlePutStream_responds srv now r.hdr r.body t, hb.live, hb.staged, ?_,
    hb.entries, ?_, ?_⟩
  · rw [hb.live]
    exact Int.ofNat_le.mpr hb.liveCap
  · rw [hb.staged]
    exact Int.ofNat_le.mpr hb.stagedCap
  intro holds laws ns key hheld
  rcases along_or_break (C := fun u e => (∃ data, holds (putOutcome srv u e).1.store ns key data) →
      ∃ data, holds u.store ns key data) hrun with hall | ⟨before, e, after, u, hev, hu, hbreak⟩
  · -- no step adds the key, so it was there from the start
    left
    by_contra hnone
    refine run_invariant (I := fun st => ¬∃ data,
      holds st.store ns key data) ?_ hnone hall hrun hheld
    intro u e t' hu hkeep hs hnew
    exact hu (hkeep (Option.some.inj hs ▸ hnew))
  · right
    rw [Classical.not_imp] at hbreak
    obtain ⟨⟨data, hdata⟩, hnone⟩ := hbreak
    refine ⟨before, e, after, u, hev, hu, hnone, ?_⟩
    rcases putOutcome_stores laws hdata fun h => hnone ⟨data, h⟩ with ⟨f, hf, hheld⟩ | hcommit
    · exact .inl ⟨f, data, hf, hheld⟩
    · exact .inr hcommit

theorem putStream_state_machine_two_streams :
    ((run (putStep ramServer) ramConn putEvents).any fun t => t.sess.liveStreams = 1 ∧
      ((t.store.lookup (7, 5)).any fun e => e.1 = [1, 2, 3])) = true ∧
    ∃ t, run (putStep ramServer) ramConn putEvents = some t ∧
      t.sess.stagedBytes ≤ maxStagedPerConn := by
  obtain ⟨t, ht⟩ : ∃ t, run (putStep ramServer) ramConn putEvents = some t := ⟨_, rfl⟩
  exact ⟨by
    decide +kernel, t, ht, (putStream_state_machine ramServer ⟨rfl, rfl, rfl⟩ ht).2.2.2.2.2.1⟩

end Stored

end KVStash.Serving
