/- GID: KVStash/Transport/Conn
   digest: The credit window of a connection as a ledger, and its read loop and write loop around
     the server's handler. -/

import KVStash.Server.Dispatch

set_option autoImplicit false

namespace KVStash.Transport

/-- The verdict on one request frame. -/
inductive Violation where
  | none
  | busy
  | fatal
  deriving DecidableEq, Repr

/-- The server's ledger of the client's payload bytes. -/
structure CreditWindow where
  window : UInt64
  maxFrame : UInt64
  /-- Debited and not yet granted. -/
  outstanding : UInt64
  /-- Granted and not yet sent. -/
  pending : UInt64
  strikes : ℕ
  consumed : UInt64
  granted : UInt64
  deriving DecidableEq, Repr

namespace CreditWindow

def setWindow (w : CreditWindow) (window maxFrame : UInt32) : CreditWindow :=
  { w with window := window.toUInt64, maxFrame := maxFrame.toUInt64 }

def new (cap : UInt32) : CreditWindow := setWindow ⟨0, 0, 0, 0, 0, 0, 0⟩ cap cap

def account (w : CreditWindow) (n : UInt32) : CreditWindow :=
  { w with outstanding := w.outstanding + n.toUInt64, consumed := w.consumed + n.toUInt64 }

/-- A debit, judged by the window and one frame of overshoot. -/
def consume (w : CreditWindow) (n : UInt32) : Violation × CreditWindow :=
  let w := w.account n
  if w.outstanding ≤ w.window + w.maxFrame then (.none, w)
  else
    let w := { w with strikes := w.strikes + 1 }
    (if w.strikes = 1 then .busy else .fatal, w)

/-- What a grant of `n` bytes returns: never more than is outstanding. -/
def clamp (w : CreditWindow) (n : UInt32) : UInt32 :=
  if w.outstanding < n.toUInt64 then w.outstanding.toUInt32 else n

def grant (w : CreditWindow) (n : UInt32) : CreditWindow :=
  let n := (w.clamp n).toUInt64
  { w with outstanding := w.outstanding - n, granted := w.granted + n, pending := w.pending + n }

def maxUint32 : UInt64 := 4294967295

/-- The pending bytes for a header's credit field, as many as it can say. -/
def takeGrant (w : CreditWindow) : UInt32 × CreditWindow :=
  let g := if maxUint32 < w.pending then maxUint32 else w.pending
  (g.toUInt32, { w with pending := w.pending - g })

def pendingGrant (w : CreditWindow) : Bool := 0 < w.pending

end CreditWindow

/-- The bytes that a list of amounts adds up to, in the ledger's own arithmetic. -/
def bytes (ns : List UInt32) : UInt64 := (ns.map UInt32.toUInt64).foldr (· + ·) 0

@[simp] theorem bytes_nil : bytes [] = 0 := rfl

@[simp] theorem bytes_cons (n : UInt32) (ns : List UInt32) :
    bytes (n :: ns) = n.toUInt64 + bytes ns := rfl

theorem bytes_append (ns ms : List UInt32) : bytes (ns ++ ms) = bytes ns + bytes ms := by
  induction ns with
  | nil => simp
  | cons n ns ih => rw [List.cons_append, bytes_cons, bytes_cons, ih, UInt64.add_assoc]

/-- The books: `debits` were consumed, `grants` granted, `credits` sent, and the last frame's bytes
may be owed. -/
structure Balanced (debits grants credits : List UInt32) (w : CreditWindow) : Prop where
  consumed : w.consumed = bytes debits
  granted : w.granted = bytes grants
  outstanding : w.outstanding + w.granted = w.consumed
  pending : w.pending + bytes credits = w.granted

section Ledger

variable {debits grants credits : List UInt32} {w : CreditWindow}

theorem Balanced.account (hb : Balanced debits grants credits w) (n : UInt32) :
    Balanced (debits ++ [n]) grants credits (w.account n) := by
  obtain ⟨h1, h2, h3, h4⟩ := hb
  refine ⟨?_, h2, ?_, h4⟩
  · simp only [CreditWindow.account, h1, bytes_append, bytes_cons, bytes_nil, UInt64.add_zero]
  · simp only [CreditWindow.account]
    rw [← h3]
    grind

theorem Balanced.consume (hb : Balanced debits grants credits w) (n : UInt32) :
    Balanced (debits ++ [n]) grants credits (w.consume n).2 := by
  have ha := hb.account n
  unfold CreditWindow.consume
  dsimp only
  split_ifs
  · exact ha
  · exact ⟨ha.consumed, ha.granted, ha.outstanding, ha.pending⟩
  · exact ⟨ha.consumed, ha.granted, ha.outstanding, ha.pending⟩

theorem Balanced.settled (hb : Balanced debits debits credits w) :
    w.outstanding = 0 ∧ w.consumed = w.granted := by
  have heq : w.consumed = w.granted := hb.consumed.trans hb.granted.symm
  have := hb.outstanding
  refine ⟨?_, heq⟩
  rw [heq] at this
  grind

theorem Balanced.owed {n : UInt32} (hb : Balanced (grants ++ [n]) grants credits w) :
    w.outstanding = n.toUInt64 := by
  have h1 := hb.consumed
  have h2 := hb.granted
  have h3 := hb.outstanding
  rw [bytes_append, bytes_cons, bytes_nil, UInt64.add_zero, ← h2] at h1
  grind

theorem Balanced.grant {n : UInt32} (hb : Balanced (grants ++ [n]) grants credits w) :
    w.clamp n = n ∧ Balanced (grants ++ [n]) (grants ++ [n]) credits (w.grant n) := by
  have howed := hb.owed
  have hclamp : w.clamp n = n := by
    unfold CreditWindow.clamp
    rw [howed, if_neg (UInt64.lt_irrefl _)]
  obtain ⟨h1, h2, h3, h4⟩ := hb
  refine ⟨hclamp, ?_⟩
  unfold CreditWindow.grant
  dsimp only
  rw [hclamp]
  refine ⟨h1, ?_, ?_, ?_⟩
  · simp only [h2, bytes_append, bytes_cons, bytes_nil, UInt64.add_zero]
  · dsimp only
    rw [← h3]
    grind
  · dsimp only
    rw [← h4]
    grind

theorem takeGrant_credit (w : CreditWindow) :
    w.takeGrant.2.pending + w.takeGrant.1.toUInt64 = w.pending := by
  have hle : (if CreditWindow.maxUint32 < w.pending then CreditWindow.maxUint32 else w.pending) <
      4294967296 := by
    split_ifs with h
    · decide
    · exact UInt64.lt_of_le_of_lt (UInt64.not_lt.mp h) (by decide)
  unfold CreditWindow.takeGrant
  dsimp only
  rw [UInt64.toUInt64_toUInt32, UInt64.mod_eq_of_lt hle]
  grind

theorem Balanced.takeGrant (hb : Balanced debits grants credits w) :
    Balanced debits grants (credits ++ [w.takeGrant.1]) w.takeGrant.2 := by
  obtain ⟨h1, h2, h3, h4⟩ := hb
  refine ⟨h1, h2, h3, ?_⟩
  have hcredit := takeGrant_credit w
  change w.takeGrant.2.pending + bytes (credits ++ [w.takeGrant.1]) = w.granted
  rw [bytes_append, bytes_cons, bytes_nil, UInt64.add_zero, ← h4, ← hcredit]
  grind

theorem Balanced.setWindow (hb : Balanced debits grants credits w) (window maxFrame : UInt32) :
    Balanced debits grants credits (w.setWindow window maxFrame) :=
  ⟨hb.consumed, hb.granted, hb.outstanding, hb.pending⟩

theorem Balanced.of_bytes {credits' : List UInt32} (hb : Balanced debits grants credits w)
    (h : bytes credits' = bytes credits) : Balanced debits grants credits' w :=
  ⟨hb.consumed, hb.granted, hb.outstanding, h ▸ hb.pending⟩

theorem consume_none {window maxFrame n : UInt32} (hzero : w.outstanding = 0)
    (hw : w.window = window.toUInt64) (hm : w.maxFrame = maxFrame.toUInt64) (hn : n ≤ maxFrame) :
    (w.consume n).1 = .none := by
  have hle : w.outstanding + n.toUInt64 ≤ w.window + w.maxFrame := by
    have h1 := window.toNat_lt
    have h2 := maxFrame.toNat_lt
    have h3 := UInt32.le_iff_toNat_le.mp hn
    rw [hzero, hw, hm, UInt64.zero_add, UInt64.le_iff_toNat_le, UInt64.toNat_add,
      UInt32.toNat_toUInt64,
      UInt32.toNat_toUInt64, UInt32.toNat_toUInt64, Nat.mod_eq_of_lt (by omega)]
    omega
  unfold CreditWindow.consume
  dsimp only [CreditWindow.account]
  rw [if_pos hle]

end Ledger

open Foundation Foundation.Run Nvme Wire Serving

variable {σ : Type}

/-! ## The connection -/

/-- A frame in the write queue or on the wire. -/
abbrev Frame := Header × List (List UInt8)

/-- The read goroutine: between frames, at the effects of a frame that are still to come, or gone.
`stop` says that the loop ends after them. -/
inductive Reader where
  | idle
  | busy (todo : List Effect) (stop : Bool)
  | done

/-- The effects of the frame in hand that are still to come. -/
def Reader.todo : Reader → List Effect
  | .busy todo _ => todo
  | _ => []

/-- A connection: its ledger, its frame cap, the write queue, the two goroutines and the server's
side of it. The three lists of amounts and the wire are its history. -/
structure Conn (σ : Type) where
  credit : CreditWindow
  maxPayload : UInt32
  queue : List Frame
  closed : Bool
  reader : Reader
  writing : Bool
  state : State σ
  wire : List Frame
  debits : List UInt32
  grants : List UInt32

def Conn.start (srv : Server σ) (preNegCap : UInt32) (store : σ) : Conn σ where
  credit := .new preNegCap
  maxPayload := preNegCap
  queue := []
  closed := false
  reader := .idle
  writing := true
  state := ⟨newSession srv, store⟩
  wire := []
  debits := []
  grants := []

def queueCap : ℕ := 256

def maxFlushFrames : ℕ := 512

def Conn.enqueue (c : Conn σ) (f : Frame) : Conn σ := { c with queue := c.queue ++ [f] }

/-- The transport's own answer to a frame that cannot reach the handler. -/
def respondError (h : Header) (status : Status) : Effect :=
  writeFrames ⟨h.opcode, flagResp, h.namespaceID, 0, h.requestID, 0, 0⟩ [errorResp status]

def fatalReport (status : Status) : Frame :=
  (⟨opNop, flagResp ||| flagFatal, 0, 0, 0, 0, UInt32.ofNat preambleSize⟩, [errorResp status])

/-! ## The read loop -/

/-- What the socket gives the read loop for one frame: a header, and the payload bytes that came
before the read ended. `failed` says that it ended with an error and not at the end of the
stream. -/
structure Arrival where
  hdr : List UInt8
  payload : List UInt8
  failed : Bool
  now : ℤ

/-- Skipping a payload: a stream that ends early is no error. -/
def Arrival.discard (a : Arrival) (h : Header) : Bool :=
  a.payload.length = h.payloadLen.toNat ∨ a.failed = false

/-- A control frame is skipped, and nothing else. -/
def skipNop (a : Arrival) (h : Header) (c : Conn σ) : Conn σ :=
  if a.discard h then c else { c with reader := .done, closed := true }

/-- The rest of the work on a frame that is refused after its debit. -/
def refuse (a : Arrival) (h : Header) (status : Status) : Reader :=
  if a.discard h then .busy [.grant h.payloadLen, respondError h status] false
  else .busy [.grant h.payloadLen] true

/-- One turn of the read loop, up to the effects of the frame. -/
def readFrame (dg : Digests) (srv : Server σ) (a : Arrival) (c : Conn σ) : Conn σ :=
  match parseHeader dg a.hdr c.maxPayload with
  | .fatal _ => { c with reader := .busy [.abort .fatalProtocol] true }
  | .tooLarge h =>
    if h.opcode = opNop then skipNop a h c
    else { c with
      credit := c.credit.account h.payloadLen
      debits := c.debits ++ [h.payloadLen]
      reader := refuse a h .errTooLarge }
  | .ok h =>
    if h.opcode = opNop then skipNop a h c
    else
      let (verdict, credit) := c.credit.consume h.payloadLen
      let c := { c with credit := credit, debits := c.debits ++ [h.payloadLen] }
      match verdict with
      | .busy => { c with reader := refuse a h .errBusy }
      | .fatal => { c with reader := .busy [.grant h.payloadLen, .abort .errBusy] true }
      | .none =>
        if a.payload.length ≠ h.payloadLen.toNat
          then { c with reader := .busy [.grant h.payloadLen] true }
        else
          let (state, effects) := handleFrame srv a.now h a.payload c.state
          { c with state := state, reader := .busy effects false }

/-- One effect. A write to an open connection waits for room in the queue; on a closed one it is
dropped, or takes a free place if the select picks it. A fatal report never waits. -/
def act (pick : Bool) (c : Conn σ) : Effect → Option (Conn σ)
  | .grant n => some { c with credit := c.credit.grant n, grants := c.grants ++ [c.credit.clamp n] }
  | .write h bufs =>
    if c.closed then some (if pick ∧ c.queue.length < queueCap then c.enqueue (h, bufs) else c)
    else if c.queue.length < queueCap then some (c.enqueue (h, bufs))
    else none
  | .put .. => some c
  | .setLimits l => some { c with
      maxPayload := l.maxFrameLen
      credit := c.credit.setWindow l.initialCredit l.maxFrameLen }
  | .abort status => some { c with
      queue := if c.queue.length < queueCap then c.queue ++ [fatalReport status] else c.queue
      closed := true }
  | .close => some { c with closed := true }

/-! ## The write loop -/

/-- The first header of a flush carries the pending grant, the others none. -/
def stamp (credit : UInt32) : List Frame → List Frame
  | [] => []
  | (h, bufs) :: fs => ({ h with credit := credit }, bufs) :: fs.map fun f =>
      ({ f.1 with credit := 0 }, f.2)

/-- Frames handed to the socket in one write; a write that fails ends the connection. -/
def flush (fs : List Frame) (ok : Bool) (c : Conn σ) : Conn σ :=
  { c with
    credit := c.credit.takeGrant.2
    wire := c.wire ++ stamp c.credit.takeGrant.1 fs
    closed := c.closed || !ok
    writing := c.writing && ok }

/-- The events of a connection: a frame arrives, a read fails, the next effect of the frame in hand,
the end of it; a flush of the first `k` queued frames, the grant timer, the writer's exit; the
reaper, another goroutine that closes the connection, and the rest of the world at the store. -/
inductive ConnEvent (σ : Type) where
  | arrive (a : Arrival)
  | readError
  | effect (pick : Bool)
  | next
  | flush (k : ℕ) (ok : Bool)
  | tick (ok : Bool)
  | exit
  | sweep (now timeout : ℤ)
  | close
  | world (f : σ → σ)

def connStep (dg : Digests) (srv : Server σ) (c : Conn σ) : ConnEvent σ → Option (Conn σ)
  | .arrive a => match c.reader with
    | .idle => some (readFrame dg srv a c)
    | _ => none
  | .readError => match c.reader with
    | .idle => some { c with reader := .done, closed := true }
    | _ => none
  | .effect pick => match c.reader with
    | .busy (e :: todo) stop => act pick { c with reader := .busy todo stop } e
    | _ => none
  | .next => match c.reader with
    | .busy [] false => some { c with reader := .idle }
    | .busy [] true => some { c with reader := .done, closed := true }
    | _ => none
  | .flush k ok =>
    if c.writing ∧ 0 < k ∧ k ≤ maxFlushFrames ∧ k ≤ c.queue.length then
      some (flush (c.queue.take k) ok { c with queue := c.queue.drop k })
    else none
  | .tick ok =>
    if c.writing then
      some (if c.credit.pendingGrant then flush [(⟨opNop, 0, 0, 0, 0, 0, 0⟩, [])] ok c else c)
    else none
  | .exit => if c.closed then some { c with writing := false } else none
  | .sweep now timeout =>
      some { c with state := { c.state with sess := sweepStreams now timeout c.state.sess } }
  | .close => some { c with closed := true }
  | .world f => some { c with state := { c.state with store := f c.state.store } }

/-! ## What a frame's handler does to the ledger -/

def grantsOf (effects : List Effect) : List UInt32 :=
  effects.filterMap fun
    | .grant n => some n
    | _ => none

@[simp] theorem grantsOf_nil : grantsOf [] = [] := rfl

@[simp] theorem grantsOf_grant (n : UInt32) (es : List Effect) :
    grantsOf (.grant n :: es) = n :: grantsOf es := rfl

/-- Neither a grant nor new limits. -/
def passive : Effect → Bool
  | .write .. | .put .. | .abort _ | .close => true
  | _ => false

theorem grantsOf_passive {es : List Effect} (h : es.all passive = true) : grantsOf es = [] := by
  induction es with
  | nil => rfl
  | cons e es ih =>
    rw [List.all_cons, Bool.and_eq_true] at h
    cases e with
    | grant n => exact absurd h.1 Bool.false_ne_true
    | setLimits l => exact absurd h.1 Bool.false_ne_true
    | _ => exact ih h.2

/-- An outcome in which the frame is consumed first and once. Then either neither ledger nor limits
move and the session stays the connection's, or the limits of the new session are installed. -/
def Settles (h : Header) (st : State σ) (o : Outcome σ) : Prop :=
  ∃ rest, o.2 = consume h :: rest ∧ ((rest.all passive = true ∧ SameConn st.sess o.1.sess) ∨
    ∃ hd bufs, rest = [.setLimits o.1.sess.limits, .write hd bufs] ∧ o.1.sess.authed = true)

section Settles

variable (srv : Server σ) (now : ℤ) (h : Header) (body : List UInt8) (st : State σ)

theorem settles_passive {store : σ} {rest : List Effect} (hrest : rest.all passive = true) :
    Settles h st (⟨st.sess, store⟩, consume h :: rest) := ⟨rest, rfl, .inl ⟨hrest, .refl _⟩⟩

theorem handleHello_settles : Settles h st (handleHello srv h body st) := by
  unfold handleHello
  cases decodeHelloReq body with
  | error e => exact settles_passive h st rfl
  | ok req =>
    dsimp only
    split_ifs
    · exact settles_passive h st rfl
    · cases srv.authenticate req.ns req.token with
      | none => exact settles_passive h st rfl
      | some id => exact ⟨_, rfl, .inr ⟨_, _, rfl, rfl⟩⟩

theorem handleBatchGet_settles : Settles h st (handleBatchGet srv h body st) := by
  cases hkeys : decodeKeys st.sess body with
  | error e =>
    simp only [handleBatchGet, hkeys]
    exact settles_passive h st rfl
  | ok r =>
    obtain ⟨plan, heffects, -⟩ := handleBatchGet_spec srv h st hkeys
    refine ⟨_, heffects, .inl ⟨List.all_eq_true.mpr fun e he => ?_, ?_⟩⟩
    · obtain ⟨f, -, rfl⟩ := List.mem_map.mp he
      rfl
    · simp only [handleBatchGet, hkeys]
      split_ifs <;> exact .refl _

theorem handlePutStream_settles : Settles h st (handlePutStream srv now h body st) := by
  suffices hput : ∃ rest, (handlePutStream srv now h body st).2 = consume h :: rest ∧
      rest.all passive = true by
    obtain ⟨rest, heffects, hpassive⟩ := hput
    exact ⟨rest, heffects, .inl ⟨hpassive, handlePutStream_sameConn srv now h body st⟩⟩
  unfold handlePutStream
  split_ifs
  · unfold putBegin
    cases decodePutBegin body with
    | error e => exact ⟨_, rfl, rfl⟩
    | ok b =>
      dsimp only
      split_ifs <;> exact ⟨_, rfl, rfl⟩
  · exact ⟨_, rfl, rfl⟩
  · unfold Serving.putCommit
    cases decodePutCommit body with
    | error e => exact ⟨_, rfl, rfl⟩
    | ok sum =>
      dsimp only
      cases st.sess.streams.lookup h.requestID with
      | none => exact ⟨_, rfl, rfl⟩
      | some p =>
        dsimp only
        split_ifs <;> exact ⟨_, rfl, rfl⟩
  · unfold putAbort
    dsimp only
    cases st.sess.streams.lookup h.requestID <;> exact ⟨_, rfl, rfl⟩
  · exact ⟨_, rfl, rfl⟩

theorem handleKeyStatusVerb_settles : Settles h st (handleKeyStatusVerb srv h body st) := by
  unfold handleKeyStatusVerb
  by_cases hsub : unpinOp < subOp h.flags
  · rw [if_pos hsub]
    exact settles_passive h st rfl
  · rw [if_neg hsub]
    cases decodeKeys st.sess body <;> exact settles_passive h st rfl

/-- Every path of every handler consumes its frame, first and once. -/
theorem handleFrame_settles : Settles h st (handleFrame srv now h body st) := by
  unfold handleFrame
  split_ifs
  · exact settles_passive h st rfl
  · exact handleHello_settles srv h body st
  · exact settles_passive h st rfl
  · exact settles_passive h st rfl
  · exact settles_passive h st rfl
  · unfold handleBatchExists
    cases decodeKeys st.sess body <;> exact settles_passive h st rfl
  · exact handleBatchGet_settles srv h body st
  · exact handlePutStream_settles srv now h body st
  · exact handleKeyStatusVerb_settles srv h body st
  · unfold handleDelete
    cases decodeKeys st.sess body <;> exact settles_passive h st rfl
  · unfold handleStats
    cases decodeStatsReq body <;> exact settles_passive h st rfl
  · exact settles_passive h st rfl

end Settles

end KVStash.Transport
