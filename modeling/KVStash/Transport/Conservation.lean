/- GID: KVStash/Transport/Conservation
   digest: Credit conservation over every interleaving of a connection's read loop, handler and
     write loop. -/

import KVStash.Transport.Conn
import KVStash.Server.Shared

set_option autoImplicit false

namespace KVStash.Transport

open Foundation Foundation.Run Nvme Wire Serving Option List

variable {σ : Type}

def credits (wire : List Frame) : List UInt32 := wire.map fun f => f.1.credit

/-- The invariant of a connection. The books balance over its history; of the debits only that of
the frame in hand may wait for its grant; the ledger judges by the cap that the parser enforces; and
once HELLO has succeeded that cap is the negotiated one, or about to be. -/
structure ConnOk (c : Conn σ) : Prop where
  books : Balanced c.debits c.grants (credits c.wire) c.credit
  owed : c.debits = c.grants ++ grantsOf c.reader.todo
  single : (grantsOf c.reader.todo).length ≤ 1
  frame : c.credit.maxFrame = c.maxPayload.toUInt64
  window : ∃ w : UInt32, c.credit.window = w.toUInt64
  installed : c.state.sess.authed = true →
    c.maxPayload = c.state.sess.limits.maxFrameLen ∨ .setLimits c.state.sess.limits ∈ c.reader.todo
  installs : ∀ l, .setLimits l ∈ c.reader.todo → l = c.state.sess.limits

theorem start_ok (srv : Server σ) (preNegCap : UInt32) (store : σ) :
    ConnOk (Conn.start srv preNegCap store) where
  books := ⟨rfl, rfl, rfl, rfl⟩
  owed := rfl
  single := Nat.zero_le _
  frame := rfl
  window := ⟨preNegCap, rfl⟩
  installed h := absurd h Bool.false_ne_true
  installs _ h := absurd h not_mem_nil

section Steps

variable {c : Conn σ}

theorem ConnOk.even (hc : ConnOk c) (htodo : c.reader.todo = []) : c.debits = c.grants := by
  have := hc.owed
  rwa [htodo, grantsOf_nil, append_nil] at this

theorem ConnOk.settled (hc : ConnOk c) (htodo : c.reader.todo = []) :
    c.credit.outstanding = 0 ∧ c.credit.consumed = c.credit.granted := by
  have hb := hc.books
  rw [hc.even htodo] at hb
  exact hb.settled

theorem ConnOk.consume_none (hc : ConnOk c) (htodo : c.reader.todo = []) {n : UInt32}
    (hn : n ≤ c.maxPayload) : (c.credit.consume n).1 = .none := by
  obtain ⟨window, hw⟩ := hc.window
  exact Transport.consume_none (hc.settled htodo).1 hw hc.frame hn

theorem ConnOk.negotiated (hc : ConnOk c) (htodo : c.reader.todo = [])
    (hauthed : c.state.sess.authed = true) : c.maxPayload = c.state.sess.limits.maxFrameLen := by
  rcases hc.installed hauthed with h | h
  · exact h
  · rw [htodo] at h
    exact absurd h not_mem_nil

theorem ConnOk.frame_rule {c' : Conn σ} (hc : ConnOk c) (hcredit : c'.credit = c.credit)
    (hdebits : c'.debits = c.debits) (hgrants : c'.grants = c.grants) (hwire : c'.wire = c.wire)
    (hcap : c'.maxPayload = c.maxPayload) (hsess : SameConn c.state.sess c'.state.sess)
    (htodo : c'.reader.todo = c.reader.todo) : ConnOk c' where
  books := by
    rw [hdebits, hgrants, hwire, hcredit]
    exact hc.books
  owed := by
    rw [hdebits, hgrants, htodo]
    exact hc.owed
  single := htodo ▸ hc.single
  frame := by
    rw [hcredit, hcap]
    exact hc.frame
  window := hcredit ▸ hc.window
  installed h := by
    rw [hcap, hsess.limits, htodo]
    exact hc.installed (hsess.authed.symm.trans h)
  installs l h := by
    rw [hsess.limits]
    exact hc.installs l (htodo ▸ h)

theorem ConnOk.debited (hc : ConnOk c) (hidle : c.reader.todo = []) {n : UInt32} {w : CreditWindow}
    (hbooks : Balanced (c.debits ++ [n]) c.grants (credits c.wire) w)
    (hframe : w.maxFrame = c.credit.maxFrame) (hwindow : w.window = c.credit.window)
    {state : State σ} {reader : Reader} (hgrants : grantsOf reader.todo = [n])
    (hinstalled : state.sess.authed = true →
      c.maxPayload = state.sess.limits.maxFrameLen ∨ .setLimits state.sess.limits ∈ reader.todo)
    (hinstalls : ∀ l, .setLimits l ∈ reader.todo → l = state.sess.limits) :
    ConnOk { c with credit := w, debits := c.debits ++ [n], reader := reader, state := state } where
  books := hbooks
  owed := by
    rw [hgrants, hc.even hidle]
  single := by
    rw [hgrants]
    exact Nat.le_refl 1
  frame := hframe.trans hc.frame
  window := hwindow ▸ hc.window
  installed := hinstalled
  installs := hinstalls

theorem refuse_todo (a : Arrival) (h : Header) (status : Status) :
    grantsOf (refuse a h status).todo = [h.payloadLen] ∧ ∀ l, .setLimits l ∉
      (refuse a h status).todo := by
  unfold refuse
  split_ifs
  · exact ⟨rfl, fun l hl => by simp [Reader.todo, respondError, writeFrames] at hl⟩
  · exact ⟨rfl, fun l hl => by simp [Reader.todo] at hl⟩

theorem consume_window (w : CreditWindow) (n : UInt32) :
    (w.consume n).2.maxFrame = w.maxFrame ∧ (w.consume n).2.window = w.window := by
  unfold CreditWindow.consume
  dsimp only
  split_ifs <;> exact ⟨rfl, rfl⟩

theorem skipNop_ok (hc : ConnOk c) (hidle : c.reader = .idle) (a : Arrival) (h : Header) :
    ConnOk (skipNop a h c) := by
  unfold skipNop
  split_ifs
  · exact hc
  · exact hc.frame_rule rfl rfl rfl rfl rfl (.refl _) (by rw [hidle]; rfl)

theorem ConnOk.handled (hc : ConnOk c) (hidle : c.reader.todo = []) {h : Header} {w : CreditWindow}
    (hbooks : Balanced (c.debits ++ [h.payloadLen]) c.grants (credits c.wire) w)
    (hframe : w.maxFrame = c.credit.maxFrame) (hwindow : w.window = c.credit.window) {o : Outcome σ}
    (ho : Settles h c.state o) :
    ConnOk { c with
      credit := w, debits := c.debits ++ [h.payloadLen], reader :=
        .busy o.2 false, state := o.1 } := by
  obtain ⟨rest, heffects, ⟨hpassive, hsame⟩ | ⟨hd, bufs, rfl, hauthed⟩⟩ := ho
  · have hnone : ∀ l, .setLimits l ∉ o.2 := by
      intro l hl
      rw [heffects] at hl
      rcases mem_cons.mp hl with hl | hl
      · cases hl
      · exact absurd (all_eq_true.mp hpassive _ hl) Bool.false_ne_true
    refine hc.debited hidle hbooks hframe hwindow ?_ (fun hauthed => ?_)
      (fun l hl => absurd hl (hnone l))
    · change grantsOf o.2 = _
      rw [heffects, consume, grantsOf_grant, grantsOf_passive hpassive]
    · left
      rw [hsame.limits]
      exact hc.negotiated hidle (hsame.authed.symm.trans hauthed)
  · refine hc.debited hidle hbooks hframe hwindow ?_ (fun _ => .inr ?_) (fun l hl => ?_)
    · change grantsOf o.2 = _
      rw [heffects]
      rfl
    · change _ ∈ o.2
      rw [heffects]
      exact mem_cons_of_mem _ mem_cons_self
    · change _ ∈ o.2 at hl
      rw [heffects] at hl
      simpa [consume] using hl

theorem readFrame_ok (hc : ConnOk c) (hidle : c.reader = .idle) (dg : Digests) (srv : Server σ)
    (a : Arrival) : ConnOk (readFrame dg srv a c) := by
  have htodo : c.reader.todo = [] := by rw [hidle]; rfl
  unfold readFrame
  cases hparse : parseHeader dg a.hdr c.maxPayload with
  | fatal e =>
    dsimp only
    refine ⟨hc.books, ?_, Nat.zero_le _, hc.frame, hc.window,
      fun h => .inl (hc.negotiated htodo h), ?_⟩
    · rw [hc.even htodo]
      exact (append_nil _).symm
    · intro l hl
      simp [Reader.todo] at hl
  | tooLarge h =>
    dsimp only
    split_ifs
    · exact skipNop_ok hc hidle a h
    · obtain ⟨hgrants, hno⟩ := refuse_todo a h .errTooLarge
      exact hc.debited htodo (hc.books.account _) rfl rfl hgrants
        (fun hauthed => .inl (hc.negotiated htodo hauthed))
        (fun l hl => absurd hl (hno l))
  | ok h =>
    dsimp only
    by_cases hnop : h.opcode = opNop
    · rw [if_pos hnop]
      exact skipNop_ok hc hidle a h
    rw [if_neg hnop]
    have hbooks := hc.books.consume h.payloadLen
    obtain ⟨hframe, hwindow⟩ := consume_window c.credit h.payloadLen
    have hnone := hc.consume_none htodo (payloadLen_le_of_parseHeader hparse)
    rw [hnone]
    dsimp only
    by_cases hcut : a.payload.length ≠ h.payloadLen.toNat
    · rw [if_pos hcut]
      refine hc.debited htodo hbooks hframe hwindow rfl
        (fun hauthed => .inl (hc.negotiated htodo hauthed)) ?_
      intro l hl
      simp [Reader.todo] at hl
    · rw [if_neg hcut]
      exact hc.handled htodo hbooks hframe hwindow
        (handleFrame_settles srv a.now h a.payload c.state)

theorem act_ok {e : Effect} {todo : List Effect} {stop pick : Bool} {c' : Conn σ} (hc : ConnOk c)
    (hreader : c.reader = .busy (e :: todo) stop)
    (hact : act pick { c with reader := .busy todo stop } e = some c') : ConnOk c' := by
  have htodo : c.reader.todo = e :: todo := by rw [hreader]; rfl
  have howed := hc.owed
  have hsingle := hc.single
  have hinstalled := hc.installed
  have hinstalls := hc.installs
  rw [htodo] at howed hsingle hinstalled hinstalls
  -- an effect that is neither a grant nor new limits leaves the rest of the invariant to the
  -- effects that follow
  have hrest : (∀ n, e ≠ .grant n) → (∀ l, e ≠ .setLimits l) →
      ConnOk { c with reader := .busy todo stop } := by
    intro hgrant hlimits
    have hgrants : grantsOf (e :: todo) = grantsOf todo := by
      cases e with
      | grant n => exact absurd rfl (hgrant n)
      | write | put | setLimits | abort | close => rfl
    rw [hgrants] at howed hsingle
    refine ⟨hc.books, howed, hsingle, hc.frame, hc.window, fun h => ?_, fun l hl => ?_⟩
    · rcases hinstalled h with hcap | hmem
      · exact .inl hcap
      · rcases mem_cons.mp hmem with hl | hl
        · exact absurd hl.symm (hlimits _)
        · exact .inr hl
    · exact hinstalls l (mem_cons_of_mem _ hl)
  cases e with
  | grant n =>
    obtain rfl := some.inj hact
    rw [grantsOf_grant] at howed hsingle
    have hnil : grantsOf todo = [] := length_eq_zero_iff.mp (by simpa using hsingle)
    rw [hnil] at howed
    have hb := hc.books
    rw [howed] at hb
    obtain ⟨hclamp, hbal⟩ := hb.grant
    refine ⟨?_, ?_, ?_, hc.frame, hc.window, fun h => ?_, fun l hl => ?_⟩
    · dsimp only
      rw [hclamp, howed]
      exact hbal
    · dsimp only [Reader.todo]
      rw [hclamp, hnil, append_nil, howed]
    · dsimp only [Reader.todo]
      rw [hnil]
      exact Nat.zero_le _
    · rcases hinstalled h with hcap | hmem
      · exact .inl hcap
      · rcases mem_cons.mp hmem with hl | hl
        · cases hl
        · exact .inr hl
    · exact hinstalls l (mem_cons_of_mem _ hl)
  | setLimits l =>
    obtain rfl := some.inj hact
    have hl : l = c.state.sess.limits := hinstalls l mem_cons_self
    refine ⟨hc.books.setWindow _ _, howed, hsingle, rfl, ⟨l.initialCredit, rfl⟩, fun _ => .inl ?_,
      fun l' hl' => ?_⟩
    · rw [hl]
    · exact hinstalls l' (mem_cons_of_mem _ hl')
  | write hd bufs =>
    have hok := hrest nofun nofun
    simp only [act] at hact
    split_ifs at hact with h1 h2 h3
    · obtain rfl := some.inj hact
      exact hok.frame_rule rfl rfl rfl rfl rfl (.refl _) rfl
    · obtain rfl := some.inj hact
      exact hok
    · obtain rfl := some.inj hact
      exact hok.frame_rule rfl rfl rfl rfl rfl (.refl _) rfl
  | put ns key data sum answer =>
    obtain rfl := some.inj hact
    exact hrest nofun nofun
  | _ =>
    obtain rfl := some.inj hact
    exact (hrest nofun nofun).frame_rule rfl rfl rfl rfl rfl (.refl _) rfl

theorem bytes_stamp (credit : UInt32) {fs : List Frame} (hne : fs ≠ []) :
    bytes (credits (stamp credit fs)) = credit.toUInt64 := by
  obtain ⟨f, fs, rfl⟩ := exists_cons_of_ne_nil hne
  have hrest :
      bytes (credits (fs.map fun f => (({ f.1 with credit := 0 } : Header), f.2))) = 0 := by
    induction fs with
    | nil => rfl
    | cons g gs ih =>
      rw [map_cons, credits, map_cons, bytes_cons]
      exact (UInt64.zero_add _).trans (ih (cons_ne_nil _ _))
  change credit.toUInt64 + bytes (credits _) = _
  rw [hrest, UInt64.add_zero]

theorem flush_ok (hc : ConnOk c) {fs : List Frame} (hne : fs ≠ []) (ok : Bool) :
    ConnOk (flush fs ok c) where
  books := by
    refine hc.books.takeGrant.of_bytes ?_
    change bytes (credits (c.wire ++ stamp _ fs)) = _
    rw [credits, map_append, bytes_append, bytes_append, bytes_cons, bytes_nil, UInt64.add_zero]
    exact congrArg _ (bytes_stamp _ hne)
  owed := hc.owed
  single := hc.single
  frame := hc.frame
  window := hc.window
  installed := hc.installed
  installs := hc.installs

theorem connStep_ok {dg : Digests} {srv : Server σ} {e : ConnEvent σ} {c' : Conn σ} (hc : ConnOk c)
    (hs : connStep dg srv c e = some c') : ConnOk c' := by
  cases e with
  | arrive a =>
    cases hr : c.reader with
    | idle =>
      simp only [connStep, hr, some.injEq] at hs
      exact hs ▸ readFrame_ok hc hr dg srv a
    | busy | done => simp [connStep, hr] at hs
  | readError =>
    cases hr : c.reader with
    | idle =>
      simp only [connStep, hr, some.injEq] at hs
      exact hs ▸ hc.frame_rule rfl rfl rfl rfl rfl (.refl _) (by rw [hr]; rfl)
    | busy | done => simp [connStep, hr] at hs
  | effect pick =>
    cases hr : c.reader with
    | idle | done => simp [connStep, hr] at hs
    | busy todo stop =>
      cases todo with
      | nil => simp [connStep, hr] at hs
      | cons e todo =>
        simp only [connStep, hr] at hs
        exact act_ok hc hr hs
  | next =>
    cases hr : c.reader with
    | idle | done => simp [connStep, hr] at hs
    | busy todo stop =>
      cases todo with
      | cons e todo => simp [connStep, hr] at hs
      | nil =>
        cases stop
        all_goals
          simp only [connStep, hr, some.injEq] at hs
          exact hs ▸ hc.frame_rule rfl rfl rfl rfl rfl (.refl _) (by rw [hr]; rfl)
  | flush k ok =>
    simp only [connStep] at hs
    split_ifs at hs with hk
    obtain rfl := some.inj hs
    have hne : c.queue.take k ≠ [] := by
      have := length_take_of_le hk.2.2.2
      exact ne_nil_of_length_pos (by omega)
    exact flush_ok (c := { c with queue := c.queue.drop k })
      (hc.frame_rule rfl rfl rfl rfl rfl (.refl _) rfl) hne ok
  | tick ok =>
    simp only [connStep] at hs
    split_ifs at hs
    · obtain rfl := some.inj hs
      exact flush_ok hc (cons_ne_nil _ _) ok
    · obtain rfl := some.inj hs
      exact hc
  | exit =>
    simp only [connStep] at hs
    split_ifs at hs
    obtain rfl := some.inj hs
    exact hc.frame_rule rfl rfl rfl rfl rfl (.refl _) rfl
  | sweep now timeout =>
    obtain rfl := some.inj hs
    exact hc.frame_rule rfl rfl rfl rfl rfl (sweepStreams_sameConn now timeout _) rfl
  | _ =>
    obtain rfl := some.inj hs
    exact hc.frame_rule rfl rfl rfl rfl rfl (.refl _) rfl

end Steps

/-- Credit conservation in one state of a connection.
- Every debit was granted once and in order, the one of the frame in hand apart, and debits and
  grants are what the counters count; with no frame in hand nothing is outstanding.
- The credit fields on the wire and the pending bytes are the granted ones.
- The next frame, when it comes, is skipped without a trace if it is a NOP, and debited once
otherwise.
- A frame within the cap reaches the handler unless it is cut short, and that cap is the negotiated
one. -/
structure Conserved (dg : Digests) (srv : Server σ) (c : Conn σ) : Prop where
  counters : c.credit.consumed = bytes c.debits ∧ c.credit.granted = bytes c.grants
  once : c.debits = c.grants ++ grantsOf c.reader.todo ∧ (grantsOf c.reader.todo).length ≤ 1
  settled : c.reader.todo = [] → c.credit.outstanding = 0 ∧ c.credit.consumed = c.credit.granted
  sent : bytes (credits c.wire) + c.credit.pending = c.credit.granted
  nop : ∀ a h,
    (parseHeader dg a.hdr c.maxPayload = .ok h ∨ parseHeader dg a.hdr c.maxPayload = .tooLarge h) →
    h.opcode = opNop → readFrame dg srv a c = c ∨
      (a.failed = true ∧ readFrame dg srv a c = { c with reader := .done, closed := true })
  debit : ∀ a h,
    (parseHeader dg a.hdr c.maxPayload = .ok h ∨ parseHeader dg a.hdr c.maxPayload = .tooLarge h) →
    h.opcode ≠ opNop → (readFrame dg srv a c).debits = c.debits ++ [h.payloadLen]
  within : c.reader = .idle → ∀ a h, parseHeader dg a.hdr c.maxPayload = .ok h → h.opcode ≠ opNop →
    (c.credit.consume h.payloadLen).1 = .none ∧ (readFrame dg srv a c).reader =
      if a.payload.length = h.payloadLen.toNat
        then .busy (handleFrame srv a.now h a.payload c.state).2 false
      else .busy [.grant h.payloadLen] true
  negotiated : c.reader = .idle → c.state.sess.authed = true →
    c.maxPayload = c.state.sess.limits.maxFrameLen

theorem skipNop_cases (a : Arrival) (h : Header) (c : Conn σ) :
    skipNop a h c = c ∨
      (a.failed = true ∧ skipNop a h c = { c with reader := .done, closed := true }) := by
  unfold skipNop
  split_ifs with hd
  · exact .inl rfl
  · refine .inr ⟨?_, rfl⟩
    simp only [Arrival.discard, decide_eq_true_eq, not_or, Bool.not_eq_false] at hd
    exact hd.2

/-- Credit conservation, over every interleaving of the two loops of a connection with whatever
frames, errors, closes and changes of the store. -/
theorem credit_conserved (dg : Digests) (srv : Server σ) (preNegCap : UInt32) {store : σ}
    {events : List (ConnEvent σ)} {t : Conn σ}
    (hrun : run (connStep dg srv) (Conn.start srv preNegCap store) events = some t) :
    Conserved dg srv t := by
  have hc : ConnOk t := run_invariant (C := fun _ _ => True) (I := ConnOk)
    (fun _ _ _ hu _ hs => connStep_ok hu hs) (start_ok srv preNegCap store) along_true hrun
  refine ⟨⟨hc.books.consumed, hc.books.granted⟩, ⟨hc.owed, hc.single⟩, hc.settled, ?_,
    ?_, ?_, ?_, ?_⟩
  · rw [UInt64.add_comm]
    exact hc.books.pending
  · rintro a h (hparse | hparse) hnop
    · simp only [readFrame, hparse, if_pos hnop]
      exact skipNop_cases a h t
    · simp only [readFrame, hparse, if_pos hnop]
      exact skipNop_cases a h t
  · rintro a h (hparse | hparse) hnop
    · simp only [readFrame, hparse, if_neg hnop]
      cases (t.credit.consume h.payloadLen).1 with
      | none =>
        dsimp only
        split_ifs <;> rfl
      | _ => rfl
    · simp only [readFrame, hparse, if_neg hnop]
  · intro hidle a h hparse hnop
    have hnone := hc.consume_none (by rw [hidle]; rfl) (payloadLen_le_of_parseHeader hparse)
    refine ⟨hnone, ?_⟩
    simp only [readFrame, hparse, if_neg hnop, hnone]
    by_cases hcut : a.payload.length = h.payloadLen.toNat
    · rw [if_neg (not_not.mpr hcut), if_pos hcut]
    · rw [if_pos hcut, if_neg hcut]
  · intro hidle hauthed
    exact hc.negotiated (by rw [hidle]; rfl) hauthed

/-- A HELLO, its three effects, and the flush of its answer. -/
def helloEvents : List (ConnEvent Ram) :=
  [.arrive ⟨narrowHello.hdr.marshal Digests.zero, narrowHello.body, false, 0⟩,
    .effect true, .effect true, .effect true, .next, .flush 1 true]

theorem credit_conserved_hello :
    ∃ t, run (connStep Digests.zero ramServer) (Conn.start ramServer 65535 ∅) helloEvents = some t ∧
      bytes (credits t.wire) = 40 ∧ t.credit.outstanding = 0 := by
  obtain ⟨t, ht, hsent, hidle⟩ :
    ∃ t, run (connStep Digests.zero ramServer) (Conn.start ramServer 65535 ∅)
      helloEvents = some t ∧ bytes (credits t.wire) = 40 ∧ t.reader.todo = [] := by
    have hrun :
        ((run (connStep Digests.zero ramServer) (Conn.start ramServer 65535 ∅) helloEvents).any
          fun t =>
        bytes (credits t.wire) = 40 ∧ t.reader.todo = []) = true := by decide +kernel
    obtain ⟨t, ht, hfields⟩ := (any_eq_true _ _).mp hrun
    obtain ⟨hsent, hidle⟩ := of_decide_eq_true hfields
    exact ⟨t, ht, hsent, hidle⟩
  exact ⟨t, ht, hsent, ((credit_conserved Digests.zero ramServer 65535 ht).settled hidle).1⟩

end KVStash.Transport
