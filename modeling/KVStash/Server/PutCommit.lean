/- GID: KVStash/Server/PutCommit
   digest: What a COMMIT hands to the store: the chunks of its stream since BEGIN, complete and with
     the right digest. -/

import KVStash.Server.PutRuns

set_option autoImplicit false

namespace KVStash.Serving

open Foundation Foundation.Run Foundation.Bytes Nvme Wire Option List

variable {σ : Type} {u t s st w : State σ} {body data bytes : List UInt8} {id sum : UInt64}
  {ns totalLen : UInt32}
  {h : Header} {key : BlockKey} {e : PutEvent σ} {p' p : PutStream}

/-! ## The life of a stream -/

def chunkBytes (id : UInt64) : PutEvent σ → List UInt8
  | .frame _ r => if subOp r.hdr.flags = putChunkOp ∧ r.hdr.requestID = id then r.body else []
  | _ => []

def chunks (id : UInt64) (events : List (PutEvent σ)) : List UInt8 := events.flatMap (chunkBytes id)

def LiveAt (u : State σ) (id : UInt64) (p : PutStream) : Prop :=
  u.sess.streams.lookup id = some p ∧ p.tombstoned = false

/-- A BEGIN for the id that the server accepts, with the length it declares. -/
def Begins (srv : Server σ) (u : State σ) (id : UInt64) (totalLen : UInt32) (key : BlockKey)
    (e : PutEvent σ) : Prop :=
  ∃ now r b, e = .frame now r ∧ subOp r.hdr.flags = putBeginOp ∧ r.hdr.requestID = id ∧
    r.hdr.key = key ∧
    decodePutBegin r.body = .ok b ∧ b.totalLen = totalLen ∧ Answered (putOutcome srv u e).2 .ok

/-- The same stream later: identity and declared length stay, and the buffer has grown by some
bytes. -/
structure Grown (p : PutStream) (bytes : List UInt8) (p' : PutStream) : Prop where
  ns : p'.ns = p.ns
  key : p'.key = p.key
  totalLen : p'.totalLen = p.totalLen
  buf : p'.buf = p.buf ++ bytes

theorem Grown.refl (p : PutStream) : Grown p [] p := ⟨rfl, rfl, rfl, (append_nil _).symm⟩

theorem preamble_inj {s s' : Status} (h : preamble s 0 = preamble s' 0) : s = s' := by
  have := congrArg (fun b : List UInt8 => b.head?) h
  simpa [preamble, fields, leBytes] using this

theorem answered_respondStatus {s : Session} {status status' : Status} :
    Answered [consume h, respondStatus s h status'] status ↔ status' = status := by
  constructor
  · rintro ⟨hd, hmem⟩
    simp only [consume, respondStatus, writeResp, writeRespFlags, writeFrames,
      mem_cons, reduceCtorEq,
      Effect.write.injEq, cons.injEq, and_true, not_mem_nil, or_false, false_or] at hmem
    exact (preamble_inj hmem.2).symm
  · rintro rfl
    exact ⟨_, mem_cons_of_mem _ mem_cons_self⟩

section Steps

variable {srv : Server σ} {u : State σ} {id id' : UInt64} {now timeout : ℤ} {s : Session}

theorem tombstoneLive_lookup_ne (hne : id ≠ id') (p : PutStream) (now : ℤ) :
    (tombstoneLive id' p now s).streams.lookup id = s.streams.lookup id :=
  AList.lookup_insert_ne hne

theorem not_live_tombstoneLive (hs : st.sess = tombstoneLive id p now s) : ¬LiveAt st id p' := by
  rintro ⟨hl, hlive⟩
  rw [hs, tombstoneLive, AList.lookup_insert, some.injEq] at hl
  rw [← hl] at hlive
  cases hlive

theorem putBegin_live {r : Request} (hsub : subOp r.hdr.flags = putBeginOp)
    (hl : LiveAt (putBegin srv now r.hdr r.body u).1 id p') :
    (Begins srv u id p'.totalLen p'.key (.frame now r) ∧ p'.ns = u.sess.ns ∧ p'.buf = []) ∨
      LiveAt u id p' := by
  have hout : putOutcome srv u (.frame now r) = putBegin srv now r.hdr r.body u := by
    simp only [putOutcome, handlePutStream, if_pos hsub]
  unfold Begins
  rw [hout]
  unfold putBegin at hl ⊢
  cases hdec : decodePutBegin r.body with
  | error e =>
    rw [hdec] at hl
    exact .inr hl
  | ok b =>
    rw [hdec] at hl
    dsimp only at hl ⊢
    split_ifs at hl ⊢ with h1 h2 h3 h4 h5
    · exact .inr hl
    · exact .inr hl
    · exact .inr hl
    · exact .inr hl
    · exact .inr hl
    by_cases hid : id = r.hdr.requestID
    · subst hid
      have hp := hl.1
      dsimp only at hp
      rw [AList.lookup_insert, some.injEq] at hp
      subst hp
      exact .inl ⟨⟨now, r, b, rfl, hsub, rfl, rfl, hdec, rfl, answered_respondStatus.mpr rfl⟩, rfl,
        rfl⟩
    · right
      refine ⟨?_, hl.2⟩
      have hp := hl.1
      dsimp only at hp
      rwa [AList.lookup_insert_ne hid] at hp

theorem putChunk_live {r : Request} (hsub : subOp r.hdr.flags = putChunkOp)
    (hl : LiveAt (putChunk srv now r.hdr r.body u).1 id p') :
    ∃ p, LiveAt u id p ∧ Grown p (chunkBytes id (.frame now r : PutEvent σ)) p' := by
  obtain ⟨hp', hlive⟩ := hl
  unfold putChunk at hp'
  dsimp only at hp'
  by_cases hid : id = r.hdr.requestID
  · subst hid
    have hbytes : chunkBytes r.hdr.requestID (.frame now r : PutEvent σ) = r.body :=
      if_pos ⟨hsub, rfl⟩
    rw [hbytes]
    cases hp : u.sess.streams.lookup r.hdr.requestID with
    | none =>
      rw [hp] at hp'
      exact absurd (hp.symm.trans hp') nofun
    | some p =>
      rw [hp] at hp'
      dsimp only at hp'
      split_ifs at hp' with htomb hzero hover hcap
      · obtain rfl := some.inj (hp.symm.trans hp')
        exact absurd htomb (by rw [hlive]; decide)
      · -- an empty chunk adds its no bytes
        obtain rfl := some.inj (hp.symm.trans hp')
        have hempty : r.body = [] := length_eq_zero_iff.mp (r.length_eq.trans (by rw [hzero]; rfl))
        exact ⟨p, ⟨hp, hlive⟩, hempty ▸ Grown.refl p⟩
      · exact absurd ⟨hp', hlive⟩ (@not_live_tombstoneLive σ ⟨_, u.store⟩ _ _ _ _ _ rfl)
      · exact absurd ⟨hp', hlive⟩ (@not_live_tombstoneLive σ ⟨_, u.store⟩ _ _ _ _ _ rfl)
      · obtain ⟨hbuf, -, htot, htm, hns, hkey, -⟩ :=
          appendChunk_fields srv r.hdr.payloadLen r.body now p
        rw [AList.lookup_insert, some.injEq] at hp'
        subst hp'
        exact ⟨p, ⟨hp, htm ▸ hlive⟩, ⟨hns, hkey, htot, hbuf⟩⟩
  · have hbytes : chunkBytes id (.frame now r : PutEvent σ) = [] := if_neg fun h => hid h.2.symm
    rw [hbytes]
    refine ⟨p', ⟨?_, hlive⟩, Grown.refl p'⟩
    cases hp : u.sess.streams.lookup r.hdr.requestID with
    | none =>
      rw [hp] at hp'
      exact hp'
    | some p =>
      rw [hp] at hp'
      dsimp only at hp'
      split_ifs at hp'
      · exact hp'
      · exact hp'
      · rwa [tombstoneLive_lookup_ne hid] at hp'
      · rwa [tombstoneLive_lookup_ne hid] at hp'
      · rwa [AList.lookup_insert_ne hid] at hp'

theorem putCommit_live (hl : LiveAt (putCommit srv h body u).1 id p') : LiveAt u id p' := by
  obtain ⟨hp', hlive⟩ := hl
  refine ⟨?_, hlive⟩
  unfold putCommit at hp'
  cases hdec : decodePutCommit body with
  | error e =>
    rw [hdec] at hp'
    exact hp'
  | ok sum =>
    rw [hdec] at hp'
    dsimp only at hp'
    cases hp : u.sess.streams.lookup h.requestID with
    | none =>
      rw [hp] at hp'
      exact hp'
    | some p =>
      rw [hp] at hp'
      dsimp only at hp'
      split_ifs at hp' <;> exact Table.lookup_of_erase hp'

theorem putAbort_live (hl : LiveAt (putAbort h u).1 id p') : LiveAt u id p' := by
  obtain ⟨hp', hlive⟩ := hl
  refine ⟨?_, hlive⟩
  unfold putAbort at hp'
  dsimp only at hp'
  cases hp : u.sess.streams.lookup h.requestID with
  | none =>
    rw [hp] at hp'
    exact hp'
  | some p =>
    rw [hp] at hp'
    exact Table.lookup_of_erase hp'

theorem sweepOne_live (hp' : (sweepOne now timeout s id').streams.lookup id = some p')
    (hlive : p'.tombstoned = false) : s.streams.lookup id = some p' := by
  unfold sweepOne at hp'
  cases hp : s.streams.lookup id' with
  | none =>
    rw [hp] at hp'
    exact hp'
  | some p =>
    rw [hp] at hp'
    dsimp only at hp'
    split_ifs at hp'
    · exact Table.lookup_of_erase hp'
    · exact hp'
    · rcases lookup_insert_cases hp' with rfl | hp'
      · cases hlive
      · exact hp'
    · exact hp'

theorem sweepStreams_live (hp' : (sweepStreams now timeout s).streams.lookup id = some p')
    (hlive : p'.tombstoned = false) : s.streams.lookup id = some p' := by
  unfold sweepStreams at hp'
  generalize s.streams.keys = ids at hp'
  induction ids generalizing s with
  | nil => exact hp'
  | cons id' ids ih => exact sweepOne_live (ih hp') hlive

theorem putOutcome_live (hl : LiveAt (putOutcome srv u e).1 id p') :
    (Begins srv u id p'.totalLen p'.key e ∧ p'.ns = u.sess.ns ∧ p'.buf = []) ∨
      ∃ p, LiveAt u id p ∧ Grown p (chunkBytes id e) p' := by
  cases e with
  | world f => exact .inr ⟨p', hl, Grown.refl p'⟩
  | sweep now timeout => exact .inr ⟨p', ⟨sweepStreams_live hl.1 hl.2, hl.2⟩, Grown.refl p'⟩
  | frame now r =>
    have hnone : subOp r.hdr.flags ≠ putChunkOp → chunkBytes id (.frame now r : PutEvent σ) = [] :=
      fun h => if_neg fun hc => h hc.1
    simp only [putOutcome, handlePutStream] at hl
    split_ifs at hl with hbegin hchunk hcommit habort
    · rcases putBegin_live hbegin hl with hnew | hold
      · exact .inl hnew
      · exact .inr ⟨p', hold, hnone (by rw [hbegin]; decide) ▸ Grown.refl p'⟩
    · exact .inr (putChunk_live hchunk hl)
    · exact .inr ⟨p', putCommit_live hl, hnone hchunk ▸ Grown.refl p'⟩
    · exact .inr ⟨p', putAbort_live hl, hnone hchunk ▸ Grown.refl p'⟩
    · exact .inr ⟨p', hl, hnone hchunk ▸ Grown.refl p'⟩

end Steps

/-! ## A stream and its history -/

section History

variable {srv : Server σ} {events mid : List (PutEvent σ)} {p q : PutStream}

theorem Begins.live (hb : Begins srv u id totalLen key e) : (∀ p, ¬LiveAt u id p) ∧
    ∃ p, LiveAt (putOutcome srv u e).1 id p ∧ p.ns = u.sess.ns ∧ p.key = key ∧
      p.totalLen = totalLen ∧ p.buf = [] := by
  obtain ⟨now, r, b, rfl, hsub, rfl, rfl, hdec, rfl, hans⟩ := hb
  have hout : putOutcome srv u (.frame now r) = putBegin srv now r.hdr r.body u := by
    simp only [putOutcome, handlePutStream, if_pos hsub]
  rw [hout] at hans ⊢
  unfold putBegin at hans ⊢
  rw [hdec] at hans ⊢
  dsimp only at hans ⊢
  split_ifs at hans ⊢ with h1 h2 h3 h4 h5
  · exact absurd (answered_respondStatus.mp hans) (by decide)
  · exact absurd (answered_respondStatus.mp hans) (by decide)
  · exact absurd (answered_respondStatus.mp hans) (by decide)
  · exact absurd (answered_respondStatus.mp hans) (by decide)
  · exact absurd (answered_respondStatus.mp hans) (by decide)
  · refine ⟨?_, _, ⟨AList.lookup_insert _, rfl⟩, rfl, rfl, rfl, rfl⟩
    rintro p ⟨hp, hlive⟩
    rw [hp] at h1
    exact h1 (by simp [hlive])

theorem LiveAt.unique (hp : LiveAt u id p) (hq : LiveAt u id q) : p = q :=
  some.inj (hp.1.symm.trans hq.1)

theorem LiveAt.forward (hrun : run (putStep srv) w mid = some t)
    (hall : Along (putStep srv) (fun v _ => ∃ p, LiveAt v id p) w mid) (hp : LiveAt w id p)
    (hq : LiveAt t id q) : Grown p (chunks id mid) q := by
  induction mid generalizing w p with
  | nil =>
    obtain rfl := some.inj hrun
    obtain rfl := hp.unique hq
    exact Grown.refl p
  | cons e mid ih =>
    obtain ⟨w', hw', hrun'⟩ := run_cons_eq_some hrun
    obtain rfl := some.inj hw'
    have hrest := hall.2 _ hw'
    obtain ⟨p', hp'⟩ : ∃ p', LiveAt (putOutcome srv w e).1 id p' := by
      cases mid with
      | nil =>
        obtain rfl := some.inj hrun'
        exact ⟨q, hq⟩
      | cons _ _ => exact hrest.1
    rcases putOutcome_live hp' with ⟨hbegin, -⟩ | ⟨p₀, hp₀, hgrow⟩
    · exact absurd hp (hbegin.live.1 p)
    obtain rfl := hp.unique hp₀
    have htail := ih hrun' hrest hp'
    exact ⟨htail.ns.trans hgrow.ns, htail.key.trans hgrow.key,
      htail.totalLen.trans hgrow.totalLen, by
      rw [htail.buf, hgrow.buf, append_assoc]
      rfl⟩

/-- The stream of an id after a run: some accepted BEGIN declared its length and key, it has been
live ever since, and `bytes` are its chunks since then. -/
def StreamOf (srv : Server σ) (s : State σ) (events : List (PutEvent σ)) (t : State σ)
    (id : UInt64) (ns : UInt32) (key : BlockKey) (totalLen : UInt32) (bytes : List UInt8) : Prop :=
  ∃ before e mid u, events = before ++ e :: mid ∧ run (putStep srv) s before = some u ∧
    Begins srv u id totalLen key e ∧ u.sess.ns = ns ∧ chunks id mid = bytes ∧
    Along (putStep srv) (fun v _ => ∃ p, LiveAt v id p) (putOutcome srv u e).1 mid ∧
    ∃ p, LiveAt t id p

theorem StreamOf.state (h : StreamOf srv s events t id ns key totalLen bytes)
    (hrun : run (putStep srv) s events = some t) :
    ∃ p, LiveAt t id p ∧ p.ns = ns ∧ p.key = key ∧ p.totalLen = totalLen ∧ p.buf = bytes := by
  obtain ⟨before, e, mid, u, rfl, hu, hbegin, rfl, rfl, hall, p, hp⟩ := h
  obtain ⟨u', hu', hrest⟩ := run_append_eq_some hrun
  obtain rfl := some.inj (hu.symm.trans hu')
  obtain ⟨w, hw, hmid⟩ := run_cons_eq_some hrest
  obtain rfl := some.inj hw
  obtain ⟨p₀, hp₀, hns, hkey, htotal, hbuf⟩ := hbegin.live.2
  have hgrow := hp₀.forward hmid hall hp
  exact ⟨p, hp, hgrow.ns.trans hns, hgrow.key.trans hkey, hgrow.totalLen.trans htotal, by
    rw [hgrow.buf, hbuf, nil_append]⟩

theorem LiveAt.history (h0 : Fresh s.sess)
    (hrun : run (putStep srv) s events = some t) (hp : LiveAt t id p) :
    StreamOf srv s events t id p.ns p.key p.totalLen p.buf := by
  induction events using reverseRecOn generalizing t p with
  | nil =>
    obtain rfl := some.inj hrun
    have := hp.1
    rw [h0.streams] at this
    cases this
  | append_singleton events e ih =>
    obtain ⟨u, hu, hlast⟩ := run_append_eq_some hrun
    obtain ⟨w, hw, hnil⟩ := run_cons_eq_some hlast
    obtain rfl := some.inj hw
    obtain rfl := some.inj hnil
    rcases putOutcome_live hp with ⟨hbegin, hns, hbuf⟩ | ⟨q, hq, hgrow⟩
    · exact ⟨events, e, [], u, rfl, hu, hbegin, hns.symm, hbuf.symm, trivial, p, hp⟩
    obtain ⟨before, e₀, mid, u₀, rfl, hu₀, hbegin, hns, hbytes, hall, -⟩ := ih hu hq
    obtain ⟨u₁, hu₁, hrest⟩ := run_append_eq_some hu
    obtain rfl := some.inj (hu₀.symm.trans hu₁)
    obtain ⟨v, hv, hmid⟩ := run_cons_eq_some hrest
    obtain rfl := some.inj hv
    refine ⟨before, e₀, mid ++ [e], u₀, by simp, hu₀, ?_, hns.trans hgrow.ns.symm, ?_, ?_, p, hp⟩
    · rw [hgrow.totalLen, hgrow.key]
      exact hbegin
    · rw [hgrow.buf, ← hbytes]
      simp [chunks]
    · exact (along_append hmid).mpr ⟨hall, ⟨q, hq⟩, fun _ _ => trivial⟩

end History

/-! ## What COMMIT hands to the store -/

section Commit

variable {srv : Server σ}

theorem Live.stagedSum_eq (hsum : ∀ written, srv.sum64 written = srv.xxh3 written.flatten)
    (hl : Live srv p) : stagedSum srv p = srv.xxh3 p.buf := by
  unfold stagedSum
  cases hl.hashed with
  | empty hbuf hd =>
    have hzero : ¬0 < p.received := by
      have hlen := hl.received
      rw [hbuf] at hlen
      exact fun hpos => absurd (UInt32.lt_iff_toNat_lt.mp hpos)
        (by rw [← hlen]; exact Nat.lt_irrefl 0)
    rw [hd]
    dsimp only
    rw [if_neg hzero, hbuf]
  | oneShot hd _ hpos hone =>
    rw [hd]
    dsimp only
    rw [if_pos hpos, hone]
  | streaming hd hbytes =>
    rw [hd]
    dsimp only
    rw [hsum, hbytes]

theorem put_mem_putOutcome {answer : Status}
    (h : .put ns key data sum answer ∈ (putOutcome srv u e).2) :
    ∃ now r, e = .frame now r ∧ subOp r.hdr.flags = putCommitOp ∧
      .put ns key data sum answer ∈ (putCommit srv r.hdr r.body u).2 := by
  cases e with
  | frame now r =>
    have hstatus : ∀ status, .put ns key data sum answer ∉ [consume r.hdr,
        respondStatus u.sess r.hdr status] := by
      intro status
      simp [consume, respondStatus, writeResp, writeRespFlags, writeFrames]
    simp only [putOutcome, handlePutStream] at h
    split_ifs at h with hbegin hchunk hcommit habort
    · unfold putBegin at h
      cases hdec : decodePutBegin r.body with
      | error e =>
        rw [hdec] at h
        exact absurd h (hstatus _)
      | ok b =>
        rw [hdec] at h
        dsimp only at h
        split_ifs at h <;> exact absurd h (hstatus _)
    · simp [putChunk, consume] at h
    · exact ⟨now, r, rfl, hcommit, h⟩
    · unfold putAbort at h
      dsimp only at h
      cases hp : u.sess.streams.lookup r.hdr.requestID with
      | none =>
        rw [hp] at h
        exact absurd h (hstatus _)
      | some p =>
        rw [hp] at h
        simp [consume, respondStatus, writeResp, writeRespFlags, writeFrames] at h
    · exact absurd h (hstatus _)
  | _ => exact absurd h not_mem_nil

theorem put_mem_putCommit :
    (∃ answer, .put ns key data sum answer ∈ (putCommit srv h body u).2) ↔
      decodePutCommit body = .ok sum ∧ ∃ p, LiveAt u h.requestID p ∧ p.received = p.totalLen ∧
        stagedSum srv p = sum ∧ p.ns = ns ∧ p.key = key ∧ p.buf = data := by
  have hstatus :
      ∀ s answer status, .put ns key data sum answer ∉ [consume h, respondStatus s h status] := by
    intro s answer status
    simp [consume, respondStatus, writeResp, writeRespFlags, writeFrames]
  unfold putCommit
  cases hdec : decodePutCommit body with
  | error e =>
    exact ⟨fun ⟨answer, hmem⟩ => absurd hmem (hstatus _ _ _), fun ⟨hok, _⟩ => absurd hok nofun⟩
  | ok d =>
    dsimp only
    cases hp : u.sess.streams.lookup h.requestID with
    | none =>
      exact ⟨fun ⟨answer, hmem⟩ => absurd hmem (hstatus _ _ _),
        fun ⟨_, p, hl, _⟩ => absurd (hp.symm.trans hl.1) nofun⟩
    | some p =>
      dsimp only
      have huniq : ∀ {q}, LiveAt u h.requestID q → q = p := fun hl => some.inj (hl.1.symm.trans hp)
      by_cases htomb : p.tombstoned = true
      · rw [if_pos htomb]
        refine ⟨fun ⟨answer, hmem⟩ => absurd hmem (hstatus _ _ _), fun ⟨_, q, hl, _⟩ => ?_⟩
        exact absurd htomb (by rw [← huniq hl, hl.2]; decide)
      rw [if_neg htomb]
      by_cases hshort : p.received ≠ p.totalLen
      · rw [if_pos hshort]
        refine ⟨fun ⟨answer, hmem⟩ => absurd hmem (hstatus _ _ _), fun ⟨_, q, hl, hfull, _⟩ => ?_⟩
        exact absurd (huniq hl ▸ hfull) hshort
      rw [if_neg hshort]
      by_cases hsum : stagedSum srv p ≠ d
      · rw [if_pos hsum]
        refine ⟨fun ⟨answer, hmem⟩ => absurd hmem (hstatus _ _ _), fun ⟨hd, q, hl, _, hq, _⟩ => ?_⟩
        exact absurd ((huniq hl ▸ hq).trans (Except.ok.inj hd).symm) hsum
      rw [if_neg hsum]
      constructor
      · rintro ⟨answer, hmem⟩
        simp only [consume, respondStatus, writeResp, writeRespFlags, writeFrames,
          mem_cons, reduceCtorEq, Effect.put.injEq, not_mem_nil, or_false, false_or] at hmem
        obtain ⟨rfl, rfl, rfl, rfl, -⟩ := hmem
        exact ⟨rfl, p, ⟨hp, Bool.not_eq_true _ ▸ htomb⟩, not_not.mp hshort, not_not.mp hsum,
          rfl, rfl, rfl⟩
      · rintro ⟨hd, q, hl, -, -, rfl, rfl, rfl⟩
        obtain rfl := huniq hl
        obtain rfl := Except.ok.inj hd
        exact ⟨_, mem_cons_of_mem _ mem_cons_self⟩

theorem putCommit_store_eq
    (hnone : ∀ ns key data sum answer, .put ns key data sum answer ∉ (putCommit srv h body u).2) :
    (putCommit srv h body u).1.store = u.store := by
  unfold putCommit at hnone ⊢
  cases hdec : decodePutCommit body with
  | error e => rfl
  | ok sum =>
    rw [hdec] at hnone
    dsimp only at hnone ⊢
    cases hp : u.sess.streams.lookup h.requestID with
    | none => rfl
    | some p =>
      rw [hp] at hnone
      dsimp only at hnone ⊢
      by_cases htomb : p.tombstoned = true
      · rw [if_pos htomb]
      rw [if_neg htomb] at hnone ⊢
      by_cases hshort : p.received ≠ p.totalLen
      · rw [if_pos hshort]
      rw [if_neg hshort] at hnone ⊢
      by_cases hsum : stagedSum srv p ≠ sum
      · rw [if_pos hsum]
      rw [if_neg hsum] at hnone
      exact absurd (mem_cons_of_mem _ mem_cons_self) (hnone p.ns p.key p.buf sum _)

/-- COMMIT after any run of frames, sweeps and steps of the world. What it hands to the store is the
concatenation of its stream's chunks since the accepted BEGIN, of exactly the declared length and
with the named digest, under the key of that BEGIN and the namespace of its session; a COMMIT that
hands nothing over leaves the store alone; and a complete stream with the right digest that was
never tombstoned is handed over. -/
theorem putCommit_hands_over (srv : Server σ)
    (hsum : ∀ written, srv.sum64 written = srv.xxh3 written.flatten) {s t : State σ}
    {events : List (PutEvent σ)} (h0 : Fresh s.sess) (hrun : run (putStep srv) s events = some t) :
    (∀ e ns key data d answer, .put ns key data d answer ∈ (putOutcome srv t e).2 →
      ∃ now r totalLen, e = .frame now r ∧ subOp r.hdr.flags = putCommitOp ∧
        decodePutCommit r.body = .ok d ∧
        data.length = totalLen.toNat ∧ srv.xxh3 data = d ∧
        StreamOf srv s events t r.hdr.requestID ns key totalLen data) ∧
    (∀ now (r : Request), subOp r.hdr.flags = putCommitOp →
      (∀ ns key data d answer, .put ns key data d answer ∉ (putOutcome srv t (.frame now r)).2) →
      (putOutcome srv t (.frame now r)).1.store = t.store) ∧
    ∀ now (r : Request) ns key totalLen bytes d, subOp r.hdr.flags = putCommitOp →
      decodePutCommit r.body = .ok d →
      StreamOf srv s events t r.hdr.requestID ns key totalLen bytes →
        bytes.length = totalLen.toNat →
      srv.xxh3 bytes = d → ∃ answer, .put ns key bytes d answer ∈
        (putOutcome srv t (.frame now r)).2 := by
  have hb := run_books h0 hrun
  have hlive : ∀ {id p}, LiveAt t id p → Live srv p := fun hp => (hb.streams _ _ hp.1).1.live hp.2
  have hout : ∀ now (r : Request), subOp r.hdr.flags = putCommitOp →
      putOutcome srv t (.frame now r) = putCommit srv r.hdr r.body t := by
    intro now r hsub
    simp only [putOutcome, handlePutStream]
    rw [if_neg (by rw [hsub]; decide), if_neg (by rw [hsub]; decide), if_pos hsub]
  refine ⟨?_, ?_, ?_⟩
  · intro e ns key data d answer hmem
    obtain ⟨now, r, rfl, hsub, hput⟩ := put_mem_putOutcome hmem
    obtain ⟨hdec, p, hp, hfull, hdigest, rfl, rfl, rfl⟩ := put_mem_putCommit.mp ⟨answer, hput⟩
    refine ⟨now, r, p.totalLen, rfl, hsub, hdec, ?_, ?_, hp.history h0 hrun⟩
    · rw [(hlive hp).received, hfull]
    · rw [← (hlive hp).stagedSum_eq hsum, hdigest]
  · intro now r hsub hnone
    rw [hout now r hsub] at hnone ⊢
    exact putCommit_store_eq hnone
  · intro now r ns key totalLen bytes d hsub hdec hstream hlen hdigest
    obtain ⟨p, hp, rfl, rfl, rfl, rfl⟩ := hstream.state hrun
    rw [hout now r hsub]
    refine put_mem_putCommit.mpr ⟨hdec, p, hp, ?_, ?_, rfl, rfl, rfl⟩
    · exact UInt32.toNat_inj.mp ((hlive hp).received.symm.trans hlen)
    · rw [(hlive hp).stagedSum_eq hsum, hdigest]

theorem putCommit_hands_over_two_chunks :
    ∃ t answer, run (putStep ramServer) ramConn (putEvents.take 5) = some t ∧
      .put 7 5 [1, 2, 3] 0x030201 answer ∈
          (putOutcome ramServer t (.frame 4 (commitRequest 1 5 0x030201))).2 := by
  have hopen : ∃ t ∈ run (putStep ramServer) ramConn (putEvents.take 5),
      ∃ p ∈ t.sess.streams.lookup 1,
      p.tombstoned = false ∧ p.ns = 7 ∧ p.key = 5 ∧ p.totalLen = 3 ∧ p.buf = [1, 2, 3] := by
        decide +kernel
  obtain ⟨t, ht, p, hp, hlive, hns, hkey, htotal, hbuf⟩ := hopen
  have hhist := LiveAt.history ⟨rfl, rfl, rfl⟩ ht ⟨hp, hlive⟩
  rw [hns, hkey, htotal, hbuf] at hhist
  obtain ⟨answer, hput⟩ := (putCommit_hands_over ramServer (fun _ => rfl) ⟨rfl, rfl, rfl⟩ ht).2.2 4
    (commitRequest 1 5 0x030201) 7 5 3 [1, 2, 3] 0x030201 (by decide)
      (by decide) hhist rfl (by decide)
  exact ⟨t, answer, ht, hput⟩

end Commit

end KVStash.Serving
