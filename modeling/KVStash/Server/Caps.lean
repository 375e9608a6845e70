/- GID: KVStash/Server/Caps
   digest: From the configuration's ceilings to the chunk counter: no sum of the limits wraps. -/

import KVStash.Server.Shared

set_option autoImplicit false

namespace KVStash.Serving

open Foundation Foundation.Run Nvme Wire

variable {σ : Type} {srv : Server σ} {p : PutStream}

/-- What a connection may rely on in its limits, given those of the server. -/
structure WithinFloors (server l : Limits) : Prop where
  floorFrame : floorMaxFrameLen ≤ l.maxFrameLen
  frame_le : l.maxFrameLen ≤ server.maxFrameLen
  floorKeys : floorMaxBatchKeys ≤ l.maxBatchKeys
  keys_le : l.maxBatchKeys ≤ server.maxBatchKeys
  blob_pos : 0 < l.maxBlobLen.toNat
  blob_le : l.maxBlobLen.toNat ≤ l.maxFrameLen.toNat - getRespHeaderSize 1

theorem negotiateLimits_within {server : Limits} (hv : server.Validated) (keys frame : UInt32) :
    WithinFloors server (negotiateLimits server keys frame) := by
  have hfloor : floorMaxFrameLen ≤ (negotiateLimits server keys frame).maxFrameLen :=
    floor_le_negotiateOne hv.floorFrame frame
  have hfits := negotiated_blob_fits hv.floorFrame keys frame
  refine ⟨hfloor, negotiateOne_le _ _ _, floor_le_negotiateOne hv.floorKeys keys,
    negotiateOne_le _ _ _, ?_, ?_⟩
  · have hblob := UInt32.le_iff_toNat_le.mp hv.floorBlob
    have hframe := UInt32.le_iff_toNat_le.mp hfloor
    have hheader : (UInt32.ofNat (getRespHeaderSize 1)).toNat = getRespHeaderSize 1 := by decide
    have hb : floorMaxBlobLen.toNat = 4194304 := rfl
    have hf : floorMaxFrameLen.toNat = 16777216 := rfl
    have hs : getRespHeaderSize 1 = 32 := rfl
    have hroom : UInt32.ofNat (getRespHeaderSize 1) ≤
        (negotiateLimits server keys frame).maxFrameLen :=
      UInt32.le_iff_toNat_le.mpr (by omega)
    have hsub := UInt32.toNat_sub_of_le _ _ hroom
    have hcase : (negotiateLimits server keys frame).maxBlobLen =
        (negotiateLimits server keys frame).maxFrameLen - UInt32.ofNat (getRespHeaderSize 1) ∨
        (negotiateLimits server keys frame).maxBlobLen = server.maxBlobLen := by
      simp only [negotiateLimits]
      split
      · exact .inl rfl
      · exact .inr rfl
    rcases hcase with hcase | hcase
    · rw [hcase]
      omega
    · rw [hcase]
      omega
  · omega

/-- One frame, reaper pass or step of the world on a connection. -/
def frameStep (srv : Server σ) (st : State σ) : PutEvent σ → Option (State σ)
  | .frame now r => some (handleFrame srv now r.hdr r.body st).1
  | .sweep now timeout => some { st with sess := sweepStreams now timeout st.sess }
  | .world f => some { st with store := f st.store }

theorem frameStep_ok {st st' : State σ} {e : PutEvent σ} (hs : SessionOk srv st.sess)
    (hstep : frameStep srv st e = some st') : SessionOk srv st'.sess := by
  cases e with
  | frame now r =>
    obtain rfl := Option.some.inj hstep
    exact handleFrame_ok hs now r.length_eq
  | sweep now timeout =>
    obtain rfl := Option.some.inj hstep
    exact sweepStreams_ok hs now timeout
  | world f =>
    obtain rfl := Option.some.inj hstep
    exact hs

theorem received_add_exact {s : Session} {id : UInt64} {n : UInt32}
    (hs : SessionOk srv s) (hv : srv.cfg.wireLimits.Validated) (hauthed : s.authed = true)
    (hp : s.streams.lookup id = some p) (hlive : p.tombstoned = false)
    (hn : n ≤ s.limits.maxFrameLen) : (p.received + n).toNat = p.received.toNat + n.toNat := by
  obtain ⟨keys, frame, hlim⟩ := hs.negotiated hauthed
  obtain ⟨hok, htotal⟩ := hs.books.streams id p hp
  have hwithin := negotiateLimits_within hv keys frame
  rw [← hlim] at hwithin
  have hreceived := (hok.live hlive).within
  have htotal := UInt32.le_iff_toNat_le.mp htotal
  have hblob := hwithin.blob_le
  have hframe := UInt32.le_iff_toNat_le.mp (UInt32.le_trans hwithin.frame_le hv.capFrame)
  have hn := UInt32.le_iff_toNat_le.mp hn
  have hcap : capMaxFrameLen.toNat = 1073741824 := rfl
  rw [UInt32.toNat_add]
  exact Nat.mod_eq_of_lt (by omega)

theorem buf_within {s : Session} {id : UInt64} (hb : Books srv s)
    (hp : s.streams.lookup id = some p) :
    p.buf.length ≤ p.totalLen.toNat ∧ p.bufCap ≤ p.totalLen.toNat := by
  obtain ⟨hok, -⟩ := hb.streams id p hp
  cases hlive : p.tombstoned with
  | false =>
    have hl := hok.live hlive
    refine ⟨hl.received ▸ hl.within, ?_⟩
    rw [hl.cap]
    split
    · exact le_rfl
    · exact Nat.zero_le _
  | true =>
    have hd := hok.dead hlive
    rw [hd.buf, hd.cap]
    exact ⟨Nat.zero_le _, Nat.zero_le _⟩

theorem putChunk_over (srv : Server σ) (now : ℤ) (h : Header) (body : List UInt8) {st : State σ}
    (hp : st.sess.streams.lookup h.requestID = some p) (hlive : p.tombstoned = false)
    (hpos : h.payloadLen ≠ 0) (hover : p.totalLen < p.received + h.payloadLen) :
    ((putChunk srv now h body st).1.sess.streams.lookup h.requestID).any (·.tombstoned) = true := by
  unfold putChunk
  simp only [hp, hlive, if_neg Bool.false_ne_true, if_neg hpos, if_pos hover, tombstoneLive]
  rw [AList.lookup_insert]
  rfl

/-- For every accepted configuration: whatever is proposed, the negotiated limits keep the floors
and the server's values and leave room for the header of a response; and after every run of a
connection, a chunk within the frame cap is compared with the declared length by an exact sum, kills
its stream if it exceeds it, and no buffer is longer than declared. -/
theorem limits_never_wrap (srv : Server σ) {std : Config.Std} (hcfg : srv.cfg.validate std = []) :
    (∀ keys frame,
      WithinFloors srv.cfg.wireLimits (negotiateLimits srv.cfg.wireLimits keys frame)) ∧
    ∀ (store : σ) (events : List (PutEvent σ)) (t : State σ),
      run (frameStep srv) ⟨newSession srv, store⟩ events = some t → t.sess.authed = true →
      ∀ id p, t.sess.streams.lookup id = some p →
        (p.buf.length ≤ p.totalLen.toNat ∧ p.bufCap ≤ p.totalLen.toNat) ∧
        ∀ (now : ℤ) (h : Header) (body : List UInt8), p.tombstoned = false → h.requestID = id →
          h.payloadLen ≤ t.sess.limits.maxFrameLen →
          (p.received + h.payloadLen).toNat = p.received.toNat + h.payloadLen.toNat ∧
          (p.totalLen.toNat < p.received.toNat + h.payloadLen.toNat →
            ((putChunk srv now h body t).1.sess.streams.lookup id).any (·.tombstoned) = true) := by
  have hv := Config.wireLimits_validated hcfg
  refine ⟨negotiateLimits_within hv, fun store events t hrun hauthed id p hp => ?_⟩
  have hs : SessionOk srv t.sess :=
    run_invariant (C := fun _ _ => True) (I := fun st => SessionOk srv st.sess)
      (fun _ _ _ hs _ hstep => frameStep_ok hs hstep) (newSession_ok srv) along_true hrun
  refine ⟨buf_within hs.books hp, ?_⟩
  rintro now h body hlive rfl hcap
  have hsum := received_add_exact hs hv hauthed hp hlive hcap
  refine ⟨hsum, fun hover => ?_⟩
  have hwithin := ((hs.books.streams _ p hp).1.live hlive).within
  refine putChunk_over srv now h body hp hlive (fun hzero => ?_)
    (UInt32.lt_iff_toNat_lt.mpr (hsum ▸ hover))
  rw [hzero] at hover
  have : (0 : UInt32).toNat = 0 := rfl
  omega

/-- With the default configuration: two bytes of a block of three, and a chunk of two more. -/
theorem limits_never_wrap_overlong :
    ∃ t p, run (frameStep ramServer) ⟨newSession ramServer, ∅⟩
      [.frame 0 narrowHello, .frame 0 (beginRequest 1 5 3),
        .frame 1 (chunkRequest 1 5 [1, 2] (by decide))] = some t ∧
      t.sess.streams.lookup 1 = some p ∧ p.received = 2 ∧ p.buf.length ≤ p.totalLen.toNat ∧
      ((putChunk ramServer 2 (chunkRequest 1 5 [3, 4] (by decide)).hdr [3,
        4] t).1.sess.streams.lookup 1).any (·.tombstoned) = true := by
  have hcfg : ramServer.cfg.validate ⟨fun _ => none, id⟩ = [] :=
    Config.validate_default fun _ _ => rfl
  have hany : ∃ t ∈ run (frameStep ramServer) ⟨newSession ramServer, ∅⟩ [.frame 0 narrowHello,
      .frame 0 (beginRequest 1 5 3), .frame 1 (chunkRequest 1 5 [1, 2] (by decide))],
        t.sess.authed ∧ 2 ≤ t.sess.limits.maxFrameLen ∧ ∃ p ∈ t.sess.streams.lookup 1,
          p.tombstoned = false ∧ p.received = 2 ∧ p.totalLen = 3 := by decide +kernel
  obtain ⟨t, hrun, hauthed, hcap, p, hp, hlive, hreceived, htotal⟩ := hany
  obtain ⟨hbuf, hchunk⟩ := (limits_never_wrap ramServer hcfg).2 ∅ _ t hrun hauthed 1 p hp
  refine ⟨t, p, hrun, hp, hreceived, hbuf.1, (hchunk 2 _ [3, 4] hlive rfl hcap).2 ?_⟩
  rw [htotal, hreceived]
  decide

end KVStash.Serving
