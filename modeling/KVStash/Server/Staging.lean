/- GID: KVStash/Server/Staging
   digest: The staging capacity reserved for the live PUT streams of a connection, against the cap
     on staged bytes. -/

import KVStash.Server.PutRuns

set_option autoImplicit false

namespace KVStash.Serving

open Foundation Foundation.Run Nvme Wire

variable {σ : Type}

/-- The buffer capacity reserved for the live streams. -/
def reserved (s : Session) : ℕ := Table.total liveCap s.streams

def liveTotal (_ : UInt64) (p : PutStream) : ℕ := if p.tombstoned then 0 else p.totalLen.toNat

def declared (s : Session) : ℕ := Table.total liveTotal s.streams

theorem reserved_le_declared {srv : Server σ} {s : Session} (hb : Books srv s) :
    reserved s ≤ declared s := by
  refine Table.total_mono fun id p hp => ?_
  unfold liveCap liveTotal
  split_ifs with htomb
  · exact le_refl _
  have hl := (hb.streams id p hp).1.live (Bool.not_eq_true _ ▸ htomb)
  rw [hl.cap]
  split_ifs
  · exact le_refl _
  · exact Nat.zero_le _

/-- The length that an event declares: that of a well-formed BEGIN, and nothing otherwise. -/
def declaredBy : PutEvent σ → ℕ
  | .frame _ r =>
    if subOp r.hdr.flags = putBeginOp then
      match decodePutBegin r.body with
      | .ok b => b.totalLen.toNat
      | .error _ => 0
    else 0
  | _ => 0

/-- A BEGIN declares no more than what the live streams leave of the cap. -/
def DeclaresWithin (u : State σ) (e : PutEvent σ) : Prop :=
  declaredBy e = 0 ∨ declared u.sess + declaredBy e ≤ maxStagedPerConn

instance (u : State σ) (e : PutEvent σ) : Decidable (DeclaresWithin u e) :=
  inferInstanceAs (Decidable (_ ∨ _))

theorem declared_erase_le (s : Session) (id : UInt64) :
    Table.total liveTotal (s.streams.erase id) ≤ declared s := by
  cases hp : s.streams.lookup id with
  | none => rw [Table.erase_of_lookup_none hp]; exact le_refl _
  | some p => exact le_trans (Nat.le_add_left _ _) (Table.total_erase liveTotal hp).le

theorem declared_tombstone_le {s : Session} {id : UInt64} {p : PutStream}
    (hp : s.streams.lookup id = some p) (now : ℤ) :
    declared (tombstoneLive id p now s) ≤ declared s := by
  have := Table.total_update liveTotal hp
    { p with
      buf := [], bufCap := 0, allocated := false, digest := none, tombstoned := true
      tombstonedAt := now }
  simp only [liveTotal, if_true, Nat.zero_add] at this
  exact le_trans (Nat.le_add_left _ _) this.le

theorem declared_sweep_le (now timeout : ℤ) (s : Session) :
    declared (sweepStreams now timeout s) ≤ declared s := by
  have hone : ∀ (s : Session) (id : UInt64), declared (sweepOne now timeout s id) ≤ declared s := by
    intro s id
    unfold sweepOne
    cases hp : s.streams.lookup id with
    | none => exact le_refl _
    | some p =>
      dsimp only
      split_ifs
      · exact declared_erase_le s id
      · exact le_refl _
      · exact declared_tombstone_le hp now
      · exact le_refl _
  unfold sweepStreams
  generalize s.streams.keys = ids
  induction ids generalizing s with
  | nil => exact le_refl _
  | cons id ids ih => exact (ih _).trans (hone s id)

theorem declared_chunk_le (srv : Server σ) (now : ℤ) (h : Header) (body : List UInt8)
    (u : State σ) : declared (putChunk srv now h body u).1.sess ≤ declared u.sess := by
  unfold putChunk
  dsimp only
  cases hp : u.sess.streams.lookup h.requestID with
  | none => exact le_refl _
  | some p =>
    dsimp only
    split_ifs
    · exact le_refl _
    · exact le_refl _
    · exact declared_tombstone_le hp now
    · exact declared_tombstone_le hp now
    obtain ⟨-, -, htot, htomb, -⟩ := appendChunk_fields srv h.payloadLen body now p
    have := Table.total_update liveTotal hp (appendChunk srv h.payloadLen body now p)
    have hsame : liveTotal h.requestID (appendChunk srv h.payloadLen body now p) =
        liveTotal h.requestID p := by
      simp [liveTotal, htot, htomb]
    unfold declared
    dsimp only
    omega

theorem declared_commit_le (srv : Server σ) (h : Header) (body : List UInt8) (u : State σ) :
    declared (putCommit srv h body u).1.sess ≤ declared u.sess := by
  unfold putCommit
  cases decodePutCommit body with
  | error e => exact le_refl _
  | ok sum =>
    dsimp only
    cases u.sess.streams.lookup h.requestID with
    | none => exact le_refl _
    | some p =>
      dsimp only
      split_ifs <;> exact declared_erase_le u.sess h.requestID

theorem declared_abort_le (h : Header) (u : State σ) :
    declared (putAbort h u).1.sess ≤ declared u.sess := by
  unfold putAbort
  dsimp only
  cases u.sess.streams.lookup h.requestID with
  | none => exact le_refl _
  | some p => exact declared_erase_le u.sess h.requestID

theorem declared_begin_le (srv : Server σ) (now : ℤ) (h : Header) {body : List UInt8}
    {b : PutBeginBody} (hdec : decodePutBegin body = .ok b) (u : State σ) :
    declared (putBegin srv now h body u).1.sess ≤ declared u.sess + b.totalLen.toNat := by
  unfold putBegin
  rw [hdec]
  dsimp only
  split_ifs
  · exact Nat.le_add_right _ _
  · exact Nat.le_add_right _ _
  · exact Nat.le_add_right _ _
  · exact Nat.le_add_right _ _
  · exact Nat.le_add_right _ _
  · unfold declared
    rw [Table.total_insert, Nat.add_comm]
    exact Nat.add_le_add (declared_erase_le u.sess h.requestID) (le_of_eq rfl)

theorem declared_outcome_le {srv : Server σ} {u : State σ} {e : PutEvent σ}
    (hcap : declared u.sess ≤ maxStagedPerConn) (hfit : DeclaresWithin u e) :
    declared (putOutcome srv u e).1.sess ≤ maxStagedPerConn := by
  cases e with
  | world f => exact hcap
  | sweep now timeout => exact (declared_sweep_le now timeout u.sess).trans hcap
  | frame now r =>
    simp only [putOutcome, handlePutStream]
    split_ifs with hbegin hchunk hcommit habort
    · cases hdec : decodePutBegin r.body with
      | error err =>
        unfold putBegin
        rw [hdec]
        exact hcap
      | ok b =>
        have hby : declaredBy (.frame now r : PutEvent σ) = b.totalLen.toNat := by
          simp only [declaredBy, if_pos hbegin, hdec]
        refine (declared_begin_le srv now r.hdr hdec u).trans ?_
        rw [DeclaresWithin, hby] at hfit
        omega
    · exact (declared_chunk_le srv now r.hdr r.body u).trans hcap
    · exact (declared_commit_le srv r.hdr r.body u).trans hcap
    · exact (declared_abort_le r.hdr u).trans hcap
    · exact hcap

/-- Where no BEGIN declares more than the live streams leave of the cap, the capacity reserved for
the live streams stays within it in every state reached. -/
theorem reserved_le_cap (srv : Server σ) {s t : State σ} {events : List (PutEvent σ)}
    (h0 : Fresh s.sess) (hfit : Along (putStep srv) DeclaresWithin s events)
    (hrun : run (putStep srv) s events = some t) : reserved t.sess ≤ maxStagedPerConn := by
  have hdecl : declared t.sess ≤ maxStagedPerConn := by
    refine run_invariant (I := fun st => declared st.sess ≤ maxStagedPerConn) ?_ ?_ hfit hrun
    · intro u e t' hu he hs
      exact Option.some.inj hs ▸ declared_outcome_le hu he
    · rw [declared, h0.streams]
      exact Nat.zero_le _
  exact (reserved_le_declared (run_books h0 hrun)).trans hdecl

theorem reserved_le_cap_two_streams :
    ∃ t, run (putStep ramServer) ramConn putEvents = some t ∧
      reserved t.sess ≤ maxStagedPerConn := by
  obtain ⟨t, ht⟩ : ∃ t, run (putStep ramServer) ramConn putEvents = some t := ⟨_, rfl⟩
  exact ⟨t, ht, reserved_le_cap ramServer ⟨rfl, rfl, rfl⟩ (by decide +kernel) ht⟩

/-- Nine streams of the default block length, each with one byte of it. -/
def oneByteStreams : List (PutEvent Ram) :=
  (List.range 9).flatMap fun i =>
    [.frame 0 (beginRequest (UInt64.ofNat i) i defaultMaxBlobLen),
      .frame 0 (chunkRequest (UInt64.ofNat i) i [1] (by decide))]

/-- Nine staged bytes hold 288 MiB of buffers, over the cap of 256 MiB. -/
theorem reserved_exceeds_cap :
    ((run (putStep ramServer) ramConn oneByteStreams).any fun t =>
      t.sess.stagedBytes = 9 ∧ reserved t.sess = 301989888 ∧ maxStagedPerConn < reserved t.sess) =
        true := by
  decide +kernel

end KVStash.Serving
