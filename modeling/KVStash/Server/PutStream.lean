/- GID: KVStash/Server/PutStream
   digest: The PUT_STREAM state machine: its stream table, its counters and caps, kept by every
     frame and sweep. -/

import KVStash.Server.Session
import KVStash.Foundation.Run

set_option autoImplicit false

namespace KVStash.Serving

open Foundation Nvme Wire Table

variable {σ : Type} {p p' : PutStream} {id id' : UInt64}

/-! ## What holds of a stream and of the table -/

/-- The hasher's side of a live stream: nothing staged, a block that came in one chunk, or a hasher
fed with every chunk so far. -/
inductive Hashed (srv : Server σ) (p : PutStream) : Prop where
  | empty (hbuf : p.buf = []) (hdigest : p.digest = none)
  | oneShot (hdigest : p.digest = none) (hfull : p.received = p.totalLen) (hpos : 0 < p.received)
      (hsum : p.oneShot = srv.xxh3 p.buf)
  | streaming {written : List (List UInt8)} (hdigest : p.digest = some written)
      (hbytes : written.flatten = p.buf)

/-- A live stream: the buffer holds what was received, within the declared length it is reserved
for. -/
structure Live (srv : Server σ) (p : PutStream) : Prop where
  received : p.buf.length = p.received.toNat
  within : p.received.toNat ≤ p.totalLen.toNat
  cap : p.bufCap = if p.allocated then p.totalLen.toNat else 0
  unallocated : p.allocated = false → p.buf = []
  hashed : Hashed srv p

/-- A tombstone has given its staging and its hasher back. -/
structure Dead (p : PutStream) : Prop where
  buf : p.buf = []
  cap : p.bufCap = 0
  digest : p.digest = none

def StreamOk (srv : Server σ) (p : PutStream) : Prop := if p.tombstoned then Dead p else Live srv p

def liveOne (_ : UInt64) (p : PutStream) : ℕ := if p.tombstoned then 0 else 1

def liveBytes (_ : UInt64) (p : PutStream) : ℕ := if p.tombstoned then 0 else p.received.toNat

def liveCap (_ : UInt64) (p : PutStream) : ℕ := if p.tombstoned then 0 else p.bufCap

/-- The session's books: every stream is in order, the two counters are what they count, and no cap
is exceeded. -/
structure Books (srv : Server σ) (s : Session) : Prop where
  streams : ∀ id p, s.streams.lookup id = some p → StreamOk srv p ∧ p.totalLen ≤ s.limits.maxBlobLen
  live : s.liveStreams = total liveOne s.streams
  staged : s.stagedBytes = total liveBytes s.streams
  liveCap : total liveOne s.streams ≤ maxLiveStreams
  entries : size s.streams ≤ maxStreamEntries
  stagedCap : total liveBytes s.streams ≤ maxStagedPerConn

theorem StreamOk.live {srv : Server σ} (h : StreamOk srv p) (hp : p.tombstoned = false) :
    Live srv p := by
  rwa [StreamOk, hp, if_neg Bool.false_ne_true] at h

theorem StreamOk.dead {srv : Server σ} (h : StreamOk srv p) (hp : p.tombstoned = true) :
    Dead p := by
  rwa [StreamOk, if_pos hp] at h

section Table

variable {srv : Server σ} {s : Session} {id : UInt64} {p : PutStream}

theorem lookup_insert_cases {t : Table UInt64 PutStream}
    (h : (t.insert id p).lookup id' = some p') : p' = p ∨ t.lookup id' = some p' := by
  by_cases hid : id' = id
  · subst hid
    rw [AList.lookup_insert, Option.some.injEq] at h
    exact .inl h.symm
  · rw [AList.lookup_insert_ne hid] at h
    exact .inr h

theorem Books.erase (hb : Books srv s) (hp : s.streams.lookup id = some p) :
    Books srv { s with
      streams := s.streams.erase id
      liveStreams := s.liveStreams - liveOne id p
      stagedBytes := s.stagedBytes - liveBytes id p } := by
  have h1 := total_erase liveOne hp
  have h2 := total_erase liveBytes hp
  have hsize := size_erase_le s.streams id
  have := hb.live
  have := hb.staged
  have := hb.liveCap
  have := hb.entries
  have := hb.stagedCap
  refine ⟨fun id' p' h => hb.streams id' p' (lookup_of_erase h), ?_, ?_, ?_, ?_, ?_⟩
    <;> dsimp only <;> omega

theorem Books.replace (hb : Books srv s) (hp : s.streams.lookup id = some p) (p' : PutStream)
    (hok : StreamOk srv p') (htotal : p'.totalLen = p.totalLen)
    (hone : liveOne id p' ≤ liveOne id p)
    (hcap : total liveBytes s.streams + liveBytes id p' ≤ maxStagedPerConn + liveBytes id p) :
    Books srv { s with
      streams := s.streams.insert id p'
      liveStreams := s.liveStreams - liveOne id p + liveOne id p'
      stagedBytes := s.stagedBytes - liveBytes id p + liveBytes id p' } := by
  have h1 := total_update liveOne hp p'
  have h2 := total_update liveBytes hp p'
  have hsize := size_update hp p'
  have := hb.live
  have := hb.staged
  have := hb.liveCap
  have := hb.entries
  have := hb.stagedCap
  refine ⟨fun id' q h => ?_, ?_, ?_, ?_, ?_, ?_⟩
  · rcases lookup_insert_cases h with rfl | h
    · exact ⟨hok, htotal ▸ (hb.streams id p hp).2⟩
    · exact hb.streams id' q h
  all_goals dsimp only; omega

theorem Books.begin (hb : Books srv s)
    (hid : ∀ p, s.streams.lookup id = some p → p.tombstoned = true)
    (hlive : s.liveStreams < maxLiveStreams) (hsize : size s.streams < maxStreamEntries)
    (hok : Live srv p') (hp' : p'.tombstoned = false) (hnone : p'.received = 0)
    (htotal : p'.totalLen ≤ s.limits.maxBlobLen) :
    Books srv { s with liveStreams := s.liveStreams + 1, streams := s.streams.insert id p' } := by
  have hone : liveOne id p' = 1 := by simp [liveOne, hp']
  have hbytes : liveBytes id p' = 0 := by simp [liveBytes, hnone]
  have hshare : ∀ f : UInt64 → PutStream → ℕ, (∀ p, p.tombstoned = true → f id p = 0) →
      total f (s.streams.insert id p') = f id p' + total f s.streams := by
    intro f hf
    cases hl : s.streams.lookup id with
    | none => exact total_insert_new f hl p'
    | some p =>
      have := total_update f hl p'
      rwa [hf p (hid p hl), Nat.zero_add] at this
  have h1 := hshare liveOne (fun p hp => by simp [liveOne, hp])
  have h2 := hshare liveBytes (fun p hp => by simp [liveBytes, hp])
  have h3 := size_insert_le s.streams id p'
  have := hb.live
  have := hb.staged
  have := hb.stagedCap
  refine ⟨fun id' q h => ?_, ?_, ?_, ?_, ?_, ?_⟩
  · rcases lookup_insert_cases h with rfl | h
    · rw [StreamOk, hp', if_neg Bool.false_ne_true]
      exact ⟨hok, htotal⟩
    · exact hb.streams id' q h
  all_goals dsimp only; omega

theorem Books.share (hb : Books srv s) (hp : s.streams.lookup id = some p)
    (hlive : p.tombstoned = false) : liveOne id p = 1 ∧ liveBytes id p = p.buf.length := by
  simp [liveOne, liveBytes, hlive, ((hb.streams id p hp).1.live hlive).received]

theorem Books.tombstone (hb : Books srv s) (hp : s.streams.lookup id = some p)
    (hlive : p.tombstoned = false) (now : ℤ) : Books srv (tombstoneLive id p now s) := by
  obtain ⟨hone, hbytes⟩ := hb.share hp hlive
  have hle := le_total (g := liveBytes) hp
  have hcap := hb.stagedCap
  have := hb.replace hp
    { p with
      buf := [], bufCap := 0, allocated := false, digest := none, tombstoned := true
      tombstonedAt := now }
    (by rw [StreamOk, if_pos rfl]; exact ⟨rfl, rfl, rfl⟩) rfl (by simp [liveOne])
    (by simp [liveBytes]; omega)
  rw [hone, hbytes] at this
  simpa [tombstoneLive, liveOne, liveBytes] using this

end Table

/-! ## Chunks -/

section Chunk

variable {srv : Server σ} {p : PutStream} {n : UInt32} {body : List UInt8}

theorem appendChunk_fields (srv : Server σ) (n : UInt32) (body : List UInt8) (now : ℤ)
    (p : PutStream) :
    (appendChunk srv n body now p).buf = p.buf ++ body ∧
      (appendChunk srv n body now p).received = p.received + n ∧
      (appendChunk srv n body now p).totalLen = p.totalLen ∧
        (appendChunk srv n body now p).tombstoned = p.tombstoned ∧
      (appendChunk srv n body now p).ns = p.ns ∧ (appendChunk srv n body now p).key = p.key ∧
      (appendChunk srv n body now p).allocated = true ∧
      (appendChunk srv n body now p).bufCap =
        max (if p.allocated then p.bufCap else p.totalLen.toNat) (p.buf ++ body).length := by
  unfold appendChunk
  dsimp only
  split
  · exact ⟨rfl, rfl, rfl, rfl, rfl, rfl, rfl, rfl⟩
  · split_ifs <;> exact ⟨rfl, rfl, rfl, rfl, rfl, rfl, rfl, rfl⟩

theorem Hashed.append (hh : Hashed srv p)
    (hsum : (p.received + n).toNat = p.received.toNat + n.toNat) (hpos : n ≠ 0) (now : ℤ) :
    Hashed srv (appendChunk srv n body now p) := by
  have hn : 0 < n.toNat := Nat.pos_of_ne_zero fun h => hpos (UInt32.toNat_inj.mp h)
  have hgrow : 0 < p.received + n :=
    UInt32.lt_iff_toNat_lt.mpr (by rw [hsum]; exact Nat.lt_add_left _ hn)
  unfold appendChunk
  dsimp only
  cases hd : p.digest with
  | some written =>
    dsimp only
    cases hh with
    | empty _ hd' => exact absurd (hd.symm.trans hd') nofun
    | oneShot hd' => exact absurd (hd.symm.trans hd') nofun
    | streaming hd' hbytes =>
      obtain rfl := Option.some.inj (hd.symm.trans hd')
      refine .streaming rfl ?_
      rw [List.flatten_append, hbytes, List.flatten_singleton]
  | none =>
    dsimp only
    by_cases hfull : p.received + n = p.totalLen
    · rw [if_pos hfull]
      exact .oneShot rfl hfull hgrow rfl
    · rw [if_neg hfull]
      exact .streaming rfl List.flatten_singleton

theorem Live.append (hl : Live srv p) (hbody : body.length = n.toNat)
    (hsum : (p.received + n).toNat = p.received.toNat + n.toNat) (hpos : n ≠ 0)
    (hfit : p.received + n ≤ p.totalLen) (now : ℤ) : Live srv (appendChunk srv n body now p) := by
  obtain ⟨hbuf, hrec, htot, -, -, -, halloc, hcap⟩ := appendChunk_fields srv n body now p
  have hle := UInt32.le_iff_toNat_le.mp hfit
  have hlen := hl.received
  refine ⟨?_, ?_, ?_, ?_, hl.hashed.append hsum hpos now⟩
  · rw [hbuf, hrec, hsum, List.length_append, hlen, hbody]
  · rwa [hrec, htot]
  · have hfirst : (if p.allocated then p.bufCap else p.totalLen.toNat) = p.totalLen.toNat := by
      split_ifs with ha
      · rw [hl.cap, if_pos ha]
      · rfl
    rw [hcap, halloc, if_pos rfl, htot, hfirst, List.length_append, hlen, hbody, ← hsum]
    exact Nat.max_eq_left hle
  · rw [halloc]
    exact nofun

end Chunk

/-! ## Every frame keeps the books -/

section Frames

variable {srv : Server σ} {st : State σ} {s : Session} {body : List UInt8}

theorem putBegin_books (hb : Books srv st.sess) (now : ℤ) (h : Header) (body : List UInt8) :
    Books srv (putBegin srv now h body st).1.sess := by
  unfold putBegin
  cases hdec : decodePutBegin body with
  | error e => exact hb
  | ok b =>
    dsimp only
    split_ifs with hdup hsealed hlarge hquota hbusy
    · exact hb
    · exact hb
    · exact hb
    · exact hb
    · exact hb
    rw [not_or, not_le, not_le] at hbusy
    refine hb.begin (fun p hp => ?_) hbusy.1 hbusy.2 ?_ rfl rfl (UInt32.not_lt.mp hlarge)
    · rw [hp] at hdup
      simpa using hdup
    · exact ⟨rfl, Nat.zero_le _, rfl, fun _ => rfl, .empty rfl rfl⟩

theorem Books.append (hb : Books srv st.sess) (hp : st.sess.streams.lookup id = some p)
    (hlive : p.tombstoned = false) {n : UInt32} (hbody : body.length = n.toNat) (hpos : n ≠ 0)
    (hfit : ¬p.totalLen < p.received + n)
    (hcap : ¬(maxStagedPerConn : ℤ) < st.sess.stagedBytes + n.toNat) (now : ℤ) :
    (p.received + n).toNat = p.received.toNat + n.toNat ∧ Books srv { st.sess with
      streams := st.sess.streams.insert id (appendChunk srv n body now p)
      stagedBytes := st.sess.stagedBytes + n.toNat } := by
  obtain ⟨hbuf, hrec, htot, htomb, -⟩ := appendChunk_fields srv n body now p
  have hl := (hb.streams id p hp).1.live hlive
  have hle := le_total (g := liveBytes) hp
  have hstaged := hb.staged
  obtain ⟨hone, hbytes⟩ := hb.share hp hlive
  have hsum : (p.received + n).toNat = p.received.toNat + n.toNat := by
    have hrcv := hl.received
    rw [UInt32.toNat_add]
    refine Nat.mod_eq_of_lt ?_
    unfold maxStagedPerConn at hcap
    omega
  have happ := hl.append hbody hsum hpos (UInt32.not_lt.mp hfit) now
  have hone' : liveOne id (appendChunk srv n body now p) = 1 := by simp [liveOne, htomb, hlive]
  have hbytes' : liveBytes id (appendChunk srv n body now p) = p.buf.length + n.toNat := by
    simp [liveBytes, htomb, hlive, hrec, hsum, hl.received]
  have hnew := hb.replace hp (appendChunk srv n body now p)
    (by rw [StreamOk, htomb, hlive, if_neg Bool.false_ne_true]; exact happ) htot
      (by omega) (by omega)
  refine ⟨hsum, ?_⟩
  rw [hone, hbytes, hone', hbytes'] at hnew
  have e1 : st.sess.liveStreams - ((1 : ℕ) : ℤ) + ((1 : ℕ) : ℤ) = st.sess.liveStreams := by ring
  have e2 : st.sess.stagedBytes - (p.buf.length : ℤ) + ((p.buf.length + n.toNat : ℕ) : ℤ) =
      st.sess.stagedBytes + n.toNat := by push_cast; ring
  rwa [e1, e2] at hnew

theorem putChunk_books (hb : Books srv st.sess) (now : ℤ) {h : Header}
    (hbody : body.length = h.payloadLen.toNat) : Books srv (putChunk srv now h body st).1.sess := by
  unfold putChunk
  dsimp only
  cases hp : st.sess.streams.lookup h.requestID with
  | none => exact hb
  | some p =>
    dsimp only
    split_ifs with htomb hzero hover hcap
    · exact hb
    · exact hb
    · exact hb.tombstone hp (Bool.not_eq_true _ ▸ htomb) now
    · exact hb.tombstone hp (Bool.not_eq_true _ ▸ htomb) now
    · exact (hb.append hp (Bool.not_eq_true _ ▸ htomb) hbody hzero hover hcap now).2

theorem Books.remove (hb : Books srv s)
    (hp : s.streams.lookup id = some p) (hlive : p.tombstoned = false) :
    Books srv { s with
      streams := s.streams.erase id, liveStreams := s.liveStreams - 1, stagedBytes :=
        s.stagedBytes - p.buf.length } := by
  obtain ⟨hone, hbytes⟩ := hb.share hp hlive
  have := hb.erase hp
  rwa [hone, hbytes, Nat.cast_one] at this

theorem Books.bury (hb : Books srv s)
    (hp : s.streams.lookup id = some p) (hdead : p.tombstoned = true) :
    Books srv { s with streams := s.streams.erase id } := by
  have hone : liveOne id p = 0 := by simp [liveOne, hdead]
  have hbytes : liveBytes id p = 0 := by simp [liveBytes, hdead]
  have := hb.erase hp
  rwa [hone, hbytes, Nat.cast_zero, Int.sub_zero, Int.sub_zero] at this

theorem putCommit_books (hb : Books srv st.sess) (h : Header) (body : List UInt8) :
    Books srv (putCommit srv h body st).1.sess := by
  unfold putCommit
  cases hdec : decodePutCommit body with
  | error e => exact hb
  | ok sum =>
    dsimp only
    cases hp : st.sess.streams.lookup h.requestID with
    | none => exact hb
    | some p =>
      dsimp only
      by_cases htomb : p.tombstoned = true
      · rw [if_pos htomb]
        exact hb.bury hp htomb
      · rw [if_neg htomb]
        have hout := hb.remove hp (Bool.not_eq_true _ ▸ htomb)
        split_ifs <;> exact hout

theorem putAbort_books (hb : Books srv st.sess) (h : Header) :
    Books srv (putAbort h st).1.sess := by
  unfold putAbort
  dsimp only
  cases hp : st.sess.streams.lookup h.requestID with
  | none => exact hb
  | some p =>
    dsimp only
    by_cases htomb : p.tombstoned = true
    · have hdead := (hb.streams _ p hp).1.dead htomb
      have := hb.bury hp htomb
      rw [if_pos htomb, hdead.buf, List.length_nil, Nat.cast_zero, Int.sub_zero]
      exact this
    · rw [if_neg htomb]
      exact hb.remove hp (Bool.not_eq_true _ ▸ htomb)

theorem handlePutStream_books (hb : Books srv st.sess) (now : ℤ) {h : Header}
    (hbody : body.length = h.payloadLen.toNat) :
    Books srv (handlePutStream srv now h body st).1.sess := by
  unfold handlePutStream
  split_ifs
  · exact putBegin_books hb now h body
  · exact putChunk_books hb now hbody
  · exact putCommit_books hb h body
  · exact putAbort_books hb h
  · exact hb

theorem sweepOne_books (hb : Books srv s) (now timeout : ℤ) (id : UInt64) :
    Books srv (sweepOne now timeout s id) := by
  unfold sweepOne
  cases hp : s.streams.lookup id with
  | none => exact hb
  | some p =>
    dsimp only
    split_ifs with htomb hold hidle
    · exact hb.bury hp htomb
    · exact hb
    · exact hb.tombstone hp (Bool.not_eq_true _ ▸ htomb) now
    · exact hb

theorem sweepStreams_books (hb : Books srv s) (now timeout : ℤ) :
    Books srv (sweepStreams now timeout s) := by
  unfold sweepStreams
  generalize s.streams.keys = ids
  induction ids generalizing s with
  | nil => exact hb
  | cons id ids ih => exact ih (sweepOne_books hb now timeout id)

end Frames

end KVStash.Serving
