/- GID: KVStash/Client/RoundTrip
   digest: A BATCH_GET from the client's request over the server's split response back to statuses
     and blocks. -/

import KVStash.Client.Get

set_option autoImplicit false

namespace KVStash.Client

open Foundation.Bytes Nvme Wire Serving List

variable {σ : Type}

/-! ## The wire between them -/

def creditFrame (credit : UInt32) : Header := ⟨opNop, 0, 0, credit, 0, 0, 0⟩

theorem nextHeader_creditFrame (dg : Digests) (credit : UInt32) (rest : List UInt8) :
    nextHeader dg ((creditFrame credit).marshal dg ++ rest) = nextHeader dg rest :=
  @nextHeader_credit [] _ dg (UInt32.zero_le (a := defaultMaxFrameLen))
    (by simp [isCredit, creditFrame]) rfl rest

/-- The bytes of queued frames on the wire: each frame with the credit the writer stamped on its
header, and before a frame any number of credit frames. -/
inductive OnWire (dg : Digests) : List Effect → List UInt8 → Prop where
  | nil : OnWire dg [] []
  | frame {h : Header} {bufs : List (List UInt8)} {effects : List Effect} {s : List UInt8}
      (credit : UInt32) :
      OnWire dg effects s →
      OnWire dg (.write h bufs :: effects)
        (({ h with credit := credit } : Header).marshal dg ++ (bufs.flatten ++ s))
  | credit {effects : List Effect} {s : List UInt8} (credit : UInt32) :
      effects ≠ [] → OnWire dg effects s → OnWire dg effects ((creditFrame credit).marshal dg ++ s)

def Queued (keys : ℕ) (plan : List ResponseFrame) (effects : List Effect) : Prop :=
  List.Forall₂ (fun f e => ∃ h : Header, e = .write h (f.bufs keys) ∧ h.opcode = opBatchGet ∧
    h.flags = f.flags ∧
    h.payloadLen.toNat = frameLen f.answers) plan effects

theorem Queued.exists_onWire {keys : ℕ} {plan : List ResponseFrame} {effects : List Effect}
    (h : Queued keys plan effects) (dg : Digests) : ∃ s, OnWire dg effects s := by
  induction h with
  | nil => exact ⟨[], .nil⟩
  | cons hd _ ih =>
    obtain ⟨h, rfl, -⟩ := hd
    exact ih.imp' _ fun _ => .frame 0

theorem fail_error (hash : List UInt8 → UInt64) (g : GetState) (e : ReadError) :
    ∃ e', (fail hash g e).2 = .error e' := by
  unfold fail
  dsimp only
  split
  · exact ⟨_, rfl⟩
  · exact ⟨_, rfl⟩

/-- What the client is left with after the frames of a response: all the answers, if every frame
keeps to its cap, and an error if one does not. -/
def ReadsBack (into : List (Option (List UInt8))) (answers : List Fetched)
    (tail : List UInt8) (caps : Prop) (r : GetState × Except ReadError (List Status) × List UInt8) :
    Prop :=
  (caps → r.2 = (.ok (answers.map fun f => f.desc.status), tail) ∧ r.1.into = merge answers into) ∧
    (¬caps → ∃ e, r.2.1 = .error e)

theorem Reads.readGetLoop {dg : Digests} {hash : List UInt8 → UInt64} {verify : Bool}
    {pace : ℕ → ℕ} {keys : ℕ} {into : List (Option (List UInt8))} (h32 : keys < 2 ^ 32)
    (hinto : into.length = keys) {effects : List Effect} {s : List UInt8}
    (hwire : OnWire dg effects s) (tail : List UInt8) {plan : List ResponseFrame}
    (hqueued : Queued keys plan effects)
    (hsum : verify = true → ∀ f ∈ plan, ∀ a ∈ f.answers, a.hit = true → hash a.data = a.sum)
    {done : List Fetched} {g : GetState} (hr : Reads hash keys into done g)
    (hgot : g.got = done.length) (hsplit : Splits keys done.length plan)
    (hsize : ∀ f ∈ plan, ∀ a ∈ f.answers, a.blen < 2 ^ 32) :
    ReadsBack into (done ++ answersOf plan) tail
      (∀ f ∈ plan, frameLen f.answers ≤ defaultMaxFrameLen.toNat)
      (readGetLoop dg hash verify pace keys g (s ++ tail)) := by
  induction hwire generalizing plan done g with
  | nil =>
    cases hqueued
    exact hsplit.elim
  | credit credit _ _ ih =>
    rw [append_assoc, readGetLoop_congr (nextHeader_creditFrame dg credit _)]
    exact ih hqueued hsum hr hgot hsplit hsize
  | @frame hd bufs effects s credit hw ih =>
    obtain ⟨f, plan, rfl⟩ : ∃ f plan', plan = f :: plan' := by
      cases hqueued
      exact ⟨_, _, rfl⟩
    obtain ⟨⟨hd, he, hop, hflags, hlen⟩, hrest⟩ := forall₂_cons.mp hqueued
    obtain ⟨rfl, rfl⟩ := Effect.write.inj he
    obtain ⟨hfirst, hmore, hroom⟩ := hsplit.head
    rw [append_assoc, append_assoc]
    by_cases hcap : frameLen f.answers ≤ defaultMaxFrameLen.toNat
    · have hpay : hd.payloadLen ≤ defaultMaxFrameLen := UInt32.le_iff_toNat_le.mpr (hlen ▸ hcap)
      have hnotNop : isCredit ({ hd with credit := credit } : Header) = false := by
        simp [isCredit, hop, opBatchGet, opNop]
      have hnext := nextHeader_marshal dg (h := { hd with credit := credit }) hpay hnotNop
        ((f.bufs keys).flatten ++ (s ++ tail))
      obtain ⟨g₁, hframe, hr₁, hgot₁⟩ := hr.readGetFrame pace hfirst hroom h32 hinto
        (hsize f mem_cons_self) (fun hv => hsum hv f mem_cons_self)
          (h := { hd with credit := credit }) hlen
        (s ++ tail)
      have hanswers : done ++ answersOf (f :: plan) = (done ++ f.answers) ++ answersOf plan := by
        rw [answersOf, flatMap_cons, ← append_assoc]
        rfl
      have hcaps : (∀ x ∈ f :: plan, frameLen x.answers ≤ defaultMaxFrameLen.toNat) ↔
          ∀ x ∈ plan, frameLen x.answers ≤ defaultMaxFrameLen.toNat := by
        rw [forall_mem_cons, and_iff_right hcap]
      rw [readGetLoop_frame hnext hframe, hanswers, hflags]
      simp only [ReadsBack, hcaps]
      cases plan with
      | nil =>
        cases hrest
        have hs : s = [] := by
          cases hw with
          | nil => rfl
          | credit _ hne _ => exact absurd rfl hne
        have hend : done.length + f.answers.length = keys := hsplit.2.2
        obtain ⟨g', hfin, hslots⟩ :=
          hr₁.finish (by rw [length_append, hend]) hinto (by omega) (s ++ tail)
        have hflag : f.flags &&& flagMore = 0 := by
          rw [ResponseFrame.flags, hmore]
          exact (by decide : flagResp &&& flagMore = 0)
        rw [if_pos hflag, hfin, hs]
        simp [answersOf, hslots]
      | cons f' fs =>
        have hsplit' : Splits keys (done ++ f.answers).length (f' :: fs) := by
          rw [length_append]
          exact hsplit.2.2
        have hflag : ¬f.flags &&& flagMore = 0 := by
          rw [ResponseFrame.flags, hmore]
          exact (by decide : ¬(flagResp ||| flagMore) &&& flagMore = 0)
        rw [if_neg hflag]
        exact ih hrest (fun hv x hx => hsum hv x (mem_cons_of_mem _ hx)) hr₁
          (by rw [length_append]; omega)
          hsplit' (fun x hx => hsize x (mem_cons_of_mem _ hx))
    · -- the client stops at the header
      have hover : defaultMaxFrameLen < hd.payloadLen :=
        UInt32.lt_iff_toNat_lt.mpr (hlen ▸ Nat.not_le.mp hcap)
      refine ⟨fun hcaps => absurd (hcaps f mem_cons_self) hcap, fun _ => ?_⟩
      rw [readGetLoop_eq, nextHeader_marshal_append, if_pos hover]
      exact fail_error hash g _

/-- The requests of a connection past HELLO: a BATCH_GET of the given keys, within the negotiated
batch size. -/
structure GetRequest (srv : Server σ) (st : State σ) (batchKeys frameLen : UInt32) (h : Header)
    (keys : List BlockKey) : Prop where
  authed : st.sess.authed = true
  limits : st.sess.limits = negotiateLimits srv.cfg.wireLimits batchKeys frameLen
  opcode : h.opcode = opBatchGet
  request : h.flags &&& flagResp = 0
  within : keys.length ≤ st.sess.limits.maxBatchKeys.toNat

theorem GetRequest.decodeKeys {srv : Server σ} {st : State σ}
    {batchKeys frameLen : UInt32} {h : Header} {keys : List BlockKey}
    (hreq : GetRequest srv st batchKeys frameLen h keys) :
    decodeKeys st.sess (keyList 0 keys) = .ok (0, keys) := by
  rw [Serving.decodeKeys, decodeKeyList_keyList 0 hreq.within]

theorem GetRequest.handleFrame {srv : Server σ} {st : State σ}
    {batchKeys frameLen : UInt32} {h : Header} {keys : List BlockKey}
    (hreq : GetRequest srv st batchKeys frameLen h keys) (now : ℤ) (body : List UInt8) :
    handleFrame srv now h body st = handleBatchGet srv h body st := by
  have hop := hreq.opcode
  unfold Serving.handleFrame
  rw [hreq.authed, hop, hreq.request]
  simp [opBatchGet, opNop, opHello, opBatchExists]

def blockStore (data : List UInt8) (sum : UInt64) : Store Unit where
  existsPrefix _ keys _ _ := ((UInt32.ofNat keys.length, none), ())
  getter := .plain fun _ _ _ => ((data, sum, true), ())
  put _ _ _ _ _ := (.okExists, ())
  contains _ _ _ := (true, ())
  delete _ _ _ _ := (.ok, ())
  stats _ _ := ([], ())
  lifecycle := none
  canStore := none

def blockServer (cfg : Config) (data : List UInt8) (sum : UInt64) : Server Unit where
  cfg := cfg
  store := blockStore data sum
  xxh3 _ := sum
  sum64 _ := sum
  authenticate _ _ := some 7

/-- A connection of the block server past a HELLO without proposals. -/
def blockConn (cfg : Config) : State Unit :=
  ⟨⟨true, 7, negotiateLimits cfg.wireLimits 0 0, 0, ∅, 0, 0⟩, ()⟩

def getHeader : Header := ⟨opBatchGet, 0, 7, 0, 1, 0, 40⟩

theorem blockConn_request (cfg : Config) (data : List UInt8) (sum : UInt64)
    (hkeys : 1 ≤ (negotiateLimits cfg.wireLimits 0 0).maxBatchKeys.toNat) :
    GetRequest (blockServer cfg data sum) (blockConn cfg) 0 0 getHeader [5] :=
  ⟨rfl, rfl, rfl, by decide, hkeys⟩

/-- The defaults with frames of up to 512 MiB and blocks of up to 256 MiB. -/
def wideBlocks : Config := { Config.default with maxFrameLen := 536870912, maxBlobLen := 268435456 }

theorem wideBlocks_frame {data : List UInt8} (hlen : data.length = 268435456) :
    ∃ hd bufs,
      (handleFrame (blockServer wideBlocks data 9) 0 getHeader (keyList 0 [5])
        (blockConn wideBlocks)).2 =
      [consume getHeader, .write hd bufs] ∧ hd.payloadLen = 268435488 := by
  have hreq := blockConn_request wideBlocks data 9 (by decide)
  have hframe : frameLen [⟨data, 9, true, false⟩] = 268435488 := by
    simp [frameLen, Fetched.blen, hlen, getRespHeaderSize, preambleSize, descSize]
  obtain ⟨hd, he, -, -, hpay⟩ := writeRespFlags_bufs (blockConn wideBlocks).sess getHeader
    ⟨0, false, [⟨data, 9, true, false⟩]⟩ 1 (by rw [hframe]; decide)
  refine ⟨hd, ResponseFrame.bufs 1 ⟨0, false, [⟨data, 9, true, false⟩]⟩, ?_,
    UInt32.toNat_inj.mp (hpay.trans hframe)⟩
  rw [hreq.handleFrame, handleBatchGet_singleton _ _ _ hreq.decodeKeys]
  exact congrArg (fun e => [consume getHeader, e]) he

end KVStash.Client
