/- GID: KVStash/PyClient/Model
   digest: The Python client's GET: header and region reads, merged reads of the next block's front,
     the frame loop, and the
     plain parse of the same answer. -/

import KVStash.Client.Framing
import KVStash.Foundation.Socket

set_option autoImplicit false

namespace KVStash.PyClient

open Foundation.Bytes Foundation.Socket Nvme Wire Client

/-- The errors of a call. The pool keeps the connection after a status error and evicts it after any
other. -/
inductive ClientError where
  | connectionLost
  | frameError
  | fatalProtocol
  | statusError (s : Status)
  | callback
  deriving DecidableEq, Repr

def ClientError.evicts : ClientError → Bool
  | .statusError _ => false
  | _ => true

/-- The headers the client accepts: the checks are those of the Go client, without a cap on the
payload. -/
def parse (dg : Digests) (hb : List UInt8) : Option Header :=
  match parseHeader dg hb 4294967295 with
  | .ok h => some h
  | _ => none

/-- What is passed to the allocator: the index in the caller's keyspace, the front of the block, and
how many bytes follow the front. -/
structure Asked where
  index : ℕ
  front : List UInt8
  bodyLen : ℕ
  deriving DecidableEq, Repr

/-- The allocator gives a buffer of some size, refuses the block, or raises: an error of the
client's own kinds, which the pool cannot tell from one of the client, or another one,
`callback`. -/
inductive Alloc where
  | view (size : ℕ)
  | refuse
  | raises (e : ClientError)
  deriving DecidableEq, Repr

/-- A block that was dealt with: what the allocator was asked, and what its buffer received; `none`
if it refused. -/
structure Served where
  asked : Asked
  body : Option (List UInt8)
  deriving DecidableEq, Repr

/-- A call of the client and its surroundings. The allocator may decide by everything it was asked
before. -/
structure Env where
  dg : Digests
  hash : List UInt8 → UInt64
  kernel : Kernel
  recvmsg : Bool
  verify : Bool
  frontLen : ℕ
  base : ℕ
  alloc : List Served → Asked → Alloc

/-- The allocator raises no status error. -/
def Env.Tame (E : Env) : Prop := ∀ log a e, E.alloc log a = .raises e → e.evicts = true

def maxScratch : ℕ := 1048576

section

variable (E : Env)

def drain (n : ℕ) (k : Sock) : Option (List UInt8) × Sock := drainLoop E.kernel maxScratch n [] k

variable {E} in
theorem drain_advances {n : ℕ} {k k' : Sock} {r : Option (List UInt8)} (h : drain E n k = (r, k')) :
    k.Advances k' := by
  cases r with
  | none =>
    obtain ⟨m, -, hk⟩ := drainLoop_none h
    exact ⟨m, hk⟩
  | some a => exact ⟨n, (drainLoop_some (by decide) h).2.2⟩

/-- The next header that is not a credit frame; a fatal report ends the call. -/
def nextHeader (k : Sock) : Except ClientError Header × Sock :=
  match _hread : recvInto E.kernel headerSize k with
  | (none, k') => (.error .connectionLost, k')
  | (some hb, k') =>
    match parse E.dg hb with
    | none => (.error .frameError, k')
    | some h =>
      if isCredit h then
        match _hskip : drain E h.payloadLen.toNat k' with
        | (none, k'') => (.error .connectionLost, k'')
        | (some _, k'') => nextHeader k''
      else if h.flags &&& flagFatal ≠ 0 then
        match recvInto E.kernel h.payloadLen.toNat k' with
        | (none, k'') => (.error .connectionLost, k'')
        | (some _, k'') => (.error .fatalProtocol, k'')
      else (.ok h, k')
termination_by k.stream.length
decreasing_by
  have hread := recvInto_some _hread
  have hskip := (drain_advances _hskip).length_le
  have hpos : 0 < headerSize := by decide
  rw [hread.2.2, List.length_drop] at hskip
  omega

/-- The region in front of the blocks of a frame, with the block bytes that were read along with
it. -/
structure Region where
  status : Status
  first : ℕ
  total : ℕ
  descs : List Desc
  lead : List UInt8

def readRegion (h : Header) (n : ℕ) (k : Sock) : Except ClientError Region × Sock :=
  match recvInto E.kernel preambleSize k with
  | (none, k') => (.error .connectionLost, k')
  | (some pre, k') =>
    let status : Status := UInt8.ofNat (leAt pre 0 1)
    let count := leAt pre 4 4
    if Checked.carriesBody status = false then (.ok ⟨status, 0, 0, [], []⟩, k')
    else if n < count then (.error .connectionLost, k')
    else
      let restLen := 8 + descSize * count
      if h.payloadLen.toNat < preambleSize + restLen then (.error .connectionLost, k')
      else
        let payloadInFrame := h.payloadLen.toNat - preambleSize - restLen
        let extra := min E.frontLen payloadInFrame
        match recvInto E.kernel (restLen + extra) k' with
        | (none, k'') => (.error .connectionLost, k'')
        | (some rest, k'') =>
          let region := pre ++ rest.take restLen
          let descs := regionDescs region
          if okLen descs ≠ payloadInFrame then (.error .connectionLost, k'')
          else (.ok ⟨status, regionFirst region, regionTotal region, descs, rest.drop restLen⟩, k'')

/-- How far the read of each block may run on: the front of the next block of the frame that has
bytes. The second component is the front of the first block itself. -/
def follows : List Desc → List ℕ × ℕ
  | [] => ([], 0)
  | d :: ds =>
    let (nxt, follow) := follows ds
    (follow :: nxt, if Checked.carriesBody d.status then min E.frontLen d.len.toNat else follow)

structure Work where
  statuses : List Status
  log : List Served

def digestOk (block : List UInt8) (d : Desc) : Bool := E.verify = false ∨ E.hash block = d.xxh3

/-- The bytes of a block behind its front: into the buffer, with room for the next front, or
drained. -/
def readBody (bodyLen aheadLen : ℕ) (k : Sock) : Option (List UInt8 × List UInt8) × Sock :=
  if bodyLen = 0 then (some ([], []), k)
  else recvAhead E.kernel bodyLen (if E.recvmsg then aheadLen else 0) k

/-- The front of a block, from the bytes read before and from the socket. -/
def readFront (pfx : ℕ) (lead : List UInt8) (k : Sock) : Option (List UInt8) × Sock :=
  let take := min pfx lead.length
  if take = pfx then (some (lead.take pfx), k)
  else
    match recvInto E.kernel (pfx - take) k with
    | (none, k') => (none, k')
    | (some more, k') => (some (lead.take take ++ more), k')

/-- One block with bytes; the result is what was read ahead for the next one. -/
def scatterOne (slot : ℕ) (d : Desc) (aheadLen : ℕ) (lead : List UInt8) (w : Work) (k : Sock) :
    Except ClientError (List UInt8) × Work × Sock :=
  let pfx := min E.frontLen d.len.toNat
  match readFront E pfx lead k with
  | (none, k₁) => (.error .connectionLost, w, k₁)
  | (some front, k₁) =>
    let lead := lead.drop pfx
    let asked : Asked := ⟨E.base + slot, front, d.len.toNat - pfx⟩
    match E.alloc w.log asked with
    | .raises e => (.error e, w, k₁)
    | .refuse =>
      match drain E asked.bodyLen k₁ with
      | (none, k₂) => (.error .connectionLost, w, k₂)
      | (some body, k₂) =>
        if digestOk E (front ++ body) d then
          (.ok lead, ⟨w.statuses.set slot .notFound, w.log ++ [⟨asked, none⟩]⟩, k₂)
        else (.error .connectionLost, w, k₂)
    | .view size =>
      if size < asked.bodyLen then (.error .connectionLost, w, k₁)
      else
        match readBody E asked.bodyLen aheadLen k₁ with
        | (none, k₂) => (.error .connectionLost, w, k₂)
        | (some (body, extra), k₂) =>
          if digestOk E (front ++ body) d then
            (.ok (if extra = [] then lead else extra),
              ⟨w.statuses.set slot .ok, w.log ++ [⟨asked, some body⟩]⟩, k₂)
          else (.error .connectionLost, w, k₂)

/-- The blocks of a frame, each with how far its read may run on. -/
def scatterAll :
    ℕ → List (Desc × ℕ) → List UInt8 → Work → Sock → Except ClientError (List UInt8) × Work × Sock
  | _, [], lead, w, k => (.ok lead, w, k)
  | slot, (d, aheadLen) :: ds, lead, w, k =>
    if Checked.carriesBody d.status = false then
      scatterAll (slot + 1) ds lead { w with statuses := w.statuses.set slot .notFound } k
    else if E.kernel.late k.tick then (.error .connectionLost, w, ⟨k.stream, k.tick + 1⟩)
    else
      match scatterOne E slot d aheadLen lead w ⟨k.stream, k.tick + 1⟩ with
      | (.error e, w, k) => (.error e, w, k)
      | (.ok lead, w, k) => scatterAll (slot + 1) ds lead w k

/-- One frame behind its header: the number of keys answered so far. -/
def readFrame (n seen : ℕ) (h : Header) (w : Work) (k : Sock) :
    Except ClientError ℕ × Work × Sock :=
  match readRegion E h n k with
  | (.error e, k₁) => (.error e, w, k₁)
  | (.ok r, k₁) =>
    if Checked.carriesBody r.status = false then (.error (.statusError r.status), w, k₁)
    else if r.total ≠ n then (.error .connectionLost, w, k₁)
    else if r.first ≠ seen ∨ n < r.first + r.descs.length then (.error .connectionLost, w, k₁)
    else
      match scatterAll E r.first (r.descs.zip (follows E r.descs).1) r.lead w k₁ with
      | (.error e, w, k₂) => (.error e, w, k₂)
      | (.ok lead, w, k₂) =>
        if lead ≠ [] then (.error .connectionLost, w, k₂)
          else (.ok (r.first + r.descs.length), w, k₂)

/-! ## The frame loop -/

section Advances

variable {E} {k k' : Sock} {n aheadLen slot pfx bodyLen seen : ℕ} {lead : List UInt8}
  {r : Except ClientError (List UInt8)}

theorem nextHeader_length {h : Header} (hn : nextHeader E k = (.ok h, k')) :
    k'.stream.length < k.stream.length := by
  have hpos : 0 < headerSize := by decide
  fun_induction nextHeader E k with
  | case4 k hb k₁ hread h₁ hp hc skipped k₂ hskip ih =>
    have hrecv := recvInto_some hread
    have hdrain := (drain_advances hskip).length_le
    have hnext := ih hn
    rw [hrecv.2.2, List.length_drop] at hdrain
    omega
  | case7 k hb k₁ hread h₁ hp hc hf =>
    cases hn
    have hrecv := recvInto_some hread
    rw [hrecv.2.2, List.length_drop]
    omega
  | _ => cases hn

theorem readRegion_advances {h : Header} {r : Except ClientError Region}
    (hr : readRegion E h n k = (r, k')) : k.Advances k' := by
  unfold readRegion at hr
  split at hr
  · next hpre =>
    cases hr
    exact recvInto_advances hpre
  next hpre =>
  have hpre := recvInto_advances hpre
  dsimp only at hr
  split_ifs at hr
  · cases hr
    exact hpre
  · cases hr
    exact hpre
  · cases hr
    exact hpre
  split at hr
  · next hrest =>
    cases hr
    exact hpre.trans (recvInto_advances hrest)
  · next hrest =>
    split_ifs at hr <;> cases hr <;> exact hpre.trans (recvInto_advances hrest)

theorem readFront_advances {r : Option (List UInt8)}
    (h : readFront E pfx lead k = (r, k')) : k.Advances k' := by
  unfold readFront at h
  dsimp only at h
  split_ifs at h
  · cases h
    exact .refl k
  split at h
  all_goals
    next hread =>
    cases h
    exact recvInto_advances hread

theorem readBody_advances {r : Option (List UInt8 × List UInt8)}
    (h : readBody E bodyLen aheadLen k = (r, k')) : k.Advances k' := by
  unfold readBody at h
  split at h
  · cases h
    exact .refl k
  · exact recvAhead_advances h

theorem scatterOne_advances {d : Desc} {w w' : Work}
    (h : scatterOne E slot d aheadLen lead w k = (r, w', k')) : k.Advances k' := by
  unfold scatterOne at h
  dsimp only at h
  split at h
  · next hfront =>
    cases h
    exact readFront_advances hfront
  next hfront =>
  have hfront := readFront_advances hfront
  split at h
  · cases h
    exact hfront
  · split at h
    · next hdrain =>
      cases h
      exact hfront.trans (drain_advances hdrain)
    · next hdrain =>
      split_ifs at h <;> cases h <;> exact hfront.trans (drain_advances hdrain)
  · split_ifs at h
    · cases h
      exact hfront
    split at h
    · next hbody =>
      cases h
      exact hfront.trans (readBody_advances hbody)
    · next hbody =>
      split_ifs at h <;> cases h <;> exact hfront.trans (readBody_advances hbody)

theorem scatterAll_advances {ds : List (Desc × ℕ)} {w w' : Work}
    (h : scatterAll E slot ds lead w k = (r, w', k')) : k.Advances k' := by
  induction ds generalizing slot lead w k with
  | nil =>
    cases h
    exact .refl _
  | cons da ds ih =>
    have htick : k.Advances ⟨k.stream, k.tick + 1⟩ := ⟨0, rfl⟩
    rw [scatterAll] at h
    split_ifs at h
    · exact ih h
    · cases h
      exact htick
    split at h
    · next hone =>
      cases h
      exact htick.trans (scatterOne_advances hone)
    · next hone => exact (htick.trans (scatterOne_advances hone)).trans (ih h)

theorem readFrame_advances {h : Header} {w w' : Work} {r : Except ClientError ℕ}
    (hr : readFrame E n seen h w k = (r, w', k')) : k.Advances k' := by
  unfold readFrame at hr
  split at hr
  · next hregion =>
    cases hr
    exact readRegion_advances hregion
  next hregion =>
  have hregion := readRegion_advances hregion
  split_ifs at hr
  · cases hr
    exact hregion
  · cases hr
    exact hregion
  · cases hr
    exact hregion
  split at hr
  · next hall =>
    cases hr
    exact hregion.trans (scatterAll_advances hall)
  · next hall =>
    split_ifs at hr <;> cases hr <;> exact hregion.trans (scatterAll_advances hall)

end Advances

/-- Frames are read until one does not announce more. -/
def getLoop (n seen : ℕ) (w : Work) (k : Sock) : Except ClientError (List Status) × Work × Sock :=
  if E.kernel.late k.tick then (.error .connectionLost, w, ⟨k.stream, k.tick + 1⟩)
  else
    match _hnext : nextHeader E ⟨k.stream, k.tick + 1⟩ with
    | (.error e, k₁) => (.error e, w, k₁)
    | (.ok h, k₁) =>
      match _hframe : readFrame E n seen h w k₁ with
      | (.error e, w', k₂) => (.error e, w', k₂)
      | (.ok seen', w', k₂) =>
        if h.flags &&& flagMore = 0 then
          if seen' ≠ n then (.error .connectionLost, w', k₂) else (.ok w'.statuses, w', k₂)
        else getLoop n seen' w' k₂
termination_by k.stream.length
decreasing_by
  have hnext := nextHeader_length _hnext
  exact (readFrame_advances _hframe).length_le.trans_lt hnext

/-- The GET of `n` keys on a connection whose stream is `s`: the result, what was done, and the
stream left. -/
def batchGetScatter (n : ℕ) (s : List UInt8) :
    Except ClientError (List Status) × List Served × List UInt8 :=
  if n = 0 then (.ok [], [], s)
  else
    let (r, w, k) := getLoop E n 0 ⟨List.replicate n .notFound, []⟩ ⟨s, 0⟩
    (r, w.log, k.stream)

end

/-- A block of a frame: the index of its key, its descriptor and its bytes. -/
structure Block where
  slot : ℕ
  desc : Desc
  bytes : List UInt8

/-- The blocks behind the descriptors of a frame, one behind the other. -/
def plainBlocks : ℕ → List Desc → List UInt8 → List Block
  | _, [], _ => []
  | slot, d :: ds, w =>
    if Checked.carriesBody d.status then ⟨slot, d, w.take d.len.toNat⟩ :: plainBlocks (slot + 1) ds
      (w.drop d.len.toNat)
    else plainBlocks (slot + 1) ds w

/-- The blocks of the frame whose payload is in front of the bytes. -/
def plainFrame (u : List UInt8) : List Block :=
  plainBlocks (regionFirst u) (regionDescs u) (u.drop (regionSize u))

section Serve

variable (E : Env)

/-- What the allocator is asked about a block: the front is cut off, the rest is for the buffer. -/
def Block.asked (b : Block) : Asked :=
  ⟨E.base + b.slot, b.bytes.take E.frontLen, b.desc.len.toNat - min E.frontLen b.desc.len.toNat⟩

def serve (log : List Served) (b : Block) : Option Served :=
  if digestOk E b.bytes b.desc = false then none
  else
    match E.alloc log (b.asked E) with
    | .raises _ => none
    | .refuse => some ⟨b.asked E, none⟩
    | .view size =>
      if size < (b.asked E).bodyLen then none else some ⟨b.asked E, some (b.bytes.drop E.frontLen)⟩

def plainServe : List Served → List Block → Option (List Served)
  | log, [] => some log
  | log, b :: bs => (serve E log b).bind fun e => plainServe (log ++ [e]) bs

/-- The statuses a call returns: the keys whose blocks were received. -/
def statusesOf (n : ℕ) (log : List Served) : List Status :=
  (List.range n).map fun i =>
    if log.any (fun e => e.asked.index = E.base + i ∧ e.body.isSome) then .ok else .notFound

end Serve

/-- Frames that answer the keys from `seen` to `stop` of a batch of `n`, each of the length its
descriptors give. -/
def Contiguous (n : ℕ) : ℕ → List Frame → ℕ → Prop
  | seen, [], stop => stop = seen
  | seen, f :: fs, stop =>
    Checked.carriesBody (regionStatus f.payload) = true ∧ regionTotal f.payload = n ∧
      regionFirst f.payload = seen ∧
      f.payload.length = frameSize f.payload ∧ Contiguous n (seen + regionCount f.payload) fs stop

variable {E : Env}

theorem plainServe_append (log : List Served) (bs cs : List Block) :
    plainServe E log (bs ++ cs) = (plainServe E log bs).bind fun log' => plainServe E log' cs := by
  induction bs generalizing log with
  | nil => rfl
  | cons b bs ih =>
    rw [List.cons_append, plainServe, plainServe]
    cases serve E log b with
    | none => rfl
    | some e => exact ih _

theorem Contiguous.concat {n seen mid : ℕ} {fs : List Frame}
    (h : Contiguous n seen fs mid) {f : Frame}
    (hstatus : Checked.carriesBody (regionStatus f.payload) = true)
    (htotal : regionTotal f.payload = n) (hfirst : regionFirst f.payload = mid)
    (hsize : f.payload.length = frameSize f.payload) :
    Contiguous n seen (fs ++ [f]) (mid + regionCount f.payload) := by
  induction fs generalizing seen with
  | nil =>
    obtain rfl : mid = seen := h
    exact ⟨hstatus, htotal, hfirst, hsize, rfl⟩
  | cons g fs ih =>
    obtain ⟨h1, h2, h3, h4, h5⟩ := h
    exact ⟨h1, h2, h3, h4, ih h5⟩

theorem plainBlocks_take {slot : ℕ} {ds : List Desc} {w : List UInt8} {m : ℕ} (h : okLen ds ≤ m) :
    plainBlocks slot ds (w.take m) = plainBlocks slot ds w := by
  induction ds generalizing slot w m with
  | nil => rfl
  | cons d ds ih =>
    rw [okLen] at h
    rw [plainBlocks, plainBlocks]
    split_ifs at h ⊢ with hd
    · rw [List.take_take, Nat.min_eq_left (by omega), List.drop_take, ih (by omega)]
    · exact ih (by omega)

theorem plainFrame_take {u : List UInt8} {m : ℕ} (h : frameSize u ≤ m) :
    plainFrame (u.take m) = plainFrame u := by
  have hregion : regionSize u ≤ m := (Nat.le_add_right _ _).trans h
  unfold frameSize at h
  rw [plainFrame, regionFirst_take hregion, regionDescs_take hregion, regionSize_take hregion,
    List.drop_take, plainBlocks_take (by omega), plainFrame]

end KVStash.PyClient
