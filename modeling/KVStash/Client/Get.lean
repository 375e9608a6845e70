/- GID: KVStash/Client/Get
   digest: The client's streaming parser of a GET response, and that it reads back what the server
     split. -/

import KVStash.Client.Framing
import KVStash.Server.BatchGet

set_option autoImplicit false

namespace KVStash.Client

open Foundation.Bytes Nvme Wire Serving List

/-! ## The parser -/

/-- A request to the verifier: check the slot against the descriptor's sum. -/
structure VerifyJob where
  slot : ℕ
  sum : UInt64

/-- The reader's results and the verifier's work. `jobs` are sent and not yet checked, `sent` counts
the sends, and `bad` is the first slot that failed its check. -/
structure GetState where
  statuses : List Status
  into : List (Option (List UInt8))
  got : ℕ
  jobs : List VerifyJob
  sent : ℕ
  bad : Option ℕ

section Parser

/- `hash` is the client's one-shot hash. The verifier runs beside the reader: `pace n` is how many
jobs it gets through after the `n`-th one was sent, and whatever is left it does before the result
is returned. -/
variable (dg : Digests) (hash : List UInt8 → UInt64) (verify : Bool) (pace : ℕ → ℕ)

/-- The verifier takes one job. Once a check has failed it only drains. -/
def verifyOne (g : GetState) : GetState :=
  match g.jobs with
  | [] => g
  | j :: js =>
    let matched := hash ((g.into[j.slot]?.join).getD []) = j.sum
    { g with jobs := js, bad := if g.bad = none ∧ ¬matched then some j.slot else g.bad }

def verifySome : ℕ → GetState → GetState
  | 0, g => g
  | n + 1, g => verifySome n (verifyOne hash g)

def verifyAll (g : GetState) : GetState := verifySome hash g.jobs.length g

/-- A read error: the verifier is joined, and a failed check outranks the error. -/
def fail (g : GetState) (e : ReadError) : GetState × Except ReadError (List Status) :=
  let g := verifyAll hash g
  match g.bad with
  | some slot => (g, .error (.checksum slot))
  | none => (g, .error e)

def storeBlock (slot : ℕ) (d : Desc) (block : List UInt8) (g : GetState) : GetState :=
  let g := { g with into := g.into.set slot (some block) }
  if verify then verifySome hash (pace g.sent)
    { g with jobs := g.jobs ++ [⟨slot, d.xxh3⟩], sent := g.sent + 1 }
  else g

/-- The blocks of one frame, from the given slot on; `none` is a stream that ended inside a
block. -/
def readBlocks : ℕ → List Desc → GetState → List UInt8 → GetState × Option (List UInt8)
  | _, [], g, s => (g, some s)
  | slot, d :: ds, g, s =>
    let g := { g with statuses := g.statuses.set slot d.status }
    if d.status ≠ .ok ∧ d.status ≠ .okExists then readBlocks (slot + 1) ds g s
    else match readFull d.len.toNat s with
      | none => (g, none)
      | some (block, rest) =>
        readBlocks (slot + 1) ds (storeBlock hash verify pace slot d block g) rest

/-- One frame after its header: the state behind it, or the error that ends the read, with the
stream left. -/
def readGetFrame (keys : ℕ) (h : Header) (g : GetState) (s : List UInt8) :
    GetState × Except ReadError Unit × List UInt8 :=
  if h.payloadLen.toNat = preambleSize then
    match readFull preambleSize s with
    | none => (g, .error .io, [])
    | some (pre, rest) => (g, .error (.status (UInt8.ofNat (leAt pre 0 1))), rest)
  else match readFull (preambleSize + 8) s with
    | none => (g, .error .io, [])
    | some (pre, rest) =>
      let status : Status := UInt8.ofNat (leAt pre 0 1)
      let count := UInt32.ofNat (leAt pre 4 4)
      let firstIndex := UInt32.ofNat (leAt pre 8 4)
      let totalKeys := UInt32.ofNat (leAt pre 12 4)
      if status ≠ .ok ∧ status ≠ .okExists then (g, .error (.statusBody status h.payloadLen), rest)
      else if totalKeys.toNat ≠ keys ∨ keys < firstIndex.toNat + count.toNat then
        (g, .error (.inconsistent firstIndex count keys), rest)
      else match readFull (count.toNat * descSize) rest with
        | none => (g, .error .io, [])
        | some (region, rest) =>
          match readBlocks hash verify pace firstIndex.toNat
            (rows getDesc descSize region count.toNat) g rest with
          | (g, none) => (g, .error .io, [])
          | (g, some rest) => ({ g with got := g.got + count.toNat }, .ok (), rest)

theorem readBlocks_length (slot : ℕ) (ds : List Desc) (g : GetState) (s : List UInt8)
    {rest : List UInt8} (h : (readBlocks hash verify pace slot ds g s).2 = some rest) :
    rest.length ≤ s.length := by
  induction ds generalizing slot g s with
  | nil => exact Option.some.inj h ▸ le_refl _
  | cons d ds ih =>
    rw [readBlocks] at h
    split_ifs at h
    · exact ih _ _ _ h
    split at h
    · cases h
    · next block rest' hread =>
      have hlen := congrArg length (readFull_eq_some hread).2
      rw [length_append] at hlen
      exact (ih _ _ _ h).trans (by omega)

theorem readGetFrame_length {keys : ℕ} {h : Header} {g g' : GetState} {s rest : List UInt8}
    (hr : readGetFrame hash verify pace keys h g s = (g', .ok (), rest)) :
    rest.length ≤ s.length := by
  unfold readGetFrame at hr
  split_ifs at hr with hpre
  · split at hr <;> cases hr
  split at hr
  · cases hr
  next pre rest₁ hread₁ =>
  dsimp only at hr
  split_ifs at hr with hst hidx
  · cases hr
  · cases hr
  split at hr
  · cases hr
  next region rest₂ hread₂ =>
  split at hr
  · cases hr
  next g₁ rest₃ hblocks =>
  have hlen₁ := congrArg length (readFull_eq_some hread₁).2
  have hlen₂ := congrArg length (readFull_eq_some hread₂).2
  have hle := readBlocks_length hash verify pace _ _ _ _ (congrArg Prod.snd hblocks)
  rw [length_append] at hlen₁ hlen₂
  obtain ⟨-, hr⟩ := Prod.mk.inj hr
  rw [← (Prod.mk.inj hr).2]
  omega

/-- The result once no more frames follow: the verifier is joined and the keys are counted. -/
def finish (keys : ℕ) (g : GetState) (rest : List UInt8) :
    GetState × Except ReadError (List Status) × List UInt8 :=
  let g := verifyAll hash g
  match g.bad with
  | some slot => (g, .error (.checksum slot), rest)
  | none =>
    if g.got ≠ keys then (g, .error (.missing g.got keys), rest) else (g, .ok g.statuses, rest)

/-- Frames are read until one does not announce more. The bytes left are those behind the response;
after any error but a status the connection is given up and they are not looked at. -/
def readGetLoop (keys : ℕ) (g : GetState) (s : List UInt8) :
    GetState × Except ReadError (List Status) × List UInt8 :=
  match _hnext : nextHeader dg s with
  | .error e => let (g, r) := fail hash g e; (g, r, [])
  | .ok (h, rest) =>
    match _hframe : readGetFrame hash verify pace keys h g rest with
    | (g, .error e, rest) => let (g, r) := fail hash g e; (g, r, rest)
    | (g, .ok (), rest) =>
      if h.flags &&& flagMore = 0 then finish hash keys g rest else readGetLoop keys g rest
termination_by s.length
decreasing_by
  exact (readGetFrame_length hash verify pace _hframe).trans_lt (nextHeader_length _hnext)

/-- The statuses start at zero, the slots as the caller passed them. -/
def readGetInto (keys : ℕ) (into : List (Option (List UInt8))) (s : List UInt8) :
    GetState × Except ReadError (List Status) × List UInt8 :=
  readGetLoop dg hash verify pace keys ⟨replicate keys 0, into, 0, [], 0, none⟩ s

end Parser

/-! ## Reading back what the server sent -/

variable {f : Fetched}

theorem Fetched.status_of_hit (h : f.hit = true) : f.desc.status = .ok := by
  simp [Fetched.desc, h]

theorem Fetched.status_of_miss (h : f.hit = false) :
    f.desc.status ≠ .ok ∧ f.desc.status ≠ .okExists := by
  unfold Fetched.desc
  rw [if_neg (by simp [h])]
  split_ifs <;> decide

/-- The slots after some answers: a hit is stored, any other slot keeps what the caller passed. -/
def merge : List Fetched → List (Option (List UInt8)) → List (Option (List UInt8))
  | [], into => into
  | _, [] => []
  | f :: fs, x :: xs => (if f.hit then some f.data else x) :: merge fs xs

theorem merge_concat_hit (hf : f.hit = true) (fs : List Fetched)
    (into : List (Option (List UInt8))) :
    (merge fs into).set fs.length (some f.data) = merge (fs ++ [f]) into := by
  induction fs generalizing into with
  | nil => cases into <;> simp [merge, hf]
  | cons g gs ih => cases into <;> simp [merge, ih]

theorem merge_concat_miss (hf : f.hit = false) (fs : List Fetched)
    (into : List (Option (List UInt8))) : merge fs into = merge (fs ++ [f]) into := by
  induction fs generalizing into with
  | nil => cases into <;> simp [merge, hf]
  | cons g gs ih => cases into <;> simp [merge, ← ih]

theorem merge_getElem? {fs : List Fetched} {into : List (Option (List UInt8))}
    (hlen : fs.length ≤ into.length) {i : ℕ} (hi : fs[i]? = some f) (hf : f.hit = true) :
    (merge fs into)[i]? = some (some f.data) := by
  induction fs generalizing into i with
  | nil => cases hi
  | cons g gs ih =>
    cases into with
    | nil => exact absurd hlen (by simp)
    | cons x xs =>
      cases i with
      | zero =>
        rw [getElem?_cons_zero, Option.some.injEq] at hi
        simp [merge, hi, hf]
      | succ i => exact ih (Nat.le_of_succ_le_succ hlen) hi

theorem flatten_blocks_cons (f : Fetched) (fs : List Fetched) :
    (blocks (f :: fs)).flatten = (if f.hit then f.data else []) ++ (blocks fs).flatten := by
  have hhead : (if f.hit ∧ 0 < f.blen then [f.data] else []).flatten = if f.hit
      then f.data else [] := by
    unfold Fetched.blen
    cases hhit : f.hit
    · simp
    · rcases Nat.eq_zero_or_pos f.data.length with h0 | hpos
      · simp [length_eq_zero_iff.mp h0]
      · simp [hpos]
  rw [blocks, flatMap_cons, flatten_append, hhead]
  rfl

/-- What holds after the answers `done` of a batch of `keys` keys were read: their statuses and
blocks are in place, and every check the verifier still has to do will succeed. -/
structure Reads (hash : List UInt8 → UInt64) (keys : ℕ) (into : List (Option (List UInt8)))
    (done : List Fetched) (g : GetState) : Prop where
  statuses : g.statuses = done.map (fun f => f.desc.status) ++ replicate (keys - done.length) 0
  slots : g.into = merge done into
  clean : g.bad = none
  jobs : ∀ j ∈ g.jobs, ∃ f, done[j.slot]? = some f ∧ f.hit = true ∧ hash f.data = j.sum

section Reading

variable {hash : List UInt8 → UInt64} {verify : Bool} {pace : ℕ → ℕ} {keys : ℕ}
  {into : List (Option (List UInt8))} {done : List Fetched} {g : GetState}

theorem Reads.verifyOne (hr : Reads hash keys into done g) (hlen : done.length ≤ into.length) :
    Reads hash keys into done (verifyOne hash g) := by
  obtain ⟨statuses, slots, got, jobs, sent, bad⟩ := g
  cases jobs with
  | nil => exact hr
  | cons j js =>
    obtain ⟨f, hf, hhit, hsum⟩ := hr.jobs j mem_cons_self
    have hslot : slots[j.slot]? = some (some f.data) := by
      rw [show slots = merge done into from hr.slots]
      exact merge_getElem? hlen hf hhit
    have hgood : bad = none := hr.clean
    refine ⟨hr.statuses, hr.slots, ?_, fun j' hj' => hr.jobs j' (mem_cons_of_mem _ hj')⟩
    simp [Client.verifyOne, hslot, hsum, hgood]

theorem Reads.verifySome (hr : Reads hash keys into done g)
    (hlen : done.length ≤ into.length) (n : ℕ) :
    Reads hash keys into done (verifySome hash n g) := by
  induction n generalizing g with
  | zero => exact hr
  | succ n ih => exact ih (hr.verifyOne hlen)

theorem statuses_set (hroom : done.length < keys) :
    (done.map (fun f : Fetched => f.desc.status) ++ replicate (keys - done.length) 0).set
      done.length f.desc.status = (done ++ [f]).map (fun f : Fetched => f.desc.status) ++ replicate
          (keys - (done ++ [f]).length) 0 := by
  obtain ⟨n, hn⟩ : ∃ n, keys - done.length = n + 1 := ⟨keys - done.length - 1, by omega⟩
  have hn' : keys - (done ++ [f]).length = n := by
    rw [length_append, length_singleton]
    omega
  rw [hn, hn', replicate_succ]
  simp

theorem Reads.pending (hr : Reads hash keys into done g) (f : Fetched) :
    ∀ j ∈ g.jobs, ∃ f', (done ++ [f])[j.slot]? = some f' ∧ f'.hit = true ∧
      hash f'.data = j.sum := by
  intro j hj
  obtain ⟨f', hf', hrest⟩ := hr.jobs j hj
  exact ⟨f', (List.getElem?_append_left (List.getElem?_eq_some_iff.mp hf').1).trans hf', hrest⟩

theorem Reads.miss (hr : Reads hash keys into done g) (hf : f.hit = false)
    (hroom : done.length < keys) :
    Reads hash keys into (done ++ [f])
      { g with statuses := g.statuses.set done.length f.desc.status } where
  statuses := by
    rw [← statuses_set hroom, ← hr.statuses]
  slots := hr.slots.trans (merge_concat_miss hf done into)
  clean := hr.clean
  jobs := hr.pending f

theorem Reads.hit (pace : ℕ → ℕ) (hr : Reads hash keys into done g) (hf : f.hit = true)
    (hroom : done.length < keys) (hslot : done.length < into.length)
    (hsum : verify = true → hash f.data = f.sum) :
    Reads hash keys into (done ++ [f]) (storeBlock hash verify pace done.length f.desc f.data
      { g with statuses := g.statuses.set done.length f.desc.status }) := by
  have hstored : Reads hash keys into (done ++ [f]) { g with
      statuses := g.statuses.set done.length f.desc.status
      into := g.into.set done.length (some f.data) } :=
    ⟨by rw [← statuses_set hroom, ← hr.statuses], by
      rw [← merge_concat_hit hf done into, ← hr.slots], hr.clean, hr.pending f⟩
  unfold storeBlock
  dsimp only
  split_ifs with hv
  · have hsent : Reads hash keys into (done ++ [f]) { g with
        statuses := g.statuses.set done.length f.desc.status
        into := g.into.set done.length (some f.data)
        jobs := g.jobs ++ [⟨done.length, f.desc.xxh3⟩]
        sent := g.sent + 1 } := by
      refine ⟨hstored.statuses, hstored.slots, hstored.clean, fun j hj => ?_⟩
      rcases mem_append.mp hj with hj | hj
      · exact hr.pending f j hj
      · rw [mem_singleton.mp hj]
        exact ⟨f, by simp, hf, by simp [Fetched.desc, hf, hsum hv]⟩
    refine hsent.verifySome ?_ _
    rw [length_append, length_singleton]
    omega
  · exact hstored

theorem verifyOne_got (g : GetState) : (verifyOne hash g).got = g.got := by
  unfold Client.verifyOne
  split <;> rfl

theorem verifySome_got (n : ℕ) (g : GetState) : (verifySome hash n g).got = g.got := by
  induction n generalizing g with
  | zero => rfl
  | succ n ih => exact (ih _).trans (verifyOne_got g)

theorem storeBlock_got (slot : ℕ) (d : Desc) (block : List UInt8) (g : GetState) :
    (storeBlock hash verify pace slot d block g).got = g.got := by
  unfold storeBlock
  dsimp only
  split_ifs
  · exact verifySome_got _ _
  · rfl

theorem Reads.readBlocks (pace : ℕ → ℕ) (hr : Reads hash keys into done g) {fs : List Fetched}
    (hkeys : done.length + fs.length ≤ keys) (hinto : into.length = keys)
    (hsize : ∀ f ∈ fs, f.blen < 2 ^ 32)
    (hsum : verify = true → ∀ f ∈ fs, f.hit = true → hash f.data = f.sum) (tail : List UInt8) :
    ∃ g', readBlocks hash verify pace done.length (fs.map Fetched.desc) g
      ((blocks fs).flatten ++ tail) =
      (g', some tail) ∧ Reads hash keys into (done ++ fs) g' ∧ g'.got = g.got := by
  induction fs generalizing done g with
  | nil => exact ⟨g, rfl, by rwa [append_nil], rfl⟩
  | cons f fs ih =>
    rw [length_cons] at hkeys
    have hnext : (done ++ [f]).length = done.length + 1 := by rw [length_append, length_singleton]
    have hrest : ∀ {g' : GetState}, Reads hash keys into (done ++ [f]) g' →
        ∃ g'', Client.readBlocks hash verify pace (done.length + 1) (fs.map Fetched.desc) g'
          ((blocks fs).flatten ++ tail) = (g'', some tail) ∧
          Reads hash keys into (done ++ f :: fs) g'' ∧
          g''.got = g'.got := by
      intro g' hr'
      have := ih hr' (by rw [hnext]; omega) (fun f' hf' => hsize f' (mem_cons_of_mem _ hf'))
        (fun hv f' hf' => hsum hv f' (mem_cons_of_mem _ hf'))
      rwa [hnext, append_assoc, singleton_append] at this
    rw [map_cons, Client.readBlocks, flatten_blocks_cons]
    cases hf : f.hit
    · rw [if_pos (Fetched.status_of_miss hf)]
      exact hrest (hr.miss hf (by omega))
    have hlen : f.desc.len.toNat = f.data.length := by
      have hlt := hsize f mem_cons_self
      simp only [Fetched.blen, hf, if_true] at hlt
      simp only [Fetched.desc, hf, if_true]
      exact UInt32.toNat_ofNat_of_lt' hlt
    rw [if_neg (by simp [Fetched.status_of_hit hf]), if_pos rfl, append_assoc,
      readFull_append hlen.symm]
    obtain ⟨g', hread, hr', hgot⟩ := hrest (hr.hit pace hf (by omega) (by omega)
      (fun hv => hsum hv f mem_cons_self hf))
    exact ⟨g', hread, hr', hgot.trans (storeBlock_got _ _ _ _)⟩

theorem words_read (status : Status) (count first total : UInt32) :
    UInt8.ofNat (leAt (fields (getRespWords status count first total)) 0 1) = status ∧
      UInt32.ofNat (leAt (fields (getRespWords status count first total)) 4 4) = count ∧
      UInt32.ofNat (leAt (fields (getRespWords status count first total)) 8 4) = first ∧
      UInt32.ofNat (leAt (fields (getRespWords status count first total)) 12 4) = total := by
  have hst := @leAt_field (getRespWords status count first total) 0 _ _ _ rfl rfl status.toNat_lt []
  have hcount :=
    @leAt_field (getRespWords status count first total) 2 _ _ _ rfl rfl (uint32_lt count) []
  have hfirst :=
    @leAt_field (getRespWords status count first total) 3 _ _ _ rfl rfl (uint32_lt first) []
  have htotal :=
    @leAt_field (getRespWords status count first total) 4 _ _ _ rfl rfl (uint32_lt total) []
  simp only [append_nil] at hst hcount hfirst htotal
  refine ⟨?_, ?_, ?_, ?_⟩
  · exact (congrArg UInt8.ofNat hst).trans UInt8.ofNat_toNat
  · exact (congrArg UInt32.ofNat hcount).trans UInt32.ofNat_toNat
  · exact (congrArg UInt32.ofNat hfirst).trans UInt32.ofNat_toNat
  · exact (congrArg UInt32.ofNat htotal).trans UInt32.ofNat_toNat

theorem Reads.readGetFrame (pace : ℕ → ℕ) (hr : Reads hash keys into done g) {f : ResponseFrame}
    (hfirst : f.first = done.length) (hkeys : done.length + f.answers.length ≤ keys)
    (h32 : keys < 2 ^ 32) (hinto : into.length = keys) (hsize : ∀ a ∈ f.answers, a.blen < 2 ^ 32)
    (hsum : verify = true → ∀ a ∈ f.answers, a.hit = true → hash a.data = a.sum) {h : Header}
    (hlen : h.payloadLen.toNat = frameLen f.answers) (tail : List UInt8) :
    ∃ g', readGetFrame hash verify pace keys h g
      ((f.bufs keys).flatten ++ tail) = (g', .ok (), tail) ∧
      Reads hash keys into (done ++ f.answers) g' ∧ g'.got = g.got + f.answers.length := by
  have hcount : (UInt32.ofNat (f.answers.map Fetched.desc).length).toNat = f.answers.length := by
    rw [length_map]
    exact UInt32.toNat_ofNat_of_lt' (lt_of_le_of_lt (by omega) h32)
  have hfst : (UInt32.ofNat f.first).toNat = done.length := by
    rw [hfirst]
    exact UInt32.toNat_ofNat_of_lt' (lt_of_le_of_lt (by omega) h32)
  have htotal : (UInt32.ofNat keys).toNat = keys := UInt32.toNat_ofNat_of_lt' h32
  have hpre : ¬h.payloadLen.toNat = preambleSize := by
    rw [hlen]
    unfold frameLen getRespHeaderSize preambleSize
    omega
  obtain ⟨w1, w2, w3, w4⟩ := words_read .ok (UInt32.ofNat (f.answers.map Fetched.desc).length)
    (UInt32.ofNat f.first) (UInt32.ofNat keys)
  have htable : ((f.answers.map Fetched.desc).flatMap Desc.encode).length =
      f.answers.length * descSize := by
    rw [length_flatMap_rows Desc.length_encode, length_map]
  have hrows :
      rows getDesc descSize ((f.answers.map Fetched.desc).flatMap Desc.encode) f.answers.length =
      f.answers.map Fetched.desc := by
    have := rows_getDesc (f.answers.map Fetched.desc) []
    rwa [append_nil, length_map] at this
  obtain ⟨g', hblocks, hr', hgot⟩ := hr.readBlocks pace hkeys hinto hsize hsum tail
  refine ⟨{ g' with got := g'.got + f.answers.length }, ?_,
    ⟨hr'.statuses, hr'.slots, hr'.clean, hr'.jobs⟩, ?_⟩
  · unfold Client.readGetFrame
    rw [if_neg hpre, ResponseFrame.bufs, getRespHeader_eq, flatten_cons, append_assoc, append_assoc,
      readFull_append (length_getRespWords _ _ _ _)]
    dsimp only
    rw [w1, w2, w3, w4, if_neg (by simp), if_neg (by rw [hcount, hfst, htotal]; omega), hcount,
      readFull_append htable]
    dsimp only
    rw [hrows, hfst, hblocks]
  · dsimp only
    rw [hgot]

theorem readGetLoop_eq (dg : Digests) (g : GetState) (s : List UInt8) :
    readGetLoop dg hash verify pace keys g s =
      match nextHeader dg s with
      | .error e => ((fail hash g e).1, (fail hash g e).2, [])
      | .ok (h, rest) =>
        match Client.readGetFrame hash verify pace keys h g rest with
        | (g, .error e, rest) => ((fail hash g e).1, (fail hash g e).2, rest)
        | (g, .ok (), rest) =>
          if h.flags &&& flagMore = 0 then finish hash keys g rest
          else readGetLoop dg hash verify pace keys g rest := by
  rw [readGetLoop]
  split
  · next e hs => rw [hs]
  next h rest hs =>
  rw [hs]
  dsimp only
  split
  · next g₁ e rest₁ hf => rw [hf]
  · next g₁ rest₁ hf => rw [hf]

theorem readGetLoop_frame {dg : Digests} {s rest rest' : List UInt8} {h : Header} {g' : GetState}
    (hnext : nextHeader dg s = .ok (h, rest))
    (hframe : Client.readGetFrame hash verify pace keys h g rest = (g', .ok (), rest')) :
    readGetLoop dg hash verify pace keys g s = if h.flags &&& flagMore = 0
      then finish hash keys g' rest'
      else readGetLoop dg hash verify pace keys g' rest' := by
  rw [readGetLoop_eq, hnext]
  dsimp only
  rw [hframe]

theorem readGetLoop_congr {dg : Digests} {s s' : List UInt8}
    (h : nextHeader dg s = nextHeader dg s') :
    readGetLoop dg hash verify pace keys g s = readGetLoop dg hash verify pace keys g s' := by
  rw [readGetLoop_eq, readGetLoop_eq dg g s', h]

theorem Reads.finish (hr : Reads hash keys into done g) (hdone : done.length = keys)
    (hinto : into.length = keys) (hgot : g.got = keys) (rest : List UInt8) :
    ∃ g', Client.finish hash keys g rest = (g', .ok (done.map fun f => f.desc.status), rest) ∧
      g'.into = merge done into := by
  have hall : Reads hash keys into done (verifyAll hash g) := hr.verifySome (by omega) _
  have hcount : (verifyAll hash g).got = keys := (verifySome_got _ _).trans hgot
  refine ⟨verifyAll hash g, ?_, hall.slots⟩
  unfold Client.finish
  dsimp only
  rw [hall.clean]
  dsimp only
  rw [if_neg (not_not.mpr hcount), hall.statuses, hdone, Nat.sub_self, replicate_zero, append_nil]

end Reading

end KVStash.Client
