/- GID: KVStash/Client/Handshakes
   digest: Requests sized by the first handshake of a client, on connections that each had their
     own. -/

import KVStash.Server.Caps

set_option autoImplicit false

namespace KVStash.Client.Handshakes

open Foundation Foundation.Run Foundation.Bytes Nvme Wire List

/-- What HELLO left on a connection. -/
structure Handshake where
  ns : UInt32
  limits : Limits
  feats : UInt64

/-! ### The requests -/

/-- A call of the client. The first stands for `BatchExists`, `Delete`, `TouchLease` and `Pin`; a
GET comes with the number of its slots. -/
inductive Verb
  | keyVerb (aux : UInt32) (keys : List BlockKey)
  | get (keys : List BlockKey) (slots : ℕ)
  | put (data : List UInt8) (sum : UInt64)

def Verb.size : Verb → ℕ
  | .keyVerb _ keys | .get keys _ => keys.length
  | .put data _ => data.length

inductive Body
  | keys (aux : UInt32) (keys : List BlockKey)
  | putBegin (body : PutBeginBody)
  | chunk (bytes : List UInt8)
  | commit (sum : UInt64)

def Body.encode : Body → List UInt8
  | .keys aux ks => keyList aux ks
  | .putBegin body => body.encode
  | .chunk bytes => bytes
  | .commit sum => putCommit sum

/-- The frame with the given number that a verb writes under the limits, if no answer and no error
ends the verb before; none at all if it is refused at once. -/
def frameOf (l : Limits) : Verb → ℕ → Option Body
  | .keyVerb aux keys, 0 =>
      if l.maxBatchKeys < UInt32.ofNat keys.length then none else some (.keys aux keys)
  | .get keys slots, 0 =>
    if keys = [] ∨ slots ≠ keys.length ∨ l.maxBatchKeys < UInt32.ofNat keys.length then none
    else some (.keys 0 keys)
  | .put data sum, 0 =>
    if l.maxBlobLen < UInt32.ofNat data.length then none
    else some (.putBegin ⟨UInt32.ofNat data.length, 0, sum, 0⟩)
  | .put data sum, k + 1 =>
    let chunk := l.maxFrameLen.toNat
    if l.maxBlobLen < UInt32.ofNat data.length then none
    else if k * chunk < data.length then some (.chunk ((data.drop (k * chunk)).take chunk))
    else if k = 0 ∨ (k - 1) * chunk < data.length then some (.commit sum)
    else none
  | _, _ + 1 => none

structure Respects (l : Limits) (b : Body) : Prop where
  frame : b.encode.length ≤ l.maxFrameLen.toNat
  keys : ∀ aux keys, b = .keys aux keys → keys.length ≤ l.maxBatchKeys.toNat
  blob : ∀ body, b = .putBegin body → body.totalLen ≤ l.maxBlobLen

def bitmap (feats : UInt64) : Bool := feats &&& featExistsBitmap != 0

/-- A handshake that grants at least the limits of the first one, and the same form of EXISTS
answers. -/
structure Covers (first h : Handshake) : Prop where
  keys : first.limits.maxBatchKeys ≤ h.limits.maxBatchKeys
  frame : first.limits.maxFrameLen ≤ h.limits.maxFrameLen
  blob : first.limits.maxBlobLen ≤ h.limits.maxBlobLen
  bitmap : bitmap first.feats = bitmap h.feats

/-- A full key list and a BEGIN fit a frame. -/
structure Roomy (l : Limits) : Prop where
  keys : 8 + 32 * l.maxBatchKeys.toNat ≤ l.maxFrameLen.toNat
  putBegin : putBeginSize ≤ l.maxFrameLen.toNat

/-! ### The client -/

/-- The handshake that the client keeps, and the connections of the pool in their order. -/
structure State where
  client : Handshake
  pool : List Handshake

/-- How a call leaves its connection: usable, or replaced by a redial if that succeeds. -/
inductive Outcome
  | clean
  | redialed (h : Handshake)
  | lost

namespace State

/-- `Dial`: the client keeps the first of the handshakes. -/
def dial (first : Handshake) (rest : List Handshake) : State := ⟨first, first :: rest⟩

def step (s : State) (e : Verb × Outcome) : Option State :=
  if (frameOf s.client.limits e.1 0).isNone then some s
  else match s.pool, e.2 with
    | [], _ => none
    | cn :: pool, .clean => some { s with pool := pool ++ [cn] }
    | _ :: pool, .redialed h => some { s with pool := pool ++ [h] }
    | _ :: pool, .lost => some { s with pool := pool }

/-- A verb keeps to the handshake of the connection it is given. -/
def Obeys (s : State) (v : Verb) : Prop :=
  ∀ cn, s.pool.head? = some cn →
    (∀ k b, frameOf s.client.limits v k = some b → Respects cn.limits b) ∧
    bitmap s.client.feats = bitmap cn.feats

/-- Every replacement covers the first handshake. -/
def Replaced (s : State) (e : Verb × Outcome) : Prop := ∀ h, e.2 = .redialed h → Covers s.client h

end State

open State

/-- Every server with an accepted configuration leaves that room. -/
theorem roomy_negotiateLimits {server : Limits} (hv : server.Validated) (keys frame : UInt32) :
    Roomy (negotiateLimits server keys frame) := by
  have hw := Serving.negotiateLimits_within hv keys frame
  have hframe := UInt32.le_iff_toNat_le.mp hw.floorFrame
  have hkeys := UInt32.le_iff_toNat_le.mp (UInt32.le_trans hw.keys_le hv.capKeys)
  have hf : floorMaxFrameLen.toNat = 16777216 := rfl
  have hk : capMaxBatchKeys.toNat = 65536 := rfl
  have hp : putBeginSize = 24 := rfl
  exact ⟨by omega, by omega⟩

section Frames

variable {first h : Handshake}

theorem Covers.respects_keys (hc : Covers first h) (hroom : Roomy first.limits) (aux : UInt32)
    {keys : List BlockKey} (hlen : keys.length < 2 ^ 32)
    (hle : ¬first.limits.maxBatchKeys < UInt32.ofNat keys.length) :
    Respects h.limits (.keys aux keys) := by
  have hcount := UInt32.le_iff_toNat_le.mp (UInt32.not_lt.mp hle)
  rw [UInt32.toNat_ofNat_of_lt' hlen] at hcount
  have hkeys := UInt32.le_iff_toNat_le.mp hc.keys
  have hframe := UInt32.le_iff_toNat_le.mp hc.frame
  have hfull := hroom.keys
  refine ⟨?_, fun aux' keys' heq => ?_, nofun⟩
  · rw [Body.encode, length_keyList]
    omega
  · cases heq
    omega

theorem Covers.respects_frame (hc : Covers first h) (hroom : Roomy first.limits) {v : Verb}
    (hv : v.size < 2 ^ 32) {k : ℕ} {b : Body} (hf : frameOf first.limits v k = some b) :
    Respects h.limits b := by
  have hframe := UInt32.le_iff_toNat_le.mp hc.frame
  have hbegin := hroom.putBegin
  have hp : putBeginSize = 24 := rfl
  cases v with
  | keyVerb aux keys =>
    cases k with
    | zero =>
      rw [frameOf] at hf
      split_ifs at hf with hle
      cases hf
      exact hc.respects_keys hroom aux hv hle
    | succ k => cases hf
  | get keys slots =>
    cases k with
    | zero =>
      rw [frameOf] at hf
      split_ifs at hf with hle
      cases hf
      exact hc.respects_keys hroom 0 hv fun hlt => hle (.inr (.inr hlt))
    | succ k => cases hf
  | put data sum =>
    cases k with
    | zero =>
      rw [frameOf] at hf
      split_ifs at hf with hle
      cases hf
      refine ⟨?_, nofun, fun body heq => ?_⟩
      · have hlen : (Body.putBegin ⟨UInt32.ofNat data.length, 0, sum, 0⟩).encode.length =
            putBeginSize :=
          length_fields _
        omega
      · cases heq
        exact UInt32.le_trans (UInt32.not_lt.mp hle) hc.blob
    | succ k =>
      rw [frameOf] at hf
      split_ifs at hf with hle hmore hlast
      · cases hf
        refine ⟨?_, nofun, nofun⟩
        rw [Body.encode, length_take]
        omega
      · cases hf
        refine ⟨?_, nofun, nofun⟩
        rw [Body.encode, putCommit, length_leBytes]
        omega

end Frames

structure Inv (first : Handshake) (s : State) : Prop where
  client : s.client = first
  pool : ∀ h ∈ s.pool, Covers first h

theorem Inv.step {first : Handshake} {s s' : State} {e : Verb × Outcome} (hi : Inv first s)
    (hr : Replaced s e) (hs : s.step e = some s') : Inv first s' := by
  have hnew : ∀ cn pool h, s.pool = cn :: pool → Covers first h →
      Inv first { s with pool := pool ++ [h] } := by
    intro cn pool h hpool hh
    refine ⟨hi.client, fun x hx => ?_⟩
    rcases mem_append.mp hx with hx | hx
    · exact hi.pool x (hpool ▸ mem_cons_of_mem cn hx)
    · rwa [mem_singleton.mp hx]
  unfold State.step at hs
  split_ifs at hs
  · cases hs
    exact hi
  split at hs
  · cases hs
  · next cn pool hpool ho =>
    cases hs
    exact hnew cn pool cn hpool (hi.pool cn (hpool ▸ mem_cons_self))
  · next cn pool h hpool ho =>
    cases hs
    exact hnew cn pool h hpool (hi.client ▸ hr h ho)
  · next cn pool hpool ho =>
    cases hs
    exact ⟨hi.client, fun x hx => hi.pool x (hpool ▸ mem_cons_of_mem cn hx)⟩

/-- In every run in which the other connections and every replacement grant at least what the first
handshake did, whose limits leave room for a full key list and a BEGIN, every verb with fewer than
2^32 keys or bytes keeps to the handshake of the connection it is given. -/
theorem obeys_hello {first : Handshake} {rest : List Handshake}
    {es : List (Verb × Outcome)} {s : State} (hroom : Roomy first.limits)
    (hrest : ∀ h ∈ rest, Covers first h) (hr : Along State.step Replaced (dial first rest) es)
    (hrun : run State.step (dial first rest) es = some s) (v : Verb) (hv : v.size < 2 ^ 32) :
    s.Obeys v := by
  have hdial : Inv first (dial first rest) := by
    refine ⟨rfl, fun h hh => ?_⟩
    rcases mem_cons.mp hh with rfl | hh
    · exact ⟨UInt32.le_refl _, UInt32.le_refl _, UInt32.le_refl _, rfl⟩
    · exact hrest h hh
  have hi : Inv first s := run_invariant (fun _ _ _ h hr hs => h.step hr hs) hdial hr hrun
  intro cn hcn
  have hc : Covers s.client cn := hi.client ▸ hi.pool cn (mem_of_mem_head? hcn)
  exact ⟨fun k b hf => hc.respects_frame (hi.client ▸ hroom) hv hf, hc.bitmap⟩

/-- A server's defaults, and one that takes fewer keys and answers EXISTS without the bitmap. -/
def standard : Handshake := ⟨1, ⟨512, 268435456, 33554432, 134217728⟩, featExistsBitmap⟩

def narrow : Handshake := ⟨2, ⟨128, 268435456, 33554432, 134217728⟩, 0⟩

def probe (n : ℕ) : Verb := .keyVerb 0 (replicate n 0)

theorem obeys_hello_redial :
    ∃ s, run State.step (dial standard []) [(probe 2, .redialed standard)] = some s ∧
    s.Obeys (.put [1, 2, 3] 7) := by
  have hrun : run State.step (dial standard []) [(probe 2, .redialed standard)] =
      some (dial standard []) := rfl
  have hsame : Covers standard standard := by constructor <;> decide
  have hr : Along State.step Replaced (dial standard []) [(probe 2, .redialed standard)] :=
    ⟨fun h heq => Outcome.redialed.inj heq ▸ hsame, fun _ _ => trivial⟩
  exact ⟨_, hrun, obeys_hello (by constructor <;> decide)
    (fun _ hh => absurd hh not_mem_nil) hr hrun _ (by decide)⟩

/-- After a redial the client sends 200 keys to a server that takes 128, and expects a bitmap from
it. -/
theorem disobeys_hello :
    ∃ s b, run State.step (dial standard []) [(probe 2, .redialed narrow)] = some s ∧
    s.pool.head? = some narrow ∧ frameOf s.client.limits (probe 200) 0 = some b ∧
      ¬Respects narrow.limits b ∧
    bitmap s.client.feats ≠ bitmap narrow.feats := by
  refine ⟨_, .keys 0 (replicate 200 0), rfl, rfl, ?_, fun hr => ?_, by decide⟩
  · rw [probe, frameOf, length_replicate]
    rfl
  · have hkeys := hr.keys 0 (replicate 200 0) rfl
    rw [length_replicate] at hkeys
    exact absurd hkeys (by decide)

end KVStash.Client.Handshakes
