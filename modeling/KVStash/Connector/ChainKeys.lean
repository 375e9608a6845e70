/- GID: KVStash/Connector/ChainKeys
   digest: Content-chained block keys and the per-request cache that extends them. -/

import KVStash.Foundation.Bytes
import KVStash.Foundation.Run

set_option autoImplicit false

namespace KVStash.Connector

open Foundation.Bytes Foundation.Run List

/-! ### The chain -/

/-- The hash and the size of a block in tokens. -/
structure Chain where
  blake3 : List UInt8 → List UInt8
  blockSize : ℕ
  pos : 0 < blockSize

/-- The bytes of `kvblockd-vllm-chain-v2` and a zero. -/
def chainDomain : List UInt8 :=
  [107, 118, 98, 108, 111, 99, 107, 100, 45, 118, 108, 108, 109, 45, 99, 104, 97, 105, 110,
    45, 118, 50, 0]

def pack (tokens : List UInt32) : List UInt8 := tokens.flatMap fun t => leBytes 4 t.toNat

namespace Chain

variable (c : Chain)

def next (prev : List UInt8) (chunk : List UInt32) : List UInt8 :=
  c.blake3 (chainDomain ++ prev ++ pack chunk)

def keysFrom : ℕ → List UInt8 → List UInt32 → List (List UInt8)
  | 0, _, _ => []
  | n + 1, prev, tokens =>
    let key := c.next prev (tokens.take c.blockSize)
    key :: keysFrom n key (tokens.drop c.blockSize)

/-- `block_chain_keys`: one key for each full block. -/
def blockChainKeys (seed : List UInt8) (tokens : List UInt32) : List (List UInt8) :=
  c.keysFrom (tokens.length / c.blockSize) seed tokens

variable {c}

@[simp] theorem length_keysFrom (n : ℕ) (prev : List UInt8) (tokens : List UInt32) :
    (c.keysFrom n prev tokens).length = n := by
  induction n generalizing prev tokens with
  | zero => rfl
  | succ n ih => rw [keysFrom, length_cons, ih]

@[simp] theorem length_blockChainKeys (seed : List UInt8) (tokens : List UInt32) :
    (c.blockChainKeys seed tokens).length = tokens.length / c.blockSize := length_keysFrom _ _ _

theorem keysFrom_congr {n : ℕ} {prev : List UInt8} {tokens tokens' : List UInt32}
    (h : tokens.take (n * c.blockSize) = tokens'.take (n * c.blockSize)) :
    c.keysFrom n prev tokens = c.keysFrom n prev tokens' := by
  induction n generalizing prev tokens tokens' with
  | zero => rfl
  | succ n ih =>
    rw [Nat.succ_mul] at h
    have hhead : tokens.take c.blockSize = tokens'.take c.blockSize := by
      have := congrArg (take c.blockSize) h
      rwa [take_take, take_take, Nat.min_eq_left (Nat.le_add_left _ _)] at this
    have htail : (tokens.drop c.blockSize).take (n * c.blockSize) =
        (tokens'.drop c.blockSize).take (n * c.blockSize) := by
      have := congrArg (drop c.blockSize) h
      rwa [drop_take, drop_take, Nat.add_sub_cancel] at this
    rw [keysFrom, keysFrom, hhead, ih htail]

theorem keysFrom_add (m n : ℕ) (prev : List UInt8) (tokens : List UInt32) :
    c.keysFrom (m + n) prev tokens = c.keysFrom m prev tokens ++
      c.keysFrom n ((c.keysFrom m prev tokens).getLast?.getD prev)
        (tokens.drop (m * c.blockSize)) := by
  induction m generalizing prev tokens with
  | zero => simp [keysFrom]
  | succ m ih =>
    rw [Nat.add_right_comm, keysFrom, ih, keysFrom, cons_append, drop_drop, Nat.succ_mul,
      Nat.add_comm c.blockSize]
    congr 3
    rw [getLast?_cons, Option.getD_some]

end Chain

/-! ### The cache -/

/-- The keys of each request, with the seed they start from, the oldest entry first. -/
abbrev ChainCache := List (String × List UInt8 × List (List UInt8))

def chainCacheCap : ℕ := 2048

/-- The keys that `_chain_keys` returns: the cached ones where they fit, with those of further
blocks behind them, or all of them anew. -/
def chainKeys (c : Chain) (cache : ChainCache) (rid : String) (seed : List UInt8)
    (tokens : List UInt32) : List (List UInt8) :=
  let nBlocks := tokens.length / c.blockSize
  match cache.lookup rid with
  | some (seed', keys) =>
    if seed' = seed ∧ keys.length ≤ nBlocks then
      if keys.length < nBlocks then
        keys ++ c.blockChainKeys (keys.getLast?.getD seed) (tokens.drop (keys.length * c.blockSize))
      else keys
    else c.blockChainKeys seed tokens
  | none => c.blockChainKeys seed tokens

/-- The cache after `_chain_keys`: the entry of the request goes to the end, and the oldest entries
go until the cap holds. -/
def chainCached (c : Chain) (cache : ChainCache) (rid : String) (seed : List UInt8)
    (tokens : List UInt32) : ChainCache :=
  let cache' := cache.filter (·.1 ≠ rid) ++ [(rid, seed, chainKeys c cache rid seed tokens)]
  cache'.drop (cache'.length - chainCacheCap)

theorem mem_chainCached {c : Chain} {cache : ChainCache} {rid : String} {seed : List UInt8}
    {tokens : List UInt32} {x : String × List UInt8 × List (List UInt8)}
    (h : x ∈ chainCached c cache rid seed tokens) :
    x ∈ cache ∧ x.1 ≠ rid ∨ x = (rid, seed, chainKeys c cache rid seed tokens) := by
  rw [chainCached] at h
  rcases mem_append.mp (mem_of_mem_drop h) with h | h
  · obtain ⟨hmem, hne⟩ := mem_filter.mp h
    exact .inl ⟨hmem, of_decide_eq_true hne⟩
  · exact .inr (mem_singleton.mp h)

def requestFinished (cache : ChainCache) (rid : String) : ChainCache := cache.filter (·.1 ≠ rid)

/-! ### Runs -/

inductive ChainCall
  | keys (rid : String) (seed : List UInt8) (tokens : List UInt32)
  | finished (rid : String)

/-- The cache of a connector, and the calls so far, the latest first. -/
structure ChainMemo where
  cache : ChainCache
  past : List ChainCall

namespace ChainMemo

def new : ChainMemo := ⟨[], []⟩

def step (c : Chain) (s : ChainMemo) (e : ChainCall) : Option ChainMemo :=
  match e with
  | .keys rid seed tokens => some ⟨chainCached c s.cache rid seed tokens, e :: s.past⟩
  | .finished rid => some ⟨requestFinished s.cache rid, e :: s.past⟩

/-- The seed and the tokens of the last call for a request that has not finished since. -/
def lastCall (rid : String) : List ChainCall → Option (List UInt8 × List UInt32)
  | [] => none
  | .keys r seed tokens :: past => if r = rid then some (seed, tokens) else lastCall rid past
  | .finished r :: past => if r = rid then none else lastCall rid past

/-- A call goes on with the request: where the last call had the same seed and not more blocks, its
full blocks start the new tokens. -/
def Continues (c : Chain) (s : ChainMemo) : ChainCall → Prop
  | .keys rid seed tokens => ∀ tokens', lastCall rid s.past = some (seed, tokens') →
      tokens'.length / c.blockSize ≤ tokens.length / c.blockSize →
      tokens'.take (tokens'.length / c.blockSize * c.blockSize) =
        tokens.take (tokens'.length / c.blockSize * c.blockSize)
  | .finished _ => True

def Inv (c : Chain) (s : ChainMemo) : Prop :=
  ∀ rid seed keys, (rid, seed, keys) ∈ s.cache →
    ∃ tokens, lastCall rid s.past = some (seed, tokens) ∧ keys = c.blockChainKeys seed tokens

variable {c : Chain} {s s' : ChainMemo}

private theorem extend_eq {seed : List UInt8} {tokens tokens' : List UInt32}
    (hle : tokens'.length / c.blockSize ≤ tokens.length / c.blockSize)
    (h : tokens'.take (tokens'.length / c.blockSize * c.blockSize) =
      tokens.take (tokens'.length / c.blockSize * c.blockSize)) :
    c.blockChainKeys seed tokens' ++ c.blockChainKeys
      ((c.blockChainKeys seed tokens').getLast?.getD seed)
      (tokens.drop (tokens'.length / c.blockSize * c.blockSize)) =
        c.blockChainKeys seed tokens := by
  have hfirst : c.blockChainKeys seed tokens' =
      c.keysFrom (tokens'.length / c.blockSize) seed tokens :=
    Chain.keysFrom_congr h
  have hrest : (tokens.drop (tokens'.length / c.blockSize * c.blockSize)).length / c.blockSize =
      tokens.length / c.blockSize - tokens'.length / c.blockSize := by
    rw [length_drop, Nat.mul_comm, Nat.sub_mul_div]
  rw [hfirst, Chain.blockChainKeys, hrest, ← Chain.keysFrom_add, Nat.add_sub_cancel' hle,
    Chain.blockChainKeys]

theorem Inv.chainKeys (h : s.Inv c) {rid : String} {seed : List UInt8} {tokens : List UInt32}
    (hc : s.Continues c (.keys rid seed tokens)) :
    chainKeys c s.cache rid seed tokens = c.blockChainKeys seed tokens := by
  unfold Connector.chainKeys
  dsimp only
  split
  · rename_i seed' keys hent
    split
    · rename_i hfit
      obtain ⟨rfl, hle⟩ := hfit
      have hmem : (rid, seed', keys) ∈ s.cache := by
        obtain ⟨l₁, l₂, hl, -⟩ := lookup_eq_some_iff.mp hent
        rw [hl]
        exact mem_append_right _ mem_cons_self
      obtain ⟨tokens', hlast, rfl⟩ := h rid seed' keys hmem
      rw [Chain.length_blockChainKeys] at hle ⊢
      have hsame := hc tokens' hlast hle
      split
      · exact extend_eq hle hsame
      · rename_i hfull
        rw [Chain.blockChainKeys, Chain.blockChainKeys, ← Nat.le_antisymm hle (Nat.not_lt.mp hfull)]
        exact Chain.keysFrom_congr hsame
    · rfl
  · rfl

theorem Inv.step (h : s.Inv c) {e : ChainCall} (hc : s.Continues c e)
    (hs : ChainMemo.step c s e = some s') : s'.Inv c := by
  cases e with
  | keys rid seed tokens =>
    rw [ChainMemo.step, Option.some.injEq] at hs
    subst hs
    intro r sd ks hmem
    dsimp only at hmem
    rcases mem_chainCached hmem with ⟨hmem, hne⟩ | hmem
    · rw [lastCall, if_neg (Ne.symm hne)]
      exact h r sd ks hmem
    cases hmem
    rw [lastCall, if_pos rfl]
    exact ⟨tokens, rfl, h.chainKeys hc⟩
  | finished rid =>
    obtain rfl := Option.some.inj hs
    intro r sd ks hmem
    obtain ⟨hmem, hne⟩ := mem_filter.mp hmem
    have hne : ¬rid = r := fun heq => of_decide_eq_true hne heq.symm
    rw [lastCall, if_neg hne]
    exact h r sd ks hmem

/-- In every run of calls on one connector in which each call goes on with its request, the keys
that a call returns are the chain of its tokens. -/
theorem memoised_keys_are_chain (c : Chain) {es : List ChainCall} {s : ChainMemo}
    (hrun : run (step c) new es = some s) (hcont : Along (step c) (Continues c) new es)
    (rid : String) (seed : List UInt8) (tokens : List UInt32)
    (hnext : s.Continues c (.keys rid seed tokens)) :
    Connector.chainKeys c s.cache rid seed tokens = c.blockChainKeys seed tokens := by
  have hnew : new.Inv c := fun rid seed keys hmem => nomatch hmem
  have hinv : s.Inv c := run_invariant (fun _ _ _ h hc hs => h.step hc hs) hnew hcont hrun
  exact hinv.chainKeys hnext

/-- Blocks of two tokens under a hash that keeps its input. -/
def pairs : Chain := ⟨id, 2, by decide⟩

theorem memoised_keys_are_chain_pairs :
    ∃ s, run (step pairs) new [.keys "r" [] [1, 2, 3]] = some s ∧
      Connector.chainKeys pairs s.cache "r" [] [1, 2, 3, 4] = pairs.blockChainKeys []
        [1, 2, 3, 4] := by
  have hrun : run (step pairs) new [.keys "r" [] [1, 2, 3]] =
      some ⟨chainCached pairs [] "r" [] [1, 2, 3], [.keys "r" [] [1, 2, 3]]⟩ := rfl
  refine ⟨_, hrun,
    memoised_keys_are_chain pairs hrun ⟨?_, fun _ _ => trivial⟩ "r" [] [1, 2, 3, 4] ?_⟩
  · intro tokens' hlast
    cases hlast
  · intro tokens' hlast _
    obtain ⟨-, rfl⟩ := Prod.mk.inj (Option.some.inj hlast)
    decide

/-- A request id used again with the same seed and other tokens gets the keys of the tokens
before. -/
theorem reused_id_gets_old_keys :
    let c : Chain := ⟨id, 1, Nat.one_pos⟩
    ∃ s, run (step c) new [.keys "r" [] [1]] = some s ∧
      Connector.chainKeys c s.cache "r" [] [2] = c.blockChainKeys [] [1] ∧
      Connector.chainKeys c s.cache "r" [] [2] ≠ c.blockChainKeys [] [2] := by
  exact ⟨_, rfl, by decide +kernel, by decide +kernel⟩

end ChainMemo

end KVStash.Connector
