/- GID: KVStash/Connector/ChainIdentity
   digest: Chain keys of two requests agree exactly when the requests agree up to that block. -/

import KVStash.Connector.ChainKeys
import KVStash.Foundation.Delimited
import KVStash.Foundation.Listing
import Mathlib.Data.String.Basic

set_option autoImplicit false

namespace KVStash.Connector

open Foundation Foundation.Bytes Foundation.Delimited List

/-- The bytes of `kvblockd-vllm-fp-v1` and a zero. -/
def fpDomain : List UInt8 :=
  [107, 118, 98, 108, 111, 99, 107, 100, 45, 118, 108, 108, 109, 45, 102, 112, 45, 118, 49, 0]

/-- What the keys of a request are made of. The fields of the configuration are a dict, listed by
its keys; every value is given as its text. -/
structure Request where
  fields : Listing Text Text fun a b => a.1 < b.1
  cacheSalt : Option Text
  loraName : Option Text
  mmIds : List Text
  blockSize : ℕ
  pos : 0 < blockSize
  tokens : List UInt32

section Links

variable (c : Chain) (seed : List UInt8) (tokens : List UInt32)

def chunk (i : ℕ) : List UInt32 := (tokens.drop (i * c.blockSize)).take c.blockSize

/-- The seed and the keys of the blocks, as the chain runs through them. -/
def link : ℕ → List UInt8
  | 0 => seed
  | i + 1 => c.next (link i) (chunk c tokens i)

end Links

namespace Request

variable (blake3 : List UInt8 → List UInt8) (r : Request)

def chain : Chain := ⟨blake3, r.blockSize, r.pos⟩

def fingerprintBlob : List UInt8 :=
  fpDomain ++ (r.fields.rows.flatMap fun kv => [kv.1, kv.2]).flatMap lps

def fingerprint : List UInt8 := blake3 r.fingerprintBlob

/-- The text of a field of `chain_seed`; an absent one is the empty text. -/
def text (t : Option Text) : Text := t.getD Text.empty

def seedBlob : List UInt8 :=
  chainDomain ++
    (r.fingerprint blake3 ++ (text r.cacheSalt :: text r.loraName :: r.mmIds).flatMap lps)

def chainSeed : List UInt8 := blake3 (r.seedBlob blake3)

def keys : List (List UInt8) := (r.chain blake3).blockChainKeys (r.chainSeed blake3) r.tokens

def linkBlob (i : ℕ) : List UInt8 :=
  chainDomain ++ link (r.chain blake3) (r.chainSeed blake3) r.tokens i ++
    pack (chunk (r.chain blake3) r.tokens i)

/-- Everything that is hashed for the keys of the request. -/
def inputs : List (List UInt8) :=
  r.fingerprintBlob :: r.seedBlob blake3 :: (range (r.tokens.length / r.blockSize)).map
    (r.linkBlob blake3)

end Request

/-! ### The chain as links -/

section Links

variable {c : Chain} {seed : List UInt8} {tokens tokens' : List UInt32}

theorem link_succ_front (i : ℕ) :
    link c seed tokens (i + 1) = link c (c.next seed (tokens.take c.blockSize))
      (tokens.drop c.blockSize) i := by
  induction i with
  | zero => rw [link, link, link, chunk, Nat.zero_mul, drop_zero]
  | succ i ih =>
    have hchunk : chunk c tokens (i + 1) = chunk c (tokens.drop c.blockSize) i := by
      rw [chunk, chunk, drop_drop, Nat.succ_mul, Nat.add_comm]
    rw [link, ih, hchunk, ← link]

theorem getElem_keysFrom {n i : ℕ} (hi : i < n) :
    (c.keysFrom n seed tokens)[i]? = some (link c seed tokens (i + 1)) := by
  induction n generalizing seed tokens i with
  | zero => exact absurd hi (Nat.not_lt_zero i)
  | succ n ih =>
    rw [Chain.keysFrom, link_succ_front]
    cases i with
    | zero => rfl
    | succ i => exact ih (Nat.lt_of_succ_lt_succ hi)

theorem take_succ_block (i : ℕ) :
    tokens.take ((i + 1) * c.blockSize) = tokens.take (i * c.blockSize) ++ chunk c tokens i := by
  rw [Nat.succ_mul, take_add, chunk]

theorem length_chunk {i : ℕ} (hi : i < tokens.length / c.blockSize) :
    (chunk c tokens i).length = c.blockSize := by
  have hle : (i + 1) * c.blockSize ≤ tokens.length :=
    (Nat.mul_le_mul_right _ hi).trans (Nat.div_mul_le_self ..)
  rw [Nat.succ_mul] at hle
  rw [chunk, length_take, length_drop]
  omega

theorem link_congr {i : ℕ}
    (h : tokens.take ((i + 1) * c.blockSize) = tokens'.take ((i + 1) * c.blockSize)) :
    link c seed tokens (i + 1) = link c seed tokens' (i + 1) := by
  have hkeys := congrArg (·[i]?) (Chain.keysFrom_congr h : c.keysFrom _ seed _ = _)
  simp only [getElem_keysFrom (Nat.lt_succ_self i)] at hkeys
  exact Option.some.inj hkeys

theorem pack_inj {a b : List UInt32} (h : pack a = pack b) : a = b := by
  induction a generalizing b with
  | nil =>
    cases b with
    | nil => rfl
    | cons y b => exact absurd h (by simp [pack, leBytes])
  | cons x a ih =>
    cases b with
    | nil => exact absurd h (by simp [pack, leBytes])
    | cons y b =>
      have hcons : leBytes 4 x.toNat ++ pack a = leBytes 4 y.toNat ++ pack b := h
      obtain ⟨hhead, htail⟩ := append_inj hcons (by rw [length_leBytes, length_leBytes])
      have hxy : x.toNat = y.toNat := by
        rw [← leNat_leBytes_of_lt (w := 4) x.toNat_lt, hhead,
          leNat_leBytes_of_lt (w := 4) y.toNat_lt]
      rw [UInt32.toNat_inj.mp hxy, ih htail]

end Links

/-! ### Two requests -/

namespace Request

/-- No input of the one request has the digest of another input of the other. -/
def Apart (blake3 : List UInt8 → List UInt8) (r r' : Request) : Prop :=
  ∀ x ∈ r.inputs blake3, ∀ y ∈ r'.inputs blake3, blake3 x = blake3 y → x = y

instance (blake3 : List UInt8 → List UInt8) (r r' : Request) : Decidable (r.Apart blake3 r') :=
  inferInstanceAs
    (Decidable (∀ x ∈ r.inputs blake3, ∀ y ∈ r'.inputs blake3, blake3 x = blake3 y → x = y))

/-- The requests agree up to and with block `i`. -/
structure SamePrefix (r r' : Request) (i : ℕ) : Prop where
  blockSize : r.blockSize = r'.blockSize
  fields : r.fields.rows = r'.fields.rows
  cacheSalt : text r.cacheSalt = text r'.cacheSalt
  loraName : text r.loraName = text r'.loraName
  mmIds : r.mmIds = r'.mmIds
  tokens : r.tokens.take ((i + 1) * r.blockSize) = r'.tokens.take ((i + 1) * r'.blockSize)

variable {blake3 : List UInt8 → List UInt8} {r r' : Request} {i j : ℕ}

theorem rows_inj {as bs : List (Text × Text)}
    (h : (as.flatMap fun kv => [kv.1, kv.2]) = bs.flatMap fun kv => [kv.1, kv.2]) : as = bs := by
  induction as generalizing bs with
  | nil =>
    cases bs with
    | nil => rfl
    | cons b bs => cases h
  | cons a as ih =>
    cases bs with
    | nil => cases h
    | cons b bs =>
      obtain ⟨hkey, hrest⟩ := cons.inj h
      obtain ⟨hvalue, hrest⟩ := cons.inj hrest
      rw [ih hrest, Prod.ext hkey hvalue]

theorem Apart.symm (h : r.Apart blake3 r') : r'.Apart blake3 r :=
    fun x hx y hy he => (h y hy x hx he.symm).symm

theorem fpDomain_ne_chainDomain (x y : List UInt8) : fpDomain ++ x ≠ chainDomain ++ y := by
  simp [fpDomain, chainDomain]

theorem seedBlob_mem : r.seedBlob blake3 ∈ r.inputs blake3 := mem_cons_of_mem _ mem_cons_self

theorem linkBlob_mem (hi : i < r.tokens.length / r.blockSize) :
    r.linkBlob blake3 i ∈ r.inputs blake3 :=
  mem_cons_of_mem _ (mem_cons_of_mem _ (mem_map_of_mem (mem_range.mpr hi)))

variable (r) in
/-- A link is the seed or a key, so a digest of something that starts with the chain's domain. -/
theorem link_eq (blake3 : List UInt8 → List UInt8) (hi : i ≤ r.tokens.length / r.blockSize) :
    ∃ x, chainDomain ++ x ∈ r.inputs blake3 ∧
      link (r.chain blake3) (r.chainSeed blake3) r.tokens i = blake3 (chainDomain ++ x) := by
  cases i with
  | zero => exact ⟨_, seedBlob_mem, rfl⟩
  | succ i =>
    have hmem : r.linkBlob blake3 i ∈ r.inputs blake3 := linkBlob_mem hi
    rw [linkBlob, append_assoc] at hmem
    refine ⟨_, hmem, ?_⟩
    rw [link, Chain.next, append_assoc]
    rfl

variable (hlen : ∀ x, (blake3 x).length = 32) (h : r.Apart blake3 r')

include hlen h

theorem seed_ne_key (hj : j < r'.tokens.length / r'.blockSize) :
    r.chainSeed blake3 ≠ link (r'.chain blake3) (r'.chainSeed blake3) r'.tokens (j + 1) := by
  intro he
  have hblob : r.seedBlob blake3 = r'.linkBlob blake3 j := h _ seedBlob_mem _ (linkBlob_mem hj) he
  obtain ⟨x, hx, hlink⟩ := r'.link_eq blake3 hj.le
  rw [seedBlob, linkBlob, append_assoc, hlink] at hblob
  have hfp := (append_inj (append_cancel_left hblob) ((hlen _).trans (hlen _).symm)).1
  exact fpDomain_ne_chainDomain _ _ (h _ mem_cons_self _ hx hfp)

theorem seed_inj (he : r.chainSeed blake3 = r'.chainSeed blake3) :
    r.fields.rows = r'.fields.rows ∧ text r.cacheSalt = text r'.cacheSalt ∧
      text r.loraName = text r'.loraName ∧
      r.mmIds = r'.mmIds := by
  have hblob := h _ seedBlob_mem _ seedBlob_mem he
  rw [seedBlob, seedBlob] at hblob
  obtain ⟨hfp, htexts⟩ := append_inj (append_cancel_left hblob) ((hlen _).trans (hlen _).symm)
  have hfields := append_cancel_left (h _ mem_cons_self _ mem_cons_self hfp)
  obtain ⟨hsalt, hrest⟩ := cons.inj (flatMap_lps_inj htexts)
  exact ⟨rows_inj (flatMap_lps_inj hfields), hsalt, cons.inj hrest⟩

theorem link_inj (hi : i ≤ r.tokens.length / r.blockSize) (hj : j ≤ r'.tokens.length / r'.blockSize)
    (he : link (r.chain blake3) (r.chainSeed blake3) r.tokens i =
      link (r'.chain blake3) (r'.chainSeed blake3) r'.tokens j) :
    i = j ∧ r.chainSeed blake3 = r'.chainSeed blake3 ∧ (i ≠ 0 → r.blockSize = r'.blockSize) ∧
      r.tokens.take (i * r.blockSize) = r'.tokens.take (j * r'.blockSize) := by
  induction i generalizing j with
  | zero =>
    cases j with
    | zero => exact ⟨rfl, he, fun h => absurd rfl h, by simp⟩
    | succ j => exact absurd he (seed_ne_key hlen h hj)
  | succ i ih =>
    cases j with
    | zero => exact absurd he.symm (seed_ne_key hlen h.symm hi)
    | succ j =>
      have hblob := h _ (linkBlob_mem hi) _ (linkBlob_mem hj) he
      obtain ⟨x, -, hx⟩ := r.link_eq blake3 (Nat.le_of_succ_le hi)
      obtain ⟨y, -, hy⟩ := r'.link_eq blake3 (Nat.le_of_succ_le hj)
      rw [linkBlob, linkBlob, append_assoc, append_assoc] at hblob
      obtain ⟨hprev, hpack⟩ := append_inj (append_cancel_left hblob)
        (by rw [hx, hy, hlen, hlen])
      obtain ⟨rfl, hseed, -, htake⟩ := ih (Nat.le_of_succ_le hi) (Nat.le_of_succ_le hj) hprev
      have hchunk := pack_inj hpack
      have hsize : r.blockSize = r'.blockSize :=
        (length_chunk (c := r.chain blake3) hi).symm.trans
          ((congrArg length hchunk).trans (length_chunk (c := r'.chain blake3) hj))
      have hblock : r.tokens.take _ = _ := take_succ_block (c := r.chain blake3) i
      rw [hchunk] at hblock
      exact ⟨rfl, hseed, fun _ => hsize, hblock.trans
          ((congrArg (· ++ _) htake).trans (take_succ_block (c := r'.chain blake3) i).symm)⟩

omit hlen h in
theorem getElem_keys {k : List UInt8} (hk : (r.keys blake3)[i]? = some k) :
    i < r.tokens.length / r.blockSize ∧ k = link (r.chain blake3)
      (r.chainSeed blake3) r.tokens (i + 1) := by
  have hi : i < r.tokens.length / r.blockSize := by
    obtain ⟨hi, -⟩ := List.getElem?_eq_some_iff.mp hk
    rwa [keys, Chain.length_blockChainKeys] at hi
  exact ⟨hi, Option.some.inj (hk.symm.trans (getElem_keysFrom hi))⟩

omit hlen h in
theorem SamePrefix.link_eq (hs : r.SamePrefix r' i) :
    link (r.chain blake3) (r.chainSeed blake3) r.tokens (i + 1) =
      link (r'.chain blake3) (r'.chainSeed blake3) r'.tokens (i + 1) := by
  obtain ⟨fields, salt, lora, mmIds, size, pos, tokens⟩ := r
  obtain ⟨fields', salt', lora', mmIds', size', pos', tokens'⟩ := r'
  obtain ⟨rfl, hfields, hsalt, hlora, rfl, htokens⟩ := hs
  have hseed : chainSeed blake3 ⟨fields, salt, lora, mmIds, size, pos, tokens⟩ =
      chainSeed blake3 ⟨fields', salt', lora', mmIds, size, pos, tokens'⟩ := by
    dsimp only at hfields hsalt hlora
    rw [chainSeed, chainSeed, seedBlob, seedBlob, fingerprint, fingerprint, fingerprintBlob,
      fingerprintBlob, hfields, hsalt, hlora]
  rw [hseed]
  exact link_congr (c := ⟨blake3, size, pos⟩) htokens

/-- The digests are those of BLAKE3: 32 bytes, and no two inputs of the requests have the same
one. -/
theorem chain_keys_identify :
    (∀ i j k k', (r.keys blake3)[i]? = some k → (r'.keys blake3)[j]? = some k' →
      (k = k' ↔ i = j ∧ r.SamePrefix r' i)) ∧
    r.chainSeed blake3 ∉ r'.keys blake3 := by
  refine ⟨fun i j k k' hk hk' => ⟨fun he => ?_, ?_⟩, fun hmem => ?_⟩
  · obtain ⟨hi, rfl⟩ := getElem_keys hk
    obtain ⟨hj, rfl⟩ := getElem_keys hk'
    obtain ⟨hij, hseed, hsize, htake⟩ := link_inj hlen h hi hj he
    obtain ⟨hfields, hsalt, hlora, hmm⟩ := seed_inj hlen h hseed
    cases Nat.succ.inj hij
    exact ⟨rfl, hsize (Nat.succ_ne_zero i), hfields, hsalt, hlora, hmm, htake⟩
  · rintro ⟨rfl, hs⟩
    rw [(getElem_keys hk).2, (getElem_keys hk').2]
    exact hs.link_eq
  · obtain ⟨j, hj, he⟩ := getElem_of_mem hmem
    obtain ⟨hlt, hkey⟩ := getElem_keys (List.getElem?_eq_some_iff.mpr ⟨hj, he⟩)
    exact seed_ne_key hlen h hlt hkey

end Request

/-- A digest of 32 bytes for concrete requests: the number that the bytes spell, modulo a prime. -/
def residue (b : List UInt8) : List UInt8 := leBytes 32 (leNat b % (2 ^ 255 - 19))

def twoTokens (t : UInt32) : Request :=
  ⟨⟨[(⟨"model", by decide⟩, ⟨"m", by decide⟩)], pairwise_singleton ..⟩, none, none, [], 1,
    Nat.one_pos, [5, t]⟩

theorem chain_keys_identify_second :
    (twoTokens 6).Apart residue (twoTokens 7) ∧ ∀ k k', ((twoTokens 6).keys residue)[1]? = some k →
      ((twoTokens 7).keys residue)[1]? = some k' → k ≠ k' := by
  have hapart : (twoTokens 6).Apart residue (twoTokens 7) := by decide +kernel
  refine ⟨hapart, fun k k' hk hk' he => ?_⟩
  have hsame := (Request.chain_keys_identify (fun _ => length_leBytes ..) hapart).1 1 1 k k' hk hk'
  exact absurd (hsame.mp he).2.tokens (by decide)

end KVStash.Connector
