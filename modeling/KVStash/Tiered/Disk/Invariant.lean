/- GID: KVStash/Tiered/Disk/Invariant
   digest: What the threads below DRAM own, and how it accounts for entries, segments, objects and
     charges. -/

import KVStash.Dram.Tier.Invariant
import KVStash.Tiered.Disk.Model

set_option autoImplicit false

namespace KVStash.Tiered.Disk

open Protocol Foundation.Tally
open Dram.Tier (Key Audit)

/-! ### What a thread owns -/

/-- How far the owner of a segment's latch has come. A retire has swept some keys, a
spill acknowledgement has flagged some, and a collection has found no S3-only entry
(`drained`) and then no spilled file either (`dead`). -/
inductive Stage
  | held
  | present
  | retiring (flip : Bool) (swept : List Key)
  | uploaded (flagged : List Key)
  | flagging (flagged : List Key) (k : Key) (r : NvmeRef)
  | drained
  | dead
  deriving DecidableEq

/-- What a thread can own: the latch of a segment, the knowledge of a closed
segment's keys, a record whose callback still runs, an entry it removed with the
charge and the count that go with it. -/
inductive Tok
  | latch (id : ℕ) (st : Stage)
  | footer (id : ℕ) (ks : List Key)
  | wrote (loc : Loc) (k : Key) (xxh3 : ℕ)
  | gone (r : NvmeRef) (cold : Bool)
  | nvmeDebt (ns n : ℕ)
  | s3Debt (ns n : ℕ)
  | segDebt (id : ℕ)
  deriving DecidableEq

abbrev Own : Type := Multiset Tok

def Tok.latches (id : ℕ) : Tok → ℕ
  | .latch id' _ => if id' = id then 1 else 0
  | _ => 0

def Tok.writes (id : ℕ) : Tok → ℕ
  | .wrote loc _ _ => if loc.segmentID = id then 1 else 0
  | _ => 0

def Tok.segs (id : ℕ) : Tok → ℕ
  | .segDebt id' => if id' = id then 1 else 0
  | _ => 0

def Tok.nvmeOwed (ns : ℕ) : Tok → ℤ
  | .nvmeDebt ns' n => if ns' = ns then n else 0
  | _ => 0

def Tok.s3Owed (ns : ℕ) : Tok → ℤ
  | .s3Debt ns' n => if ns' = ns then n else 0
  | _ => 0

/-! ### The invariant -/

def Minted (t : Tiers) (r : NvmeRef) : Prop := r.id < t.next ∧ (t.cells r.id).ref = r

def Writable (t : Tiers) (id : ℕ) : Prop := ∃ g, t.segs id = some g ∧ g.isSealed = false

def Closed (t : Tiers) (id : ℕ) : Prop :=
  id < t.nextSeg ∧ ∀ g, t.segs id = some g → g.isSealed = true

def Homed (t : Tiers) (k : Key) (r : NvmeRef) (id : ℕ) : Prop :=
  t.index k = some r ∧ r.loc.segmentID = id

def SealedFile (t : Tiers) (id : ℕ) : Prop := ∃ g, t.segs id = some g ∧ g.isSealed = true

/-- What the owner of a latch knows. -/
def Stage.Ok (t : Tiers) (id : ℕ) : Stage → Prop
  | .held => True
  | .present => (t.segs id).isSome
  | .retiring flip swept =>
    (∃ g, t.segs id = some g ∧ g.isSealed = true ∧ g.dying = true ∧
      (flip = true → g.spilled = true)) ∧
      ∀ k ∈ swept, ∀ r, Homed t k r id → (t.cells r.id).s3Only = true
  | .uploaded flagged => SealedFile t id ∧ t.bucket id = true ∧
      ∀ k ∈ flagged, ∀ r, Homed t k r id → (t.cells r.id).s3 = true
  | .flagging flagged k r => SealedFile t id ∧ t.bucket id = true ∧
      (∀ k ∈ flagged, ∀ r, Homed t k r id → (t.cells r.id).s3 = true) ∧
      ∀ r', Homed t k r' id → r' = r
  | .drained => ∀ k r, Homed t k r id → (t.cells r.id).s3Only = false
  | .dead => ∀ k r, Homed t k r id → (t.cells r.id).s3Only = false ∧
      ∃ g, t.segs id = some g ∧ g.spilled = false

/-- The entry in a cell is the one the index holds. -/
def Live (t : Tiers) (i : ℕ) : Prop := t.index (t.cells i).ref.key = some (t.cells i).ref

instance (t : Tiers) (i : ℕ) : Decidable (Live t i) := inferInstanceAs (Decidable (_ = _))

/-- What the entries of the index amount to together. -/
def total {N : Type} [AddCommMonoid N] (t : Tiers) (w : NvmeCell → N) : N :=
  tally t.next fun i => if Live t i then w (t.cells i) else 0

/-- The bytes an entry accounts for in the NVMe ledger. -/
def NvmeCell.warmBytes (ns : ℕ) (c : NvmeCell) : ℤ :=
  if c.ref.key.ns = ns ∧ c.s3Only = false then c.ref.len else 0

/-- The bytes an entry accounts for in the S3 ledger. -/
def NvmeCell.coldBytes (ns : ℕ) (c : NvmeCell) : ℤ :=
  if c.ref.key.ns = ns ∧ c.s3Only = true then c.ref.len else 0

/-- Whether an entry is S3-only and lives in a segment, as a number. -/
def NvmeCell.coldIn (id : ℕ) (c : NvmeCell) : ℕ :=
  if c.ref.loc.segmentID = id ∧ c.s3Only = true then 1 else 0

/-- The tiers below DRAM against what the threads own. -/
structure Inv (a : Audit) (t : Tiers) (m : Own) : Prop where
  ids : ∀ i < t.next, (t.cells i).ref.id = i
  indexed : ∀ k r, t.index k = some r → Minted t r ∧ r.key = k
  recorded : ∀ k r, t.index k = some r → r.len = r.loc.len ∧ 0 < r.len ∧
    r.loc.segmentID < t.nextSeg ∧ ∃ data, t.recordAt r.loc k r.xxh3 = some data
  home : ∀ k r, t.index k = some r → (t.cells r.id).s3Only = false →
    (t.segs r.loc.segmentID).isSome
  cold : ∀ k r, t.index k = some r → (t.cells r.id).s3Only = true →
    (t.cells r.id).s3 = true ∧ t.bucket r.loc.segmentID = true
  spilled : ∀ k r g, t.index k = some r → t.segs r.loc.segmentID = some g → g.spilled = true →
    (t.cells r.id).s3 = true ∧ t.bucket r.loc.segmentID = true
  files : ∀ id g, t.segs id = some g → id < t.nextSeg ∧
    (g.spilled = true → g.isSealed = true) ∧ (g.dying = true → g.isSealed = true)
  active : ∀ id, t.active = some id → Writable t id
  latched : ∀ id, weigh (Tok.latches id) m = if t.inflight id then 1 else 0
  stage : ∀ id st, .latch id st ∈ m → st.Ok t id
  dying : ∀ id g, t.segs id = some g → g.dying = true →
    ∃ flip swept, .latch id (.retiring flip swept) ∈ m
  footer : ∀ id ks, .footer id ks ∈ m → Closed t id ∧ t.entryKeys id = ks
  wrote : ∀ loc k x, .wrote loc k x ∈ m → Writable t loc.segmentID ∧ 0 < loc.len ∧
    ∃ data, t.recordAt loc k x = some data
  writing : ∀ id, t.writing id = weigh (Tok.writes id) m
  gone : ∀ r b, .gone r b ∈ m → Minted t r ∧ (t.cells r.id).s3Only = b ∧ t.index r.key ≠ some r
  counted : ∀ id, total t (NvmeCell.coldIn id) + weigh (Tok.segs id) m ≤ t.segRefs id ∧
    (a.liveness → total t (NvmeCell.coldIn id) + weigh (Tok.segs id) m = t.segRefs id)
  sized : a.ledger → ∀ id, ∀ rec ∈ t.log id, rec.data.length = a.lenOf rec.xxh3
  nvmeLedger : a.ledger → ∀ ns,
    t.usedNvme ns = weigh (Tok.nvmeOwed ns) m + total t (NvmeCell.warmBytes ns)
  s3Ledger : a.ledger → ∀ ns,
    t.usedS3 ns = weigh (Tok.s3Owed ns) m + total t (NvmeCell.coldBytes ns)

variable {a : Audit} {t t' : Tiers} {m f : Own} {k : Key} {r : NvmeRef}

/-- From what a thread owns, whatever the others own, an action keeps the invariant
and leaves the thread with a response and a resource that satisfy `Q`. -/
def Holds (a : Audit) (x : Act) (m : Own) (Q : x.Resp → Own → Prop) : Prop :=
  ∀ now t f, Inv a t (m + f) → ∀ env r t', exec now x env t = some (r, t') →
    ∃ m', Inv a t' (m' + f) ∧ Q r m'

end KVStash.Tiered.Disk
