/- GID: KVStash/Dram/Tier/Model
   digest: The DRAM tier: index, block references, lifecycle rules, arena and its atomic actions. -/

import Mathlib.Data.List.Basic
import Mathlib.Algebra.Order.Ring.Int

set_option autoImplicit false

namespace KVStash.Protocol

/-- The statuses the store's calls answer. -/
inductive Status
  | ok | okExists | notFound
  | errQuotaBytes | errPinQuota | errBusy
  | errImmutableConflict | errLeased | errPinned | errUnsupported
  deriving DecidableEq

inductive TouchSub
  | touchRecency | leaseGrant | leaseRelease | other
  deriving DecidableEq

inductive PinSub
  | pinSoft | pinHard | unpin | other
  deriving DecidableEq

end KVStash.Protocol

namespace KVStash.Dram.Tier

open Protocol Function

/-! ### Identities, references and extents -/

/-- The block identity: namespace and content hash. -/
structure Key where
  ns : ℕ
  hash : ℕ
  deriving DecidableEq

/-- A pointer to a block with the fields fixed before it is published: the arena
offset in allocation units, the length in bytes and the digest. -/
structure BlockRef where
  id : ℕ
  key : Key
  offset : ℕ
  len : ℕ
  xxh3 : ℕ
  deriving DecidableEq

inductive PinFlags
  | none | soft | hard
  deriving DecidableEq

/-- What a block reference points to: the reference itself and its mutable
lifecycle state (times in nanoseconds, 0 for unset). -/
structure Cell where
  ref : BlockRef
  pinFlags : PinFlags
  leaseUntil : ℕ
  ttlUntil : ℕ
  lastAccess : ℕ
  refcount : ℕ
  hits : ℕ
  deriving DecidableEq

structure Extent where
  offset : ℕ
  units : ℕ
  deriving DecidableEq

def Extent.Disjoint (e f : Extent) : Prop :=
  e.offset + e.units ≤ f.offset ∨ f.offset + f.units ≤ e.offset

instance (e f : Extent) : Decidable (e.Disjoint f) :=
  inferInstanceAs (Decidable (_ ∨ _))

def AllocUnit : ℕ := 4096

def bytesToUnits (n : ℕ) : ℕ := (n + AllocUnit - 1) / AllocUnit

/-- The extent a block owns; a zero-length block owns none. -/
def BlockRef.extent (r : BlockRef) : Extent := ⟨r.offset, bytesToUnits r.len⟩

/-! ### The lifecycle rules -/

def Cell.leased (c : Cell) (now : ℕ) : Bool := c.leaseUntil > now

def Cell.pinned (c : Cell) : Bool := c.pinFlags ≠ .none

def Cell.hardPinned (c : Cell) : Bool := c.pinFlags = .hard

def Cell.canEvict (c : Cell) (now : ℕ) : Bool :=
  c.refcount = 1 && !c.leased now && !c.pinned

/-- The gating table of DELETE; the order of the tests matters. -/
def canDelete (c : Cell) (now : ℕ) (force : Bool) : Status :=
  if c.hardPinned then .errPinned
  else if force then .ok
  else if c.leased now then .errLeased
  else if c.pinned then .errPinned
  else .ok

/-- The three gates under which a block is taken out of the index. -/
inductive Gate
  | delete (force : Bool)
  | evict (emergency : Bool)
  | demote (xxh3 : ℕ)
  deriving DecidableEq

def Gate.check (g : Gate) (c : Cell) (now : ℕ) : Status :=
  match g with
  | .delete force => canDelete c now force
  | .evict emergency =>
    if c.canEvict now || (emergency && (c.refcount = 1 && !c.leased now && !c.hardPinned)) then .ok
    else .errBusy
  | .demote xxh3 => if c.ref.xxh3 ≠ xxh3 || !c.canEvict now then .errBusy else .ok

/-- The tier's parameters: arena size in units, lease durations, pin caps and the
DRAM byte limits of the namespaces (not positive: unlimited). -/
structure Params where
  units : ℕ
  leaseDefaultMS : ℕ
  leaseMaxMS : ℕ
  pinnedBytesCap : ℕ
  pinCapFor : ℕ → ℕ
  quota : ℕ → ℤ
  evictor : Bool

/-- A maximum below a nonzero default is raised to it. -/
def Params.leaseMax (p : Params) : ℕ :=
  if 0 < p.leaseDefaultMS ∧ p.leaseMaxMS < p.leaseDefaultMS then p.leaseDefaultMS else p.leaseMaxMS

def Params.clampLeaseMS (p : Params) (ttlMS : ℕ) : ℕ :=
  min (if ttlMS = 0 then p.leaseDefaultMS else ttlMS) p.leaseMax

def nanos (ms : ℕ) : ℕ := ms * 1000000

/-- The pinned-bytes cap of a namespace: its own where it has one. -/
def Params.pinCap (p : Params) (ns : ℕ) : ℕ :=
  if 0 < p.pinCapFor ns then p.pinCapFor ns else p.pinnedBytesCap

/-! ### The state -/

/-- The DRAM tier. `locked` marks the keys whose shard lock is held across steps
(the shards of the source lock more keys at once, which only rules out
interleavings), `extents` are the allocator's live extents, `pinned` and `used`
the pinned bytes and the charged DRAM bytes of each namespace. -/
structure Store where
  index : Key → Option BlockRef
  locked : Key → Bool
  cells : ℕ → Cell
  next : ℕ
  extents : List Extent
  arena : ℕ → UInt8
  pinned : ℕ → ℕ
  used : ℕ → ℤ
  now : ℕ

def emptyCell : Cell :=
  { ref := ⟨0, ⟨0, 0⟩, 0, 0, 0⟩, pinFlags := .none, leaseUntil := 0, ttlUntil := 0,
    lastAccess := 0, refcount := 0, hits := 0 }

def Store.new (now : ℕ) : Store :=
  { index := fun _ => none, locked := fun _ => false, cells := fun _ => emptyCell, next := 0,
    extents := [], arena := fun _ => 0, pinned := fun _ => 0, used := fun _ => 0, now := now }

namespace Store

def onCell (s : Store) (r : BlockRef) (f : Cell → Cell) : Store :=
  { s with cells := update s.cells r.id (f (s.cells r.id)) }

/-- Give the bytes of a hard pin back to the namespace. -/
def refundPin (s : Store) (r : BlockRef) : Store :=
  { s with pinned := update s.pinned r.key.ns (s.pinned r.key.ns - r.len) }

/-- UNPIN: both levels go, and a hard pin's bytes are given back. -/
def unpin (s : Store) (r : BlockRef) : Store :=
  (if (s.cells r.id).hardPinned then s.refundPin r else s).onCell r
    fun c => { c with pinFlags := .none }

/-- PIN at either level; only the way into a hard pin is charged. -/
def pin (p : Params) (s : Store) (r : BlockRef) (hard : Bool) : Status × Store :=
  let setTo := fun (s : Store) (f : PinFlags) => s.onCell r fun c => { c with pinFlags := f }
  if hard then
    if (s.cells r.id).hardPinned then (.ok, setTo s .hard)
    else if 0 < p.pinCap r.key.ns ∧ p.pinCap r.key.ns < s.pinned r.key.ns + r.len then
      (.errPinQuota, s)
    else
      (.ok, setTo { s with
        pinned := update s.pinned r.key.ns (s.pinned r.key.ns + r.len) } .hard)
  else if (s.cells r.id).hardPinned then (.ok, setTo (s.refundPin r) .soft)
  else (.ok, setTo s .soft)

/-- The shard-locked body of the PIN verbs. -/
def pinOp (p : Params) (s : Store) (k : Key) (sub : PinSub) : Status × Store :=
  match s.index k with
  | none => (.notFound, s)
  | some r =>
    match sub with
    | .pinSoft => pin p s r false
    | .pinHard => pin p s r true
    | .unpin => (.ok, s.unpin r)
    | .other => (.errUnsupported, s)

def view (s : Store) (offset len : ℕ) : List UInt8 :=
  (List.range len).map fun i => s.arena (offset * AllocUnit + i)

def write (s : Store) (offset : ℕ) (data : List UInt8) : Store :=
  { s with arena := fun i =>
      if h : offset * AllocUnit ≤ i ∧ i - offset * AllocUnit < data.length then
        data[i - offset * AllocUnit] else s.arena i }

/-- A range an allocator may hand out: inside the arena, apart from the live ones. -/
def Fits (p : Params) (s : Store) (e : Extent) : Prop :=
  e.offset + e.units ≤ p.units ∧ ∀ f ∈ s.extents, e.Disjoint f

instance (p : Params) (s : Store) (e : Extent) : Decidable (s.Fits p e) :=
  inferInstanceAs (Decidable (_ ∧ _))

def charge (p : Params) (s : Store) (ns n : ℕ) : Bool × Store :=
  if 0 < p.quota ns ∧ p.quota ns < s.used ns + n then (false, s)
  else (true, { s with used := update s.used ns (s.used ns + n) })

/-- Return bytes to the DRAM quota; the balance never stays negative. -/
def refund (s : Store) (ns n : ℕ) : Store :=
  { s with used := update s.used ns (max 0 (s.used ns - n)) }

end Store

/-! ### The atomic actions -/

/-- The atomic steps of the tier: shard-locked index operations, atomic changes of
a block's lifecycle fields, allocator calls, arena copies and quota counters. A
`DeleteIf` is two of them: `gate` takes the lock and decides, `remove` takes the
entry out and releases the lock. -/
inductive Act
  | get (k : Key)
  | insert (k : Key) (offset len xxh3 : ℕ)
  | gate (k : Key) (g : Gate)
  | remove (k : Key)
  | pinOp (k : Key) (sub : PinSub)
  | acquire (r : BlockRef)
  | release (r : BlockRef)
  | now
  | extendLease (r : BlockRef) (until_ : ℕ)
  | releaseLease (r : BlockRef)
  | touch (r : BlockRef) (now : ℕ) (ttlUntil : Option ℕ)
  | hit (r : BlockRef)
  | hits (r : BlockRef)
  | alloc (units : ℕ)
  | free (e : Extent)
  | write (offset : ℕ) (data : List UInt8)
  | view (offset len : ℕ)
  | charge (ns n : ℕ)
  | refund (ns n : ℕ)
  | advance (ns : ℕ)

@[reducible] def Act.Resp : Act → Type
  | .get _ => Option BlockRef
  | .insert _ _ _ _ => BlockRef × Bool
  | .gate _ _ => Except Status BlockRef
  | .remove _ => Unit
  | .pinOp _ _ => Status
  | .acquire _ => Bool
  | .release _ => Bool
  | .now => ℕ
  | .extendLease _ _ => Unit
  | .releaseLease _ => Unit
  | .touch _ _ _ => Unit
  | .hit _ => Unit
  | .hits _ => ℕ
  | .alloc _ => Option ℕ
  | .free _ => Unit
  | .write _ _ => Unit
  | .view _ _ => List UInt8
  | .charge _ _ => Bool
  | .refund _ _ => Unit
  | .advance _ => Unit

/-- Execute one action; `none` when it waits for a shard lock. The allocator is
any correct one: the second argument picks what it answers, `0` for failure and
`o + 1` for the extent at `o`, which has to be a possible one. -/
def exec (p : Params) : (a : Act) → ℕ → Store → Option (a.Resp × Store)
  | .get k, _, s => if s.locked k then none else some (s.index k, s)
  | .insert k offset len xxh3, _, s =>
    if s.locked k then none else
    match s.index k with
    | some r => some ((r, false), s)
    | none =>
      let r : BlockRef := ⟨s.next, k, offset, len, xxh3⟩
      some ((r, true), { s with
        index := update s.index k (some r)
        cells := update s.cells s.next { emptyCell with ref := r, refcount := 1 }
        next := s.next + 1 })
  | .gate k g, _, s =>
    if s.locked k then none else
    match s.index k with
    | none => some (.error .notFound, s)
    | some r =>
      match g.check (s.cells r.id) s.now with
      | .ok =>
        let s := match g with
          | .demote _ => s
          | _ => s.unpin r
        some (.ok r, { s with locked := update s.locked k true })
      | st => some (.error st, s)
  | .remove k, _, s =>
    some ((), { s with
      index := update s.index k none, locked := update s.locked k false })
  | .pinOp k sub, _, s => if s.locked k then none else some (s.pinOp p k sub)
  | .acquire r, _, s =>
    if (s.cells r.id).refcount = 0 then some (false, s)
    else some (true, s.onCell r fun c => { c with refcount := c.refcount + 1 })
  | .release r, _, s =>
    if (s.cells r.id).refcount = 0 then some (false, s)
    else some (decide ((s.cells r.id).refcount = 1),
      s.onCell r fun c => { c with refcount := c.refcount - 1 })
  | .now, _, s => some (s.now, s)
  | .extendLease r u, _, s =>
    some ((), s.onCell r fun c => { c with leaseUntil := max c.leaseUntil u })
  | .releaseLease r, _, s => some ((), s.onCell r fun c => { c with leaseUntil := 0 })
  | .touch r now ttl, _, s =>
    some ((), s.onCell r fun c => { c with lastAccess := now, ttlUntil := ttl.getD c.ttlUntil })
  | .hit r, _, s => some ((), s.onCell r fun c => { c with hits := c.hits + 1 })
  | .hits r, _, s => some ((s.cells r.id).hits, s)
  | .alloc n, env, s =>
    match env with
    | 0 => some (none, s)
    | o + 1 =>
      if s.Fits p ⟨o, n⟩ then some (some o, { s with extents := ⟨o, n⟩ :: s.extents }) else none
  | .free e, _, s => some ((), { s with extents := s.extents.erase e })
  | .write offset data, _, s => some ((), s.write offset data)
  | .view offset len, _, s => some (s.view offset len, s)
  | .charge ns n, _, s => some (s.charge p ns n)
  | .refund ns n, _, s => some ((), s.refund ns n)
  | .advance d, _, s => some ((), { s with now := s.now + d })

end KVStash.Dram.Tier
