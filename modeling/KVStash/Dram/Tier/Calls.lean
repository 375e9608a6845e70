/- GID: KVStash/Dram/Tier/Calls
   digest: The calls of the DRAM tier as programs over its atomic actions. -/

import KVStash.Tiered.Node

set_option autoImplicit false

namespace KVStash.Dram.Tier

open Protocol Tiered.Node

variable (p : Params)

/-! ### References -/

def free (r : BlockRef) : Code Unit :=
  if r.len = 0 then pure () else dram (.free r.extent)

/-- Drop one reference; whoever drops the last one frees the extent. -/
def release (r : BlockRef) : Code Unit := do
  if ← dram (.release r) then free r else pure ()

def refundQuota (r : BlockRef) : Code Unit :=
  if r.len = 0 then pure () else dram (.refund r.key.ns r.len)

def putExistsStatus (existing : BlockRef) (xxh3 : ℕ) : Status :=
  if existing.xxh3 = xxh3 then .okExists else .errImmutableConflict

/-! ### GET -/

/-- The auto-lease of a read; answers the end of the lease. -/
def grantReadLease (r : BlockRef) : Code ℕ := do
  let now ← dram .now
  dram (.extendLease r (now + nanos p.leaseDefaultMS))
  dram (.touch r now none)
  pure (now + nanos p.leaseDefaultMS)

/-- What `GetRef` hands out: the reference held, its bytes and its lease. -/
structure Held where
  ref : BlockRef
  data : List UInt8
  lease : ℕ

/-- The zero-copy read. The caller has to release the reference it gets. -/
def getRef (k : Key) : Code (Option Held) := do
  match ← dram (.get k) with
  | none => pure none
  | some r =>
    if ← dram (.acquire r) then
      let lease ← grantReadLease p r
      dram (.hit r)
      let data ← if 0 < r.len then dram (.view r.offset r.len) else pure []
      pure (some ⟨r, data, lease⟩)
    else pure none

/-! ### PUT -/

/-- One allocation, and with an evictor running one more after its pass: what the
pass takes out are evictions like any other, interleaved here. -/
def allocate (units : ℕ) : Code (Option ℕ) := do
  match ← dram (.alloc units) with
  | some o => pure (some o)
  | none => if p.evictor then dram (.alloc units) else pure none

/-- The publish of a staged block whose extent, if it has one, starts at `offset`. -/
def publishBlock (k : Key) (offset len xxh3 : ℕ) : Code Status := do
  let (r, inserted) ← dram (.insert k offset len xxh3)
  if inserted then pure .ok
  else if 0 < len then
    -- the extent and the charge of a lost race go back
    dram (.free ⟨offset, bytesToUnits len⟩)
    dram (.refund k.ns len)
    pure (putExistsStatus r xxh3)
  else pure (putExistsStatus r xxh3)

def put (k : Key) (data : List UInt8) (xxh3 : ℕ) : Code Status := do
  match ← dram (.get k) with
  | some r => pure (putExistsStatus r xxh3)
  | none =>
    if data.length = 0 then publishBlock k 0 0 xxh3
    else
      match ← allocate p (bytesToUnits data.length) with
      | none => pure .errQuotaBytes
      | some o =>
        dram (.write o data)
        if ← dram (.charge k.ns data.length) then publishBlock k o data.length xxh3
        else
          dram (.free ⟨o, bytesToUnits data.length⟩)
          pure .errQuotaBytes

/-! ### Removals -/

def delete (k : Key) (force : Bool) : Code Status := do
  match ← dram (.gate k (.delete force)) with
  | .error st => pure st
  | .ok r =>
    dram (.remove k)
    refundQuota r
    release r
    pure .ok

/-- Evict one block; answers the bytes it gave up. -/
def evictOne (k : Key) (emergency : Bool) : Code ℕ := do
  match ← dram (.gate k (.evict emergency)) with
  | .error _ => pure 0
  | .ok r =>
    dram (.remove k)
    refundQuota r
    release r
    pure r.len

/-! ### The demotion seam -/

structure Demotee where
  ref : BlockRef
  data : List UInt8
  hits : ℕ

def refForDemotion (k : Key) : Code (Option Demotee) := do
  match ← dram (.get k) with
  | none => pure none
  | some r =>
    if r.len = 0 then pure none
    else if ← dram (.acquire r) then
      let data ← dram (.view r.offset r.len)
      let hits ← dram (.hits r)
      pure (some ⟨r, data, hits⟩)
    else pure none

/-- Take a block out after its bytes are elsewhere; the new home is published
between the gate and the removal, under the shard lock. -/
def completeDemotion (k : Key) (xxh3 : ℕ) (publish : BlockRef → Code Unit) : Code Bool := do
  match ← dram (.gate k (.demote xxh3)) with
  | .error _ => pure false
  | .ok r =>
    publish r
    dram (.remove k)
    release r
    pure true

/-! ### Leases and pins -/

/-- TOUCH_LEASE; answers the status and the end of the lease granted. -/
def touchLease (k : Key) (sub : TouchSub) (ttlMS : ℕ) : Code (Status × ℕ) := do
  match ← dram (.get k) with
  | none => pure (.notFound, 0)
  | some r =>
    match sub with
    | .touchRecency =>
      let now ← dram .now
      dram (.touch r now (if 0 < ttlMS then some (now + nanos ttlMS) else none))
      pure (.ok, 0)
    | .leaseGrant =>
      let now ← dram .now
      dram (.extendLease r (now + nanos (p.clampLeaseMS ttlMS)))
      dram (.touch r now none)
      pure (.ok, now + nanos (p.clampLeaseMS ttlMS))
    | .leaseRelease =>
      dram (.releaseLease r)
      pure (.ok, 0)
    | .other => pure (.errUnsupported, 0)

def pinOp (k : Key) (sub : PinSub) : Code Status := dram (.pinOp k sub)

end KVStash.Dram.Tier
