/- GID: KVStash/Tiered/Node
   digest: The state of one node: the DRAM tier over the tiers below it, and its atomic actions. -/

import KVStash.Foundation.Threads
import KVStash.Tiered.Disk.Model

set_option autoImplicit false

namespace KVStash.Tiered.Node

open Protocol Dram Foundation.Threads
open Dram.Tier (Key BlockRef)
open Tiered.Disk (Loc NvmeRef Tiers)

/-- The parameters of the orchestrator: those of the DRAM tier, the admission
filter of demotion and which halves of the S3 tier are configured. -/
structure Params where
  dram : Tier.Params
  admitMinHits : ℕ
  spill : Bool
  restore : Bool

structure State where
  dram : Tier.Store
  disk : Tiers

/-- What a call answers: its status, the bytes served, and the end of the lease it
granted. -/
structure Answer where
  status : Status
  data : List UInt8
  lease : ℕ
  deriving DecidableEq

def Answer.of (st : Status) : Answer := ⟨st, [], 0⟩

/-- The atomic steps of a node: those of the DRAM tier, those below it, the publish
of a demotion, which runs under both shard locks, and the answer of a call. -/
inductive Act
  | dram (a : Tier.Act)
  | disk (a : Disk.Act)
  | publish (k : Key) (r : BlockRef) (loc : Loc) (xxh3 : ℕ)
  | answer (x : Answer)

@[reducible] def Act.Resp : Act → Type
  | .dram a => a.Resp
  | .disk a => a.Resp
  | .publish _ _ _ _ => Unit
  | .answer _ => Unit

/-- Publish the new home of a block and move its charge from DRAM to NVMe. -/
def State.publish (s : State) (k : Key) (r : BlockRef) (loc : Loc) (xxh3 : ℕ) : State :=
  { dram := s.dram.refund k.ns loc.len
    disk := s.disk.putThen k loc xxh3 (s.dram.cells r.id).ttlUntil }

def exec (p : Params) : (a : Act) → ℕ → State → Option (a.Resp × State)
  | .dram a, env, s => (Tier.exec p.dram a env s.dram).map fun rs => (rs.1, { s with dram := rs.2 })
  | .disk a, env, s =>
    (Disk.exec s.dram.now a env s.disk).map fun rs => (rs.1, { s with disk := rs.2 })
  | .publish k r loc xxh3, _, s => some ((), s.publish k r loc xxh3)
  | .answer _, _, s => some ((), s)

section Exec

variable {p : Params} {env : ℕ} {s s' : State}

theorem exec_dram {a : Tier.Act} {r : a.Resp} (h : exec p (.dram a) env s = some (r, s')) :
    ∃ d', Tier.exec p.dram a env s.dram = some (r, d') ∧ s' = { s with dram := d' } := by
  obtain ⟨⟨r', d'⟩, ha, h⟩ := Option.map_eq_some_iff.mp h
  cases h
  exact ⟨d', ha, rfl⟩

theorem exec_disk {a : Disk.Act} {r : a.Resp} (h : exec p (.disk a) env s = some (r, s')) :
    ∃ t', Disk.exec s.dram.now a env s.disk = some (r, t') ∧ s' = { s with disk := t' } := by
  obtain ⟨⟨r', t'⟩, ha, h⟩ := Option.map_eq_some_iff.mp h
  cases h
  exact ⟨t', ha, rfl⟩

theorem exec_get {k : Key} {o : Option BlockRef}
    (h : exec p (.dram (.get k)) env s = some (o, s')) :
    s.dram.locked k = false ∧ o = s.dram.index k ∧ s = s' := by
  obtain ⟨d', ha, rfl⟩ := exec_dram h
  unfold Tier.exec at ha
  dsimp only at ha
  split at ha
  · cases ha
  · next hl =>
    cases ha
    exact ⟨Bool.eq_false_iff.mpr hl, rfl, rfl⟩

end Exec

abbrev Code (α : Type) : Type := Prog Act Act.Resp α

def dram (a : Tier.Act) : Code a.Resp := Prog.act (Act.dram a) Prog.ret

def disk (a : Disk.Act) : Code a.Resp := Prog.act (Act.disk a) Prog.ret

def publish (k : Key) (r : BlockRef) (loc : Loc) (xxh3 : ℕ) : Code Unit :=
  Prog.act (Act.publish k r loc xxh3) Prog.ret

def answer (x : Answer) : Code Unit := Prog.act (Act.answer x) Prog.ret

end KVStash.Tiered.Node
