/- GID: KVStash/Tenant/Registry
   digest: The namespace registry, the quota accountant over it, and which limit decides a charge.
     -/

import KVStash.Foundation.Run
import Mathlib.Data.List.Nodup

set_option autoImplicit false

namespace KVStash.Tenant

open Foundation.Run Function List

/-! ### The registry -/

inductive Tier
  | dram
  | nvme
  | s3
  deriving DecidableEq, Repr

/-- One tenant; a quota of zero is unlimited. -/
structure Namespace where
  id : UInt32
  name : String
  tokenHash : List UInt8
  quota : Tier → Int64
  pinQuota : Int64

/-- The registered namespaces, found by their name and by their id. -/
structure Registry where
  namespaces : List Namespace
  names : (namespaces.map (·.name)).Nodup
  ids : (namespaces.map (·.id)).Nodup

namespace Registry

def empty : Registry := ⟨[], nodup_nil, nodup_nil⟩

def byName (r : Registry) (name : String) : Option Namespace := r.namespaces.find? (·.name = name)

def byID (r : Registry) (id : UInt32) : Option Namespace := r.namespaces.find? (·.id = id)

private theorem nodup_cons_of_find {α β : Type} [DecidableEq β] {f : α → β} {l : List α} {x : α}
    (h : (l.map f).Nodup) (hx : ¬(l.find? (f · = f x)).isSome = true) : ((x :: l).map f).Nodup := by
  refine nodup_cons.mpr ⟨fun hmem => ?_, h⟩
  obtain ⟨y, hy, heq⟩ := mem_map.mp hmem
  exact hx (find?_isSome.mpr ⟨y, hy, decide_eq_true heq⟩)

private theorem find_of_nodup {α β : Type} [DecidableEq β] {f : α → β} {l : List α} {x : α}
    (h : (l.map f).Nodup) (hx : x ∈ l) : l.find? (f · = f x) = some x := by
  induction l with
  | nil => cases hx
  | cons y l ih =>
    obtain ⟨hy, h⟩ := nodup_cons.mp h
    rcases mem_cons.mp hx with rfl | hx
    · exact find?_cons_of_pos (decide_eq_true rfl)
    · have hne : f y ≠ f x := fun heq => hy (heq ▸ mem_map_of_mem hx)
      rw [find?_cons_of_neg (by simpa using hne)]
      exact ih h hx

theorem byID_of_mem {r : Registry} {ns : Namespace} (h : ns ∈ r.namespaces) :
    r.byID ns.id = some ns :=
  find_of_nodup r.ids h

theorem byName_of_mem {r : Registry} {ns : Namespace} (h : ns ∈ r.namespaces) :
    r.byName ns.name = some ns :=
  find_of_nodup r.names h

/-- `Add`, with the texts of its errors. -/
def add (r : Registry) (ns : Namespace) : Except String Registry :=
  if ns.name = "" ∨ ns.id = 0 then
    .error ("namespace " ++ ns.name.quote ++ " needs a non-empty name and a nonzero id")
  else if hname : (r.byName ns.name).isSome then .error ("duplicate namespace " ++ ns.name.quote)
  else if hid : (r.byID ns.id).isSome then
    .error ("duplicate namespace id " ++ toString ns.id ++ " (" ++ ns.name.quote ++ ")")
  else .ok ⟨ns :: r.namespaces, nodup_cons_of_find r.names hname, nodup_cons_of_find r.ids hid⟩

def quotaSnapshot (r : Registry) (id : UInt32) : Option (Tier → Int64) := (r.byID id).map (·.quota)

def writeQuota (r : Registry) (name : String) (tier : Tier) (bytes : Int64) : Registry :=
  let write (ns : Namespace) : Namespace :=
    if ns.name = name then { ns with quota := update ns.quota tier bytes } else ns
  have hname : (r.namespaces.map write).map (·.name) = r.namespaces.map (·.name) := by
    rw [map_map]
    refine map_congr_left fun ns _ => ?_
    simp only [comp, write]
    split <;> rfl
  have hid : (r.namespaces.map write).map (·.id) = r.namespaces.map (·.id) := by
    rw [map_map]
    refine map_congr_left fun ns _ => ?_
    simp only [comp, write]
    split <;> rfl
  ⟨r.namespaces.map write, hname ▸ r.names, hid ▸ r.ids⟩

end Registry

/-! ### The accountant -/

/-- The counters of one namespace and its cached limits. -/
structure NsUsage where
  used : Tier → Int64
  limit : Tier → Int64

/-- The accountant and the registry it listens to. -/
structure Quotas where
  reg : Registry
  by_ : UInt32 → Option NsUsage

namespace Quotas

def new (reg : Registry) : Quotas := ⟨reg, fun _ => none⟩

def store (q : Quotas) (ns : UInt32) (u : NsUsage) : Quotas :=
  { q with by_ := update q.by_ ns (some u) }

/-- The cached limits of a domain, read again from the registry. -/
def refreshLimits (q : Quotas) (ns : UInt32) (u : NsUsage) : NsUsage :=
  match q.reg.quotaSnapshot ns with
  | some limit => { u with limit := limit }
  | none => u

def reloadNS (q : Quotas) (ns : UInt32) : Quotas :=
  match q.by_ ns with
  | some u => q.store ns (q.refreshLimits ns u)
  | none => q

/-- The domain of a namespace, made on its first use. -/
def domain (q : Quotas) (ns : UInt32) : NsUsage :=
  match q.by_ ns with
  | some u => u
  | none => q.refreshLimits ns ⟨fun _ => 0, (q.reg.quotaSnapshot ns).getD fun _ => 0⟩

def reload (q : Quotas) : Quotas :=
  { q with by_ := fun ns => (q.by_ ns).map (q.refreshLimits ns) }

def addUsed (u : NsUsage) (tier : Tier) (n : Int64) : NsUsage :=
  { u with used := update u.used tier (u.used tier + n) }

/-- `Charge`; the flag is whether it is refused. -/
def charge (q : Quotas) (ns : UInt32) (tier : Tier) (n : Int64) : Quotas × Bool :=
  if n ≤ 0 then (q, false)
  else
    let u := q.domain ns
    if u.limit tier ≤ 0 then (q.store ns (addUsed u tier n), false)
    else if u.limit tier < u.used tier + n then (q.store ns u, true)
    else (q.store ns (addUsed u tier n), false)

def refund (q : Quotas) (ns : UInt32) (tier : Tier) (n : Int64) : Quotas :=
  if n ≤ 0 then q
  else
    let u := addUsed (q.domain ns) tier (-n)
    if u.used tier < 0 then q.store ns { u with used := update u.used tier 0 } else q.store ns u

def seed (q : Quotas) (ns : UInt32) (tier : Tier) (n : Int64) : Quotas :=
  if n ≤ 0 then q else q.store ns (addUsed (q.domain ns) tier n)

def transfer (q : Quotas) (ns : UInt32) (src dst : Tier) (n : Int64) : Quotas :=
  if n ≤ 0 then q else (q.store ns (addUsed (q.domain ns) dst n)).refund ns src n

def usage (q : Quotas) (ns : UInt32) (tier : Tier) : Int64 := ((q.by_ ns).map (·.used tier)).getD 0

/-- `SetQuota` with its notification; the flag is whether the namespace is known. -/
def setQuota (q : Quotas) (name : String) (tier : Tier) (bytes : Int64) : Quotas × Bool :=
  match q.reg.byName name with
  | none => (q, false)
  | some ns => (reloadNS { q with reg := q.reg.writeQuota name tier bytes } ns.id, true)

/-! ### The admin surface and runs -/

structure NsAddReq where
  name : String
  id : UInt32
  tokenSHA256 : String
  quotaDRAM : Int64
  quotaNVMe : Int64
  quotaS3 : Int64
  pinQuota : Int64

def NsAddReq.quota (req : NsAddReq) : Tier → Int64
  | .dram => req.quotaDRAM
  | .nvme => req.quotaNVMe
  | .s3 => req.quotaS3

/-- The admin create: the accountant after it, and the status and text of a refusal. The decoding of
the token digest is a parameter. -/
def handleAddNamespace (decodeTokenHash : String → Except String (List UInt8)) (arenaBytes : Int64)
    (q : Quotas) (req : NsAddReq) : Quotas × Option (ℕ × String) :=
  if req.pinQuota < 0 ∨ 0 < arenaBytes ∧ arenaBytes < req.pinQuota then
    (q, some (400, "pin_quota " ++ toString req.pinQuota ++ " must be in [0, dram_arena_bytes " ++
      toString arenaBytes ++ "]"))
  else match decodeTokenHash req.tokenSHA256 with
    | .error e => (q, some (400, e))
    | .ok tokenHash =>
      match q.reg.add ⟨req.id, req.name, tokenHash, req.quota, req.pinQuota⟩ with
      | .error e => (q, some (409, e))
      | .ok reg => ({ q with reg := reg }, none)

inductive Op
  | lookup (ns : UInt32)
  | seed (ns : UInt32) (tier : Tier) (n : Int64)
  | charge (ns : UInt32) (tier : Tier) (n : Int64)
  | refund (ns : UInt32) (tier : Tier) (n : Int64)
  | transfer (ns : UInt32) (src dst : Tier) (n : Int64)
  | add (ns : Namespace)
  | setQuota (name : String) (tier : Tier) (bytes : Int64)
  | reload

def exec (q : Quotas) : Op → Quotas
  | .lookup _ => q
  | .seed ns tier n => q.seed ns tier n
  | .charge ns tier n => (q.charge ns tier n).1
  | .refund ns tier n => q.refund ns tier n
  | .transfer ns src dst n => q.transfer ns src dst n
  | .add ns =>
    match q.reg.add ns with
    | .error _ => q
    | .ok reg => { q with reg := reg }
  | .setQuota name tier bytes => (q.setQuota name tier bytes).1
  | .reload => q.reload

theorem handleAddNamespace_exec (decodeTokenHash : String → Except String (List UInt8))
    (arenaBytes : Int64) (q : Quotas) (req : NsAddReq) :
    (handleAddNamespace decodeTokenHash arenaBytes q req).1 = q ∨
      ∃ tokenHash, (handleAddNamespace decodeTokenHash arenaBytes q req).1 =
        q.exec (.add ⟨req.id, req.name, tokenHash, req.quota, req.pinQuota⟩) := by
  unfold handleAddNamespace
  split
  · exact .inl rfl
  split
  · exact .inl rfl
  · rename_i tokenHash _
    refine .inr ⟨tokenHash, ?_⟩
    unfold exec
    dsimp only
    split <;> rfl

/-! ### The cached limits -/

/-- The registration of an id whose cached limits, if it has any, are the quotas it brings. -/
def Timely (q : Quotas) : Op → Prop
  | .add ns => ∀ reg, q.reg.add ns = .ok reg → ∀ u, q.by_ ns.id = some u → u.limit = ns.quota
  | _ => True

/-- The cached limits of every registered namespace are its quotas. -/
def Cached (q : Quotas) : Prop :=
  ∀ ns ∈ q.reg.namespaces, ∀ u, q.by_ ns.id = some u → u.limit = ns.quota

section Limits

variable {q : Quotas} {ns : Namespace} {id : UInt32} {u : NsUsage} {tier : Tier} {n : Int64}

theorem limit_refreshLimits (h : ns ∈ q.reg.namespaces) :
    (q.refreshLimits ns.id u).limit = ns.quota := by
  rw [refreshLimits, Registry.quotaSnapshot, Registry.byID_of_mem h, Option.map_some]

theorem by_store_self : (q.store id u).by_ id = some u := by
  simp only [Quotas.store, update_self]

theorem by_store_of_ne {i : UInt32} (h : i ≠ id) : (q.store id u).by_ i = q.by_ i := by
  simp only [Quotas.store, update_of_ne h]

theorem Cached.domain (h : q.Cached) (hns : ns ∈ q.reg.namespaces) :
    (q.domain ns.id).limit = ns.quota := by
  unfold Quotas.domain
  split
  · rename_i u hu
    exact h ns hns u hu
  · exact limit_refreshLimits hns

theorem Cached.store (h : q.Cached) (hu : u.limit = (q.domain id).limit) :
    (q.store id u).Cached := by
  intro ns hns v hv
  by_cases hid : ns.id = id
  · subst hid
    rw [by_store_self] at hv
    rw [← Option.some.inj hv, hu]
    exact h.domain hns
  · rw [by_store_of_ne hid] at hv
    exact h ns hns v hv

theorem Cached.refund (h : q.Cached) (id : UInt32) (tier : Tier) (n : Int64) :
    (q.refund id tier n).Cached := by
  unfold Quotas.refund
  split
  · exact h
  dsimp only
  split
  · exact h.store rfl
  · exact h.store rfl

theorem Cached.charge (h : q.Cached) (id : UInt32) (tier : Tier) (n : Int64) :
    (q.charge id tier n).1.Cached := by
  unfold Quotas.charge
  split
  · exact h
  dsimp only
  split
  · exact h.store rfl
  · split
    · exact h.store rfl
    · exact h.store rfl

theorem Cached.setQuota (h : q.Cached) (name : String) (tier : Tier) (bytes : Int64) :
    (q.setQuota name tier bytes).1.Cached := by
  unfold Quotas.setQuota
  cases hm : q.reg.byName name with
  | none => exact h
  | some m =>
    intro ns' hns' v hv
    have hreg : (reloadNS { q with reg := q.reg.writeQuota name tier bytes } m.id).reg =
        q.reg.writeQuota name tier bytes := by
      unfold reloadNS
      split <;> rfl
    dsimp only at hns' hv
    rw [hreg] at hns'
    by_cases hid : ns'.id = m.id
    · -- the namespace that was written, with its limits read again
      unfold reloadNS at hv
      split at hv
      · rw [hid, by_store_self, ← hid] at hv
        rw [← Option.some.inj hv]
        exact limit_refreshLimits (q := { q with reg := q.reg.writeQuota name tier bytes }) hns'
      · rename_i hnone
        rw [hid] at hv
        exact absurd (hnone.symm.trans hv) (by simp)
    · have hsame : q.by_ ns'.id = some v := by
        unfold reloadNS at hv
        split at hv
        · rwa [by_store_of_ne hid] at hv
        · exact hv
      obtain ⟨ns, hns, rfl⟩ := mem_map.mp hns'
      by_cases hn : ns.name = name
      · -- the name finds one namespace only
        have heq : ns = m := by
          have hfound := Registry.byName_of_mem hns
          rw [hn, hm] at hfound
          exact (Option.some.inj hfound).symm
        subst heq
        rw [if_pos hn] at hid
        exact absurd rfl hid
      · rw [if_neg hn] at hsame ⊢
        exact h ns hns v hsame

theorem Cached.exec (h : q.Cached) {op : Op} (ht : q.Timely op) : (q.exec op).Cached := by
  cases op with
  | lookup id => exact h
  | seed id tier n =>
    simp only [Quotas.exec, Quotas.seed]
    split
    · exact h
    · exact h.store rfl
  | charge id tier n => exact h.charge id tier n
  | refund id tier n => exact h.refund id tier n
  | transfer id src dst n =>
    simp only [Quotas.exec, Quotas.transfer]
    split
    · exact h
    · have hdst : (q.store id (addUsed (q.domain id) dst n)).Cached := h.store rfl
      exact hdst.refund id src n
  | add ns =>
    simp only [Quotas.exec]
    split
    · exact h
    rename_i reg hadd
    intro ns' hns' v hv
    have hreg : reg.namespaces = ns :: q.reg.namespaces := by
      unfold Registry.add at hadd
      split at hadd
      · cases hadd
      split at hadd
      · cases hadd
      · split at hadd
        · cases hadd
        · cases hadd
          rfl
    rw [hreg] at hns'
    rcases mem_cons.mp hns' with rfl | hns'
    · exact ht reg hadd v hv
    · exact h ns' hns' v hv
  | setQuota name tier bytes => exact h.setQuota name tier bytes
  | reload =>
    intro ns hns v hv
    obtain ⟨u, -, rfl⟩ := Option.map_eq_some_iff.mp hv
    exact limit_refreshLimits hns

theorem Cached.refused (h : q.Cached) (hns : ns ∈ q.reg.namespaces) (tier : Tier) (n : Int64) :
    (q.charge ns.id tier n).2 = (decide (0 < n) && decide (0 < ns.quota tier) &&
      decide (ns.quota tier < q.usage ns.id tier + n)) := by
  have hlimit := h.domain hns
  have hused : (q.domain ns.id).used tier = q.usage ns.id tier := by
    unfold Quotas.domain Quotas.usage
    split
    · rename_i u hu
      rw [hu]
      rfl
    · rename_i hnone
      rw [hnone, refreshLimits]
      split <;> rfl
  unfold Quotas.charge
  by_cases hn : n ≤ 0
  · rw [if_pos hn, decide_eq_false (Int64.not_lt.mpr hn)]
    rfl
  rw [if_neg hn, decide_eq_true (Int64.not_le.mp hn)]
  dsimp only
  rw [hlimit, hused]
  by_cases hq : ns.quota tier ≤ 0
  · rw [if_pos hq, decide_eq_false (Int64.not_lt.mpr hq)]
    rfl
  rw [if_neg hq, decide_eq_true (Int64.not_le.mp hq)]
  split
  · rename_i hover
    rw [decide_eq_true hover]
    rfl
  · rename_i hroom
    rw [decide_eq_false hroom]
    rfl

end Limits

def step (q : Quotas) (op : Op) : Option Quotas := some (q.exec op)

/-- In every run whose registrations are timely, a charge to a registered namespace is decided
against its configured quota: it is refused exactly if the quota is positive and the bytes in use
and those asked for exceed it. -/
theorem configured_quota_enforced (reg : Registry) {ops : List Op} {q : Quotas}
    (hrun : run step (new reg) ops = some q) (ht : Along step Timely (new reg) ops) {ns : Namespace}
    (hns : ns ∈ q.reg.namespaces) (tier : Tier) (n : Int64) :
    (q.charge ns.id tier n).2 = (decide (0 < n) && decide (0 < ns.quota tier) &&
      decide (ns.quota tier < q.usage ns.id tier + n)) := by
  have hnew : (new reg).Cached := fun ns _ u hu => nomatch hu
  have hcached : q.Cached := by
    refine run_invariant (fun p op p' h hop hs => ?_) hnew ht hrun
    obtain rfl := Option.some.inj hs
    exact h.exec hop
  exact hcached.refused hns tier n

def tenBytes : Namespace where
  id := 7
  name := "a"
  tokenHash := []
  quota := fun tier => if tier = .dram then 10 else 0
  pinQuota := 0

/-- Registered before its first use, the tenant gets six bytes once. -/
theorem configured_quota_enforced_ten :
    ∃ q, run step (new .empty) [.add tenBytes, .charge 7 .dram 6] = some q ∧
      tenBytes ∈ q.reg.namespaces ∧
      (q.charge 7 .dram 6).2 = true := by
  have hrun : run step (new .empty) [.add tenBytes, .charge 7 .dram 6] =
      some (((new .empty).exec (.add tenBytes)).exec (.charge 7 .dram 6)) := rfl
  have hns :
      tenBytes ∈ (((new .empty).exec (.add tenBytes)).exec (.charge 7 .dram 6)).reg.namespaces :=
    mem_cons_self
  have ht : Along step Timely (new .empty) [.add tenBytes, .charge 7 .dram 6] :=
    ⟨fun _ _ u hu => (nomatch hu), fun _ _ => ⟨trivial, fun _ _ => trivial⟩⟩
  refine ⟨_, hrun, hns, ?_⟩
  refine (configured_quota_enforced .empty hrun ht hns .dram 6).trans ?_
  decide

/-- Seeded by recovery before it is registered, the tenant gets eleven. -/
theorem seeded_quota_ignored :
    ∃ q, run step (new .empty) [.seed 7 .nvme 100, .add tenBytes] = some q ∧
      tenBytes ∈ q.reg.namespaces ∧
      (q.charge 7 .dram 11).2 = false :=
  ⟨_, rfl, mem_cons_self, rfl⟩

end Quotas

end KVStash.Tenant
