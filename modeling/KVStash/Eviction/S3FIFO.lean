/- GID: KVStash/Eviction/S3FIFO
   digest: The S3-FIFO policy, call after call, and the map that it stands for. -/

import KVStash.Eviction.Concurrent.Invariant

set_option autoImplicit false

namespace KVStash.Eviction

open Foundation Function Option List

/-! ### The policy -/

/-- The domains of the policy; `draws` counts the walks of a map that the runtime has ordered. -/
structure S3FIFO where
  settings : Settings
  domains : Table UInt32 Domain
  draws : ℕ

namespace S3FIFO

def newS3FIFO (seed : UInt64) (ghostMax : ℤ) : S3FIFO := ⟨⟨seed, ghostMax⟩, ∅, 0⟩

def ensureDomain (s : S3FIFO) (ns : UInt32) : S3FIFO × Domain :=
  match s.domains.lookup ns with
  | some d => (s, d)
  | none => ({ s with domains := s.domains.insert ns Domain.new }, Domain.new)

def write (s : S3FIFO) (ns : UInt32) (d : Domain) : S3FIFO :=
  { s with domains := s.domains.insert ns d }

def touch (s : S3FIFO) (k : Key) : S3FIFO :=
  match s.domains.lookup k.ns with
  | none => s
  | some d =>
    match d.get s.settings k with
    | none => s
    | some e =>
      if (d.entry e).freq < 3 then s.write k.ns (d.setFreq e ((d.entry e).freq + 1)) else s

def admitKey (s : S3FIFO) (k : Key) (size now : Int64) : S3FIFO :=
  if size ≤ 0 then s
  else
    let sd := s.ensureDomain k.ns
    match sd.2.publish s.settings k size with
    | none => sd.1
    | some (d, e) => sd.1.write k.ns (d.enqueue s.settings e now)

def remove (s : S3FIFO) (k : Key) : S3FIFO :=
  match s.domains.lookup k.ns with
  | none => s
  | some d =>
    match d.get s.settings k with
    | none => s
    | some e => s.write k.ns ((d.tableDelete s.settings k).dequeue e)

/-- The scan for victims within its budget. Nobody else runs while it lets the others in. -/
def scan (p : Settings) (need : Int64) :
    ℕ → Domain → Int64 → List Candidate → Option (Domain × List Candidate)
  | 0, d, _, dst => some (d, dst)
  | budget + 1, d, got, dst =>
    if got < need then
      match d.visit p with
      | none => none
      | some .dry => some (d, dst)
      | some (.moved d) => scan p need budget d got dst
      | some (.expel d e) =>
        scan p need budget (d.tableDelete p (d.entry e).key) (got + (d.entry e).size)
          (dst ++ [d.candidate e])
    else some (d, dst)

def victims (s : S3FIFO) (ns : UInt32) (need now : Int64) (dst : List Candidate) :
    Option (S3FIFO × List Candidate) :=
  match s.domains.lookup ns with
  | none => some (s, dst)
  | some d =>
    if need ≤ 0 then some (s, dst)
    else
      let d := d.maybeDecay s.settings now
      (scan s.settings need d.budget d 0 dst).map fun x => (s.write ns x.1, x.2)

def report (ns : UInt32) (d : Domain) : Option DomainUsage :=
  let b := d.smallBytes + d.mainBytes
  let gb := d.ghost.bytes
  if 0 < b ∨ 0 < gb then some ⟨ns, b, gb⟩ else none

def usageLoop (now : Int64) : List (Sigma fun _ : UInt32 => Domain) → S3FIFO → List DomainUsage →
    S3FIFO × List DomainUsage
  | [], s, dst => (s, dst)
  | row :: rows, s, dst =>
    let d := row.2.maybeDecay s.settings now
    usageLoop now rows (s.write row.1 d) (dst ++ (report row.1 d).toList)

def usage (rt : Runtime) (s : S3FIFO) (now : Int64) (dst : List DomainUsage) :
    S3FIFO × List DomainUsage :=
  usageLoop now (rt.order s.draws s.domains.entries) { s with draws := s.draws + 1 } dst

def dropDomain (s : S3FIFO) (ns : UInt32) : S3FIFO :=
  match s.domains.lookup ns with
  | none => s
  | some _ => { s with domains := s.domains.erase ns }

def tracked (s : S3FIFO) (k : Key) : Option Int64 :=
  (s.domains.lookup k.ns).bind fun d => (d.get s.settings k).map fun e => (d.entry e).size

def policy (rt : Runtime) : Policy S3FIFO where
  step s
    | .admitKey k size now => some (s.admitKey k size now, .done)
    | .touch k _ => some (s.touch k, .done)
    | .remove k => some (s.remove k, .done)
    | .victims ns need now => (s.victims ns need now []).map fun x => (x.1, .candidates x.2)
    | .usage now => let x := s.usage rt now []; some (x.1, .usages x.2)
    | .dropDomain ns => some (s.dropDomain ns, .done)
  tracked := tracked

/-! ### One domain between two calls -/

open Concurrent (Inv Calls Pc)

def idle : Calls := fun _ => none

/-- A domain at rest stands for its namespace's part of the map. -/
structure Settled (p : Settings) (ns : UInt32) (d : Domain) (m : Tracked) : Prop where
  inv : Inv p d idle
  own : ∀ k e, d.get p k = some e → k.ns = ns
  tracked : ∀ k, k.ns = ns → ((d.get p k).map fun e => (d.entry e).size) = m.lookup k

variable {p : Settings} {ns : UInt32} {d d' : Domain} {m m' : Tracked} {k : Key} {e : ℕ}
  {size now need : Int64}

theorem update_idle (t : ℕ) (pc : Option Pc) : update (update idle t pc) t none = idle := by
  rw [update_idem]
  exact update_eq_self t idle

theorem settled_new (hm : ∀ k, k.ns = ns → m.lookup k = none) : Settled p ns Domain.new m where
  inv := Concurrent.inv_new
  own k e h := by
    rw [Domain.get, Domain.new, Shards.get_empty] at h
    cases h
  tracked k hk := by
    rw [Domain.get, Domain.new, Shards.get_empty, hm k hk]
    rfl

namespace Settled

theorem congr (h : Settled p ns d m) (hm : ∀ k, k.ns = ns → m'.lookup k = m.lookup k) :
    Settled p ns d m' :=
  ⟨h.inv, h.own, fun k hk => (h.tracked k hk).trans (hm k hk).symm⟩

theorem entry (h : Settled p ns d m) (hk : d.get p k = some e) :
    (d.entry e).key = k ∧ d.stage e = .queued ∧ k.ns = ns ∧ m.lookup k = some (d.entry e).size := by
  obtain ⟨-, hkey, hq | ⟨-, t, now, hq⟩ | ⟨-, t, s, hq⟩⟩ := h.inv.table k e hk
  · have hns := h.own k e hk
    refine ⟨hkey, hq, hns, ?_⟩
    rw [← h.tracked k hns, hk]
    rfl
  · cases hq
  · cases hq

theorem get_of_queued (h : Settled p ns d m) (hst : d.stage e = .queued) :
    d.get p (d.entry e).key = some e := by
  obtain ⟨S, M, hq⟩ := h.inv.ok
  have hlt : e < d.fresh := hq.lt_fresh fun hp => by
    rw [Domain.stage, hp] at hst
    cases hst
  rcases h.inv.held e hlt (by simp [hst]) with hk | ⟨t, hq⟩
  · exact hk
  · cases hq

theorem get_eq_none (h : Settled p ns d m) (hk : k.ns = ns) (hm : m.lookup k = none) :
    d.get p k = none := by
  rw [← h.tracked k hk, map_eq_none_iff] at hm
  exact hm

theorem becomes (h : Settled p ns d m) (hb : d.Becomes d' d.stage) : Settled p ns d' m where
  inv := by
    have hinv : Inv p d' (update idle 0 none) := h.inv.bystander hb trivial trivial
    rwa [show update idle 0 none = idle from update_eq_self 0 idle] at hinv
  own k e hk := h.own k e (hb.get k ▸ hk)
  tracked k hk := by
    rw [hb.get, ← h.tracked k hk]
    exact map_congr fun e _ => hb.size e

theorem admitKey (h : Settled p ns d m) (hk : k.ns = ns) (hm : m.lookup k = none)
    (size now : Int64) :
    ∃ d₁, d.publish p k size = some (d₁, d.fresh) ∧
      Settled p ns (d₁.enqueue p d.fresh now) (m.insert k size) := by
  have hget := h.get_eq_none hk hm
  obtain ⟨d₁, hpub, hp⟩ := h.inv.ok.publish hget size
  have hinv₁ : Inv p d₁ (update idle 0 (some (.queue d.fresh now))) := h.inv.publish hget hp trivial
  have hself : d₁.entry d.fresh = ⟨k, size, .unqueued, 0⟩ := by rw [hp.entry, if_pos rfl]
  obtain ⟨hlt, hst⟩ := hinv₁.queueing 0 d.fresh now (update_self ..)
  have hb := hp.ok.enqueue (p := p) hlt hst now
  have hget' : ∀ k', (d₁.enqueue p d.fresh now).get p k' = if k' = k then some d.fresh
      else d.get p k' :=
    fun k' => (hb.get k').trans (hp.get k')
  refine ⟨d₁, hpub, ?_, fun k' e hk' => ?_, fun k' hns => ?_⟩
  · have hinv₂ := hinv₁.enqueue (update_self ..) hb
    rwa [update_idle] at hinv₂
  · rw [hget'] at hk'
    split at hk'
    · rename_i heq
      rw [heq, hk]
    · exact h.own k' e hk'
  · rw [hget']
    by_cases heq : k' = k
    · rw [if_pos heq, heq, AList.lookup_insert, map_some, hb.size, hself]
    rw [if_neg heq, AList.lookup_insert_ne heq, ← h.tracked k' hns]
    refine map_congr fun e he => ?_
    have hlt' := (h.inv.table k' e he).1
    rw [hb.size, hp.entry, if_neg (Nat.ne_of_gt hlt')]

theorem remove (h : Settled p ns d m) (hk : d.get p k = some e) :
    Settled p ns ((d.tableDelete p k).dequeue e) (m.erase k) := by
  have hinv₁ : Inv p (d.tableDelete p k) (update idle 0 (some (.unlink e))) :=
    h.inv.delete hk trivial
  have hlt := (hinv₁.unlinking 0 e (update_self ..)).1
  have hb := hinv₁.ok.dequeue hlt
  have hget : ∀ k', ((d.tableDelete p k).dequeue e).get p k' = if k' = k then none
      else d.get p k' :=
    fun k' => (hb.get k').trans (Domain.get_tableDelete p d k k')
  refine ⟨?_, fun k' e' hk' => ?_, fun k' hns => ?_⟩
  · have hinv₂ := hinv₁.dequeue (update_self ..) hb
    rwa [update_idle] at hinv₂
  · rw [hget] at hk'
    split at hk'
    · cases hk'
    · exact h.own k' e' hk'
  rw [hget]
  by_cases heq : k' = k
  · rw [if_pos heq, heq, AList.lookup_erase]
    rfl
  · rw [if_neg heq, AList.lookup_erase_ne heq, ← h.tracked k' hns]
    exact map_congr fun e' _ => hb.size e'

theorem expel (h : Settled p ns d m) (hst : d.stage e = .queued)
    (hb : d.Becomes d' (update d.stage e .dead)) :
    Settled p ns (d'.tableDelete p (d'.entry e).key) (m.erase (d.entry e).key) := by
  have hget := h.get_of_queued hst
  have hclear : ∀ n, d'.get p (d'.entry e).key = some n → n = e := fun n hn => by
    rw [hb.get, hb.key, hget] at hn
    exact (some.inj hn).symm
  let pc : Pc := .expel e ⟨0, 0, 0, 0, []⟩
  have hinv₁ : Inv p d' (update idle 0 (some pc)) := h.inv.pop hst trivial hb
  have hinv₂ :
      Inv p (d'.tableDelete p (d'.entry e).key) (update (update idle 0 (some pc)) 0 none) :=
    hinv₁.expel (update_self ..) trivial hclear
  rw [update_idle] at hinv₂
  refine ⟨hinv₂, fun k e' hk => ?_, fun k hns => ?_⟩
  · rw [Domain.get_tableDelete] at hk
    split at hk
    · cases hk
    · exact h.own k e' (hb.get k ▸ hk)
  rw [Domain.get_tableDelete, hb.key]
  by_cases heq : k = (d.entry e).key
  · rw [if_pos heq, heq, AList.lookup_erase]
    rfl
  · rw [if_neg heq, AList.lookup_erase_ne heq, ← h.tracked k hns, hb.get]
    exact map_congr fun e' _ => hb.size e'

end Settled

theorem Settled.scan (need : Int64) (budget : ℕ) (h : Settled p ns d m) (got : Int64)
    (dst : List Candidate) :
    ∃ d' l, S3FIFO.scan p need budget d got dst = some (d', dst ++ l) ∧ Drains ns m l ∧
      Settled p ns d' (m.eraseAll l) := by
  induction budget generalizing d m got dst with
  | zero =>
    refine ⟨d, [], ?_, drains_nil ns m, h⟩
    rw [S3FIFO.scan, append_nil]
  | succ budget ih =>
    by_cases hgot : got < need
    · obtain ⟨hv, -⟩ | ⟨d₁, hv, hb⟩ | ⟨d₁, e, hv, hst, hb⟩ := h.inv.ok.visit (p := p)
      · refine ⟨d, [], ?_, drains_nil ns m, h⟩
        rw [S3FIFO.scan, if_pos hgot, hv, append_nil]
      · obtain ⟨d', l, hs, hl⟩ := ih (h.becomes hb) got dst
        refine ⟨d', l, ?_, hl⟩
        rw [S3FIFO.scan, if_pos hgot, hv]
        exact hs
      · obtain ⟨-, -, hns, hlook⟩ := h.entry (h.get_of_queued hst)
        have hc : d₁.candidate e = ⟨(d.entry e).key, (d.entry e).size⟩ := by
          rw [Domain.candidate, hb.key, hb.size]
        obtain ⟨d', l, hs, hl, hd'⟩ :=
          ih (h.expel hst hb) (got + (d₁.entry e).size) (dst ++ [d₁.candidate e])
        refine ⟨d', d₁.candidate e :: l, ?_, ?_, ?_⟩
        · rw [S3FIFO.scan, if_pos hgot, hv]
          dsimp only
          rw [hs, append_assoc, singleton_append]
        · rw [hc]
          exact Drains.cons hl hns hlook
        · rw [hc]
          exact hd'
    · refine ⟨d, [], ?_, drains_nil ns m, h⟩
      rw [S3FIFO.scan, if_neg hgot, append_nil]

theorem Settled.bytes (h : Settled p ns d m) :
    d.smallBytes + d.mainBytes = Int64.ofInt (m.bytes ns) := by
  obtain ⟨S, M, hc⟩ :=
    h.inv.ok.consistent (p := p) (fun k e hk => ⟨(h.entry hk).1, (h.entry hk).2.1⟩)
    fun e => h.get_of_queued
  have hrow : ∀ e ∈ S ++ M, m.lookup (d.entry e).key = some (d.entry e).size := fun e he => by
    obtain ⟨k, hk⟩ := (hc.entries e).mp he
    obtain ⟨hkey, -, -, hlook⟩ := h.entry hk
    rw [hkey, hlook]
  have hns : ∀ e ∈ S ++ M, (d.entry e).key.ns = ns := fun e he => by
    obtain ⟨k, hk⟩ := (hc.entries e).mp he
    obtain ⟨hkey, -, hns, -⟩ := h.entry hk
    rw [hkey, hns]
  have hsum : m.bytes ns = d.sizes (S ++ M) := by
    refine (Table.total_eq_sum hc.once hrow fun k v hk => ?_).trans ?_
    · by_cases hkns : k.ns = ns
      · left
        rw [← h.tracked k hkns] at hk
        obtain ⟨e, he, -⟩ := map_eq_some_iff.mp hk
        exact ⟨e, (hc.entries e).mpr ⟨k, he⟩, hc.key k e he⟩
      · exact .inr (if_neg hkns)
    · rw [Domain.sizes]
      congr 1
      exact map_congr_left fun e he => if_pos (hns e he)
  rw [hsum, Domain.sizes_append, Int64.ofInt_add, hc.smallBytes, hc.mainBytes]

/-! ### All domains -/

def Refines (s : S3FIFO) (m : Tracked) : Prop := Stands (Settled s.settings) s.domains m

variable {s s' : S3FIFO}

theorem settled_local (p : Settings) : Local (Settled p) := fun _ _ _ _ h hm => h.congr hm

namespace Refines

theorem write (h : Refines s m) (hd : Settled s.settings ns d m')
    (hm : ∀ k, k.ns ≠ ns → m'.lookup k = m.lookup k) (hpos : m'.Positive) :
    Refines (s.write ns d) m' :=
  Stands.insert (settled_local s.settings) h hd hm hpos

theorem tracked (h : Refines s m) (k : Key) : s.tracked k = m.lookup k := by
  unfold S3FIFO.tracked
  cases hd : s.domains.lookup k.ns with
  | none => exact (h.absent k hd).symm
  | some d => exact (h.domain k.ns d hd).tracked k rfl

theorem ensureDomain (h : Refines s m) (ns : UInt32) :
    Refines (s.ensureDomain ns).1 m ∧ (s.ensureDomain ns).1.settings = s.settings ∧
      Settled s.settings ns (s.ensureDomain ns).2 m := by
  unfold S3FIFO.ensureDomain
  cases hd : s.domains.lookup ns with
  | some d => exact ⟨h, rfl, h.domain ns d hd⟩
  | none =>
    have hnew : Settled s.settings ns Domain.new m := settled_new fun k hk => h.absent k (hk ▸ hd)
    exact ⟨h.write hnew (fun _ _ => rfl) h.pos, rfl, hnew⟩

theorem admitKey (h : Refines s m) (k : Key) (size now : Int64) (r : Response) :
    Refines (s.admitKey k size now) (m.after (.admitKey k size now, r)) := by
  have hpos := h.pos.after (.admitKey k size now, r)
  change Tracked.Positive (if size ≤ 0 ∨ (m.lookup k).isSome then m else m.insert k size) at hpos
  change Refines _ (if size ≤ 0 ∨ (m.lookup k).isSome then m else m.insert k size)
  rw [S3FIFO.admitKey]
  by_cases hsize : size ≤ 0
  · rw [if_pos hsize, if_pos (.inl hsize)]
    exact h
  rw [if_neg hsize]
  obtain ⟨hs, hset, hd⟩ := h.ensureDomain k.ns
  cases hk : m.lookup k with
  | some v =>
    rw [if_pos (.inr rfl)]
    have hget : ((s.ensureDomain k.ns).2.get s.settings k).isSome := by
      have := hd.tracked k rfl
      rw [hk] at this
      rw [← isSome_map (f := fun e => ((s.ensureDomain k.ns).2.entry e).size), this]
      rfl
    obtain ⟨e, he⟩ := isSome_iff_exists.mp hget
    dsimp only
    rw [Domain.publish_of_get he]
    exact hs
  | none =>
    have hnew : ¬(size ≤ 0 ∨ (none : Option Int64).isSome = true) := not_or.mpr ⟨hsize, nofun⟩
    rw [hk, if_neg hnew] at hpos
    rw [if_neg hnew]
    obtain ⟨d₁, hpub, hd₁⟩ := hd.admitKey rfl hk size now
    dsimp only
    rw [hpub]
    exact hs.write (hset ▸ hd₁) (fun k' hne => AList.lookup_insert_ne (ne_of_ns_ne hne)) hpos

theorem touch (h : Refines s m) (k : Key) : Refines (s.touch k) m := by
  unfold S3FIFO.touch
  cases hd : s.domains.lookup k.ns with
  | none => exact h
  | some d =>
    have hset := h.domain k.ns d hd
    dsimp only
    cases hk : d.get s.settings k with
    | none => exact h
    | some e =>
      dsimp only
      split
      · exact h.write (hset.becomes (hset.inv.ok.setFreq e _)) (fun _ _ => rfl) h.pos
      · exact h

theorem remove (h : Refines s m) (k : Key) : Refines (s.remove k) (m.erase k) := by
  have hgone : m.lookup k = none → m.erase k = m := Table.erase_of_lookup_none
  unfold S3FIFO.remove
  cases hd : s.domains.lookup k.ns with
  | none =>
    rw [hgone (h.absent k hd)]
    exact h
  | some d =>
    have hset := h.domain k.ns d hd
    dsimp only
    cases hk : d.get s.settings k with
    | none =>
      have hm := hset.tracked k rfl
      rw [hk] at hm
      rw [hgone hm.symm]
      exact h
    | some e =>
      exact h.write (hset.remove hk) (fun k' hne => AList.lookup_erase_ne (ne_of_ns_ne hne))
        (h.pos.erase k)

theorem victims (h : Refines s m) (ns : UInt32) (need now : Int64) :
    ∃ s' l, s.victims ns need now [] = some (s', l) ∧ m.Justifies
      (.victims ns need now, .candidates l) ∧
      Refines s' (m.eraseAll l) := by
  have hnone := (drains_nil ns m).justifies need now
  unfold S3FIFO.victims
  cases hd : s.domains.lookup ns with
  | none => exact ⟨s, [], rfl, hnone, h⟩
  | some d =>
    dsimp only
    by_cases hneed : need ≤ 0
    · exact ⟨s, [], if_pos hneed, hnone, h⟩
    rw [if_neg hneed]
    have hset := h.domain ns d hd
    have hdecay := hset.becomes (hset.inv.ok.refl.maybeDecay (p := s.settings) now)
    obtain ⟨d', l, hscan, hl, hd'⟩ := hdecay.scan need (d.maybeDecay s.settings now).budget 0 []
    rw [hscan, nil_append]
    exact ⟨_, l, rfl, hl.justifies need now, h.write hd' (fun k hne => hl.lookup_of_ne hne)
      (h.pos.after (.victims ns need now, .candidates l))⟩

theorem dropDomain (h : Refines s m) (ns : UInt32) :
    Refines (s.dropDomain ns) (m.after (.dropDomain ns, .done)) := by
  have herase := Stands.erase (settled_local s.settings) h ns
  unfold S3FIFO.dropDomain
  cases hd : s.domains.lookup ns with
  | none =>
    rw [Table.erase_of_lookup_none hd] at herase
    exact herase
  | some d => exact herase

theorem usageLoop (now : Int64) {rows : List (Sigma fun _ : UInt32 => Domain)} (h : Refines s m)
    (hrows : ∀ row ∈ rows, s.domains.lookup row.1 = some row.2) (hnodup : (rows.map (·.1)).Nodup)
    (dst : List DomainUsage) :
    ∃ s', S3FIFO.usageLoop now rows s dst =
        (s', dst ++ rows.filterMap fun row => report row.1 (row.2.maybeDecay s.settings now)) ∧
      Refines s' m := by
  induction rows generalizing s dst with
  | nil => exact ⟨s, by rw [S3FIFO.usageLoop, filterMap_nil, append_nil], h⟩
  | cons row rows ih =>
    rw [map_cons, nodup_cons] at hnodup
    have hset := h.domain row.1 row.2 (hrows row mem_cons_self)
    have hdecay := hset.becomes (hset.inv.ok.refl.maybeDecay (p := s.settings) now)
    have hs := h.write hdecay (fun _ _ => rfl) h.pos
    have hrest : ∀ row' ∈ rows,
        (s.write row.1 (row.2.maybeDecay s.settings now)).domains.lookup row'.1 = some row'.2 :=
        fun row' hrow' => by
      have hne : row'.1 ≠ row.1 := fun heq => hnodup.1 (heq ▸ mem_map_of_mem hrow')
      rw [S3FIFO.write, AList.lookup_insert_ne hne]
      exact hrows row' (mem_cons_of_mem row hrow')
    obtain ⟨s', hloop, hs'⟩ := ih hs hrest hnodup.2
      (dst ++ (report row.1 (row.2.maybeDecay s.settings now)).toList)
    refine ⟨s', ?_, hs'⟩
    rw [S3FIFO.usageLoop, hloop, filterMap_cons, append_assoc]
    cases report row.1 (row.2.maybeDecay s.settings now) <;> rfl

theorem usage (h : Refines s m) (rt : Runtime) (now : Int64) :
    m.Justifies (.usage now, .usages (s.usage rt now []).2) ∧ Refines (s.usage rt now []).1 m := by
  have hperm := rt.perm s.draws _ s.domains.entries
  have hrows : ∀ row ∈ rt.order s.draws s.domains.entries, s.domains.lookup row.1 = some row.2 :=
    fun row hrow => AList.mem_lookup_iff.mpr (hperm.mem_iff.mp hrow)
  have h' : Refines { s with draws := s.draws + 1 } m := ⟨h.domain, h.absent, h.pos⟩
  obtain ⟨s', hloop, hs'⟩ := h'.usageLoop now hrows
    ((hperm.map Sigma.fst).nodup_iff.mpr s.domains.nodupKeys) []
  rw [S3FIFO.usage, hloop, nil_append]
  refine ⟨Stands.justifies_report h now hperm fun row hrow => ?_, hs'⟩
  have hset := h.domain row.1 row.2 hrow
  have hbytes := (hset.becomes (hset.inv.ok.refl.maybeDecay (p := s.settings) now)).bytes
  unfold report
  dsimp only
  split_ifs with hpos
  · refine ⟨fun u hu => ?_, fun _ => rfl⟩
    cases hu
    exact ⟨rfl, hbytes⟩
  · exact ⟨fun u hu => hu.elim, fun hlt => absurd (.inl (hbytes ▸ hlt)) hpos⟩

end Refines

theorem simulates (rt : Runtime) : Simulates (policy rt) Refines where
  step {s m} h op := by
    cases op with
    | admitKey k size now => exact ⟨_, _, rfl, trivial, h.admitKey k size now .done⟩
    | touch k now => exact ⟨_, _, rfl, trivial, h.touch k⟩
    | remove k => exact ⟨_, _, rfl, trivial, h.remove k⟩
    | victims ns need now =>
      obtain ⟨s', l, hv, hj, hs'⟩ := h.victims ns need now
      refine ⟨s', .candidates l, ?_, hj, hs'⟩
      show (s.victims ns need now []).map (fun x => (x.1, Response.candidates x.2)) = _
      rw [hv]
      rfl
    | usage now =>
      obtain ⟨hj, hs'⟩ := h.usage rt now
      exact ⟨_, _, rfl, hj, hs'⟩
    | dropDomain ns => exact ⟨_, _, rfl, trivial, h.dropDomain ns⟩
  tracked h k := h.tracked k
  secondAdmission {s m} h k hk size now := by
    change (s.tracked k).isSome at hk
    show some (s.admitKey k size now, Response.done) = _
    obtain ⟨v, hv⟩ := isSome_iff_exists.mp hk
    obtain ⟨d, hd, hv⟩ := bind_eq_some_iff.mp hv
    obtain ⟨e, he, -⟩ := map_eq_some_iff.mp hv
    rw [admitKey, ensureDomain, hd]
    dsimp only
    rw [Domain.publish_of_get he, ite_self]

end S3FIFO

end KVStash.Eviction
