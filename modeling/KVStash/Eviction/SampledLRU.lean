/- GID: KVStash/Eviction/SampledLRU
   digest: The sampled least-recently-used policy, call after call, and the map that it stands for.
     -/

import KVStash.Eviction.Policy

set_option autoImplicit false

namespace KVStash.Eviction

open Foundation List

/-! ### The policy -/

/-- An entry; `id` tells two entries of one key apart, as their addresses do. -/
structure LruEntry where
  id : ℕ
  key : Key
  size : Int64
  last : Int64

structure LruDomain where
  table : Shards (Fin 16) Key LruEntry
  bytes : Int64
  fresh : ℕ

/-- The domains of the policy; `draws` counts the choices that the runtime has made. -/
structure SampledLRU where
  seed : UInt64
  domains : Table UInt32 LruDomain
  draws : ℕ

def sampleK : ℕ := 32

namespace LruDomain

def new : LruDomain := ⟨Shards.empty, 0, 0⟩

def get (seed : UInt64) (d : LruDomain) (k : Key) : Option LruEntry := d.table.get (shardOf seed) k

def rows (d : LruDomain) (i : Fin 16) : List LruEntry := (d.table i).entries.map (·.2)

/-- The walk of one shard: the stalest entry so far and the entries seen. -/
def sampleRows : List LruEntry → Option LruEntry → ℕ → Option LruEntry × ℕ
  | [], best, seen => (best, seen)
  | e :: es, best, seen =>
    let best := if best.all (fun b => e.last < b.last) then some e else best
    if sampleK ≤ seen + 1 then (best, seen + 1) else sampleRows es best (seen + 1)

def sampleShards (walk : Fin 16 → List LruEntry) :
    List (Fin 16) → Option LruEntry → ℕ → Option LruEntry
  | [], best, _ => best
  | i :: is, best, seen =>
    if seen < sampleK then
      let x := sampleRows (walk i) best seen
      sampleShards walk is x.1 x.2
    else best

/-- The stalest of up to `sampleK` entries, from a random shard on; `none` when the domain is
empty. -/
def sampleStalest (rt : Runtime) (d : LruDomain) (n : ℕ) : Option LruEntry :=
  sampleShards (fun i => rt.order n (d.rows i))
    ((range 16).map fun i => Fin.ofNat 16 (rt.draw n % 16 + i)) none 0

def takeOut (seed : UInt64) (d : LruDomain) (k : Key) (size : Int64) : LruDomain :=
  { d with table := d.table.drop (shardOf seed) k, bytes := d.bytes + -size }

/-- The rounds of a call: a sample, a look whether it is still there, and its removal. A loop that
is out of fuel has not returned. -/
def victimsLoop (rt : Runtime) (seed : UInt64) (need : Int64) :
    ℕ → LruDomain → ℕ → Int64 → List Candidate →
    Option (LruDomain × ℕ × List Candidate)
  | 0, _, _, _, _ => none
  | fuel + 1, d, n, got, dst =>
    if got < need then
      match d.sampleStalest rt n with
      | none => some (d, n + 1, dst)
      | some v =>
        if (d.get seed v.key).any (fun e => e.id = v.id) then
          victimsLoop rt seed need fuel (d.takeOut seed v.key v.size) (n + 1) (got + v.size)
            (dst ++ [⟨v.key, v.size⟩])
        else victimsLoop rt seed need fuel d (n + 1) got dst
    else some (d, n, dst)

end LruDomain

namespace SampledLRU

def newSampledLRU (seed : UInt64) : SampledLRU := ⟨seed, ∅, 0⟩

def ensureDomain (s : SampledLRU) (ns : UInt32) : SampledLRU × LruDomain :=
  match s.domains.lookup ns with
  | some d => (s, d)
  | none => ({ s with domains := s.domains.insert ns LruDomain.new }, LruDomain.new)

def write (s : SampledLRU) (ns : UInt32) (d : LruDomain) : SampledLRU :=
  { s with domains := s.domains.insert ns d }

def admitKey (s : SampledLRU) (k : Key) (size now : Int64) : SampledLRU :=
  if size ≤ 0 then s
  else
    let sd := s.ensureDomain k.ns
    match sd.2.get s.seed k with
    | some _ => sd.1
    | none => sd.1.write k.ns {
        table := sd.2.table.put (shardOf s.seed) k ⟨sd.2.fresh, k, size, now⟩
        bytes := sd.2.bytes + size
        fresh := sd.2.fresh + 1 }

def touch (s : SampledLRU) (k : Key) (now : Int64) : SampledLRU :=
  match s.domains.lookup k.ns with
  | none => s
  | some d =>
    match d.get s.seed k with
    | none => s
    | some e =>
      s.write k.ns { d with table := d.table.put (shardOf s.seed) k { e with last := now } }

def remove (s : SampledLRU) (k : Key) : SampledLRU :=
  match s.domains.lookup k.ns with
  | none => s
  | some d =>
    match d.get s.seed k with
    | none => s
    | some e => s.write k.ns (d.takeOut s.seed k e.size)

/-- Every round removes an entry, so one more round than there are entries is enough. -/
def victims (rt : Runtime) (s : SampledLRU) (ns : UInt32) (need : Int64) (dst : List Candidate) :
    Option (SampledLRU × List Candidate) :=
  match s.domains.lookup ns with
  | none => some (s, dst)
  | some d =>
    if need ≤ 0 then some (s, dst)
    else (d.victimsLoop rt s.seed need (d.table.size + 1) s.draws 0 dst).map fun x =>
      ({ s.write ns x.1 with draws := x.2.1 }, x.2.2)

def report (ns : UInt32) (d : LruDomain) : Option DomainUsage :=
  if 0 < d.bytes then some ⟨ns, d.bytes, 0⟩ else none

def usage (rt : Runtime) (s : SampledLRU) (dst : List DomainUsage) :
    SampledLRU × List DomainUsage :=
  ({ s with draws := s.draws + 1 },
    dst ++ (rt.order s.draws s.domains.entries).filterMap fun row => report row.1 row.2)

def dropDomain (s : SampledLRU) (ns : UInt32) : SampledLRU :=
  match s.domains.lookup ns with
  | none => s
  | some _ => { s with domains := s.domains.erase ns }

def tracked (s : SampledLRU) (k : Key) : Option Int64 :=
  (s.domains.lookup k.ns).bind fun d => (d.get s.seed k).map (·.size)

def policy (rt : Runtime) : Policy SampledLRU where
  step s
    | .admitKey k size now => some (s.admitKey k size now, .done)
    | .touch k now => some (s.touch k now, .done)
    | .remove k => some (s.remove k, .done)
    | .victims ns need _ => (s.victims rt ns need []).map fun x => (x.1, .candidates x.2)
    | .usage _ => let x := s.usage rt []; some (x.1, .usages x.2)
    | .dropDomain ns => some (s.dropDomain ns, .done)
  tracked := tracked

end SampledLRU

/-! ### The sample -/

namespace LruDomain

/-- The walk of a shard keeps its best entry or takes one of the shard, and it ends without one only
when it had none and the shard is empty. -/
theorem sampleRows_spec (es : List LruEntry) (best : Option LruEntry) (seen : ℕ) :
    (∀ v, (sampleRows es best seen).1 = some v → best = some v ∨ v ∈ es) ∧
      ((sampleRows es best seen).1 = none → best = none ∧ es = [] ∧
        (sampleRows es best seen).2 = seen) := by
  induction es generalizing best seen with
  | nil => exact ⟨fun v h => .inl h, fun h => ⟨h, rfl, rfl⟩⟩
  | cons e es ih =>
    set best' := if best.all (fun b => e.last < b.last) then some e else best with hbest'
    have hsome : best' ≠ none := by
      intro hnone
      rw [hbest'] at hnone
      split at hnone
      · cases hnone
      · rename_i hall
        rw [hnone] at hall
        exact hall rfl
    have hfrom : ∀ v, best' = some v → best = some v ∨ v ∈ e :: es := by
      intro v hv
      rw [hbest'] at hv
      split at hv
      · cases hv
        exact .inr mem_cons_self
      · exact .inl hv
    have hstep : sampleRows (e :: es) best seen =
        if sampleK ≤ seen + 1 then (best', seen + 1) else sampleRows es best' (seen + 1) := rfl
    rw [hstep]
    split
    · exact ⟨hfrom, fun h => absurd h hsome⟩
    obtain ⟨hin, hout⟩ := ih best' (seen + 1)
    refine ⟨fun v hv => ?_, fun h => absurd (hout h).1 hsome⟩
    rcases hin v hv with h | h
    · exact hfrom v h
    · exact .inr (mem_cons_of_mem e h)

theorem sampleShards_spec (walk : Fin 16 → List LruEntry) (is : List (Fin 16))
    (best : Option LruEntry) (seen : ℕ) :
    (∀ v, sampleShards walk is best seen = some v → best = some v ∨ ∃ i ∈ is, v ∈ walk i) ∧
      (sampleShards walk is best seen = none → best = none ∧
        (seen < sampleK → ∀ i ∈ is, walk i = [])) := by
  induction is generalizing best seen with
  | nil => exact ⟨fun v h => .inl h, fun h => ⟨h, fun _ i hi => (not_mem_nil hi).elim⟩⟩
  | cons i is ih =>
    rw [sampleShards]
    split
    · obtain ⟨hin, hout⟩ := sampleRows_spec (walk i) best seen
      obtain ⟨ihin, ihout⟩ := ih (sampleRows (walk i) best seen).1 (sampleRows (walk i) best seen).2
      refine ⟨fun v hv => ?_, fun h => ?_⟩
      · rcases ihin v hv with h | ⟨j, hj, hv⟩
        · rcases hin v h with h | h
          · exact .inl h
          · exact .inr ⟨i, mem_cons_self, h⟩
        · exact .inr ⟨j, mem_cons_of_mem i hj, hv⟩
      · obtain ⟨hnone, hrest⟩ := ihout h
        obtain ⟨hbest, hempty, hseen⟩ := hout hnone
        refine ⟨hbest, fun hlt j hj => ?_⟩
        rcases mem_cons.mp hj with rfl | hj
        · exact hempty
        · exact hrest (by rw [hseen]; exact hlt) j hj
    · exact ⟨fun v h => .inl h, fun h => ⟨h, fun hlt => absurd hlt ‹_›⟩⟩

theorem mem_walk (start : ℕ) (i : Fin 16) :
    i ∈ (range 16).map fun j => Fin.ofNat 16 (start % 16 + j) := by
  refine mem_map.mpr ⟨(i.val + 16 - start % 16) % 16, mem_range.mpr (Nat.mod_lt _ (by omega)), ?_⟩
  apply Fin.ext
  rw [Fin.val_ofNat]
  have := i.isLt
  omega

theorem sampleStalest_spec (rt : Runtime) (d : LruDomain) (n : ℕ) :
    (∀ v, d.sampleStalest rt n = some v → ∃ i, v ∈ d.rows i) ∧
      (d.sampleStalest rt n = none → ∀ i, d.rows i = []) := by
  obtain ⟨hin, hout⟩ := sampleShards_spec (fun i => rt.order n (d.rows i))
    ((range 16).map fun i => Fin.ofNat 16 (rt.draw n % 16 + i)) none 0
  refine ⟨fun v hv => ?_, fun h i => ?_⟩
  · rcases hin v hv with h | ⟨i, -, hi⟩
    · cases h
    · exact ⟨i, (rt.perm n _ (d.rows i)).mem_iff.mp hi⟩
  · have hempty := (hout h).2 (by decide) i (mem_walk (rt.draw n) i)
    exact perm_nil.mp (hempty ▸ (rt.perm n _ (d.rows i)).symm)

/-! ### One domain between two calls -/

/-- A domain stands for its namespace's part of the map: every entry is in the shard of its key. -/
structure Settled (seed : UInt64) (ns : UInt32) (d : LruDomain) (m : Tracked) : Prop where
  placed : ∀ i k e, (d.table i).lookup k = some e → shardOf seed k = i ∧ e.key = k
  own : ∀ k e, d.get seed k = some e → k.ns = ns
  tracked : ∀ k, k.ns = ns → (d.get seed k).map (·.size) = m.lookup k
  bytes : d.bytes = Int64.ofInt (m.bytes ns)

variable {seed : UInt64} {ns : UInt32} {d : LruDomain} {m m' : Tracked} {k : Key} {e : LruEntry}

theorem settled_new (hm : ∀ k, k.ns = ns → m.lookup k = none) : Settled seed ns new m where
  placed i k e h := by
    change (∅ : Table Key LruEntry).lookup k = some e at h
    rw [AList.lookup_empty] at h
    cases h
  own k e h := by
    rw [get, new, Shards.get_empty] at h
    cases h
  tracked k hk := by
    rw [get, new, Shards.get_empty, hm k hk]
    rfl
  bytes := by
    rw [Tracked.bytes_eq_zero hm]
    rfl

theorem settled_local (seed : UInt64) : Local (Settled seed) := fun _ _ _ _ h hm =>
  ⟨h.placed, h.own, fun k hk => (h.tracked k hk).trans (hm k hk).symm,
    by rw [Tracked.bytes_congr hm, h.bytes]⟩

namespace Settled

theorem entry (h : Settled seed ns d m) (hk : d.get seed k = some e) :
    e.key = k ∧ k.ns = ns ∧ m.lookup k = some e.size := by
  have hns := h.own k e hk
  refine ⟨(h.placed _ k e hk).2, hns, ?_⟩
  rw [← h.tracked k hns, hk]
  rfl

theorem put (h : Settled seed ns d m) (hns : k.ns = ns) (he : e.key = k)
    (hk : m'.lookup k = some e.size) (hne : ∀ k', k' ≠ k → m'.lookup k' = m.lookup k')
    {bytes : Int64} (hb : bytes = Int64.ofInt (m'.bytes ns)) (fresh : ℕ) :
    Settled seed ns ⟨d.table.put (shardOf seed) k e, bytes, fresh⟩ m' where
  placed i k' e' h' := by
    rcases Shards.lookup_put _ h' with ⟨hi, rfl, rfl⟩ | h'
    · exact ⟨hi.symm, he⟩
    · exact h.placed i k' e' h'
  own k' e' h' := by
    rw [get, Shards.get_put] at h'
    split at h'
    · next heq => rw [heq, hns]
    · exact h.own k' e' h'
  tracked k' hk' := by
    rw [get, Shards.get_put]
    by_cases heq : k' = k
    · rw [if_pos heq, heq, hk]
      rfl
    · rw [if_neg heq, hne k' heq]
      exact h.tracked k' hk'
  bytes := hb

theorem admitKey (h : Settled seed ns d m) (hk : k.ns = ns) (hm : m.lookup k = none)
    (size now : Int64) :
    Settled seed ns { table := d.table.put (shardOf seed) k ⟨d.fresh, k, size, now⟩
                      bytes := d.bytes + size
                      fresh := d.fresh + 1 } (m.insert k size) := by
  refine h.put hk rfl (AList.lookup_insert m) (fun k' heq => AList.lookup_insert_ne heq) ?_ _
  rw [← hk, Tracked.bytes_insert hm, Int64.ofInt_add, Int64.ofInt_toInt, hk, h.bytes,
    Int64.add_comm]

theorem touch (h : Settled seed ns d m) (hk : d.get seed k = some e) (now : Int64) :
    Settled seed ns { d with table := d.table.put (shardOf seed) k { e with last := now } } m := by
  obtain ⟨hkey, hns, hlook⟩ := h.entry hk
  exact h.put (e := { e with last := now }) hns hkey hlook (fun _ _ => rfl) h.bytes _

theorem takeOut (h : Settled seed ns d m) (hk : d.get seed k = some e) :
    Settled seed ns (d.takeOut seed k e.size) (m.erase k) where
  placed i k' e' h' := h.placed i k' e' (Shards.lookup_drop h')
  own k' e' h' := by
    rw [get, LruDomain.takeOut, Shards.get_drop] at h'
    split at h'
    · cases h'
    · exact h.own k' e' h'
  tracked k' hk' := by
    rw [get, LruDomain.takeOut, Shards.get_drop]
    by_cases heq : k' = k
    · rw [if_pos heq, heq, AList.lookup_erase]
      rfl
    · rw [if_neg heq, AList.lookup_erase_ne heq]
      exact h.tracked k' hk'
  bytes := by
    obtain ⟨-, hns, hlook⟩ := h.entry hk
    have hsum := Tracked.bytes_erase hlook
    rw [hns] at hsum
    have hbytes : d.bytes = e.size + Int64.ofInt (Tracked.bytes (m.erase k) ns) := by
      rw [h.bytes, ← hsum, Int64.ofInt_add, Int64.ofInt_toInt]
    show d.bytes + -e.size = _
    rw [hbytes, Int64.add_comm, ← Int64.add_assoc, Int64.add_left_neg, Int64.zero_add]

theorem sampled (h : Settled seed ns d m) {rt : Runtime} {n : ℕ} {v : LruEntry}
    (hv : d.sampleStalest rt n = some v) : d.get seed v.key = some v := by
  obtain ⟨i, hi⟩ := (sampleStalest_spec rt d n).1 v hv
  obtain ⟨row, hrow, rfl⟩ := mem_map.mp hi
  have hlook : (d.table i).lookup row.1 = some row.2 := AList.mem_lookup_iff.mpr hrow
  obtain ⟨hidx, hkey⟩ := h.placed i row.1 row.2 hlook
  rw [get, Shards.get, hkey, hidx, hlook]

theorem lookup_of_dry (h : Settled seed ns d m) {rt : Runtime} {n : ℕ}
    (hv : d.sampleStalest rt n = none) (hk : k.ns = ns) : m.lookup k = none := by
  rw [← h.tracked k hk, get, Shards.get]
  have hrows : (d.table (shardOf seed k)).entries = [] :=
    map_eq_nil_iff.mp ((sampleStalest_spec rt d n).2 hv (shardOf seed k))
  have hnone : (d.table (shardOf seed k)).lookup k = none := by
    rw [AList.lookup, hrows]
    rfl
  rw [hnone]
  rfl

/-- The rounds come to an end, what they return are tracked keys, and they stop when the need is
covered or the domain is empty. -/
theorem victimsLoop (rt : Runtime) (need : Int64) {fuel : ℕ} (h : Settled seed ns d m)
    (hfuel : d.table.size < fuel) (n : ℕ) (hpos : m.Positive) {G : ℤ} (hG : 0 ≤ G) {got : Int64}
    (hgot : got = Int64.ofInt G) (dst : List Candidate) :
    ∃ d' n' l, d.victimsLoop rt seed need fuel n got dst = some (d', n', dst ++ l) ∧ Drains ns m l ∧
      Settled seed ns d' (m.eraseAll l) ∧
      (need.toInt ≤ G + sizes l ∨ ∀ k, k.ns = ns → (m.eraseAll l).lookup k = none) ∧
        Stops need G l := by
  induction fuel generalizing d m n G got dst with
  | zero => exact absurd hfuel (Nat.not_lt_zero _)
  | succ fuel ih =>
    by_cases hlt : got < need
    · cases hv : d.sampleStalest rt n with
      | none =>
        refine ⟨d, n + 1, [], ?_, drains_nil ns m, h, .inr fun k hk => h.lookup_of_dry hv hk,
          stops_nil need G⟩
        rw [LruDomain.victimsLoop, if_pos hlt, hv, append_nil]
      | some v =>
        have hget := h.sampled hv
        obtain ⟨-, hns, hlook⟩ := h.entry hget
        have hsize := Shards.size_drop hget
        have hless : (d.takeOut seed v.key v.size).table.size < fuel := by
          show (d.table.drop (shardOf seed) v.key).size < fuel
          omega
        have hsize' : 0 < v.size.toInt := Int64.lt_iff_toInt_lt.mp (hpos _ _ hlook)
        have hgot' : got + v.size = Int64.ofInt (G + v.size.toInt) := by
          rw [Int64.ofInt_add, Int64.ofInt_toInt, hgot]
        obtain ⟨d', n', l, hs, hl, hd', hend, hstop⟩ :=
          ih (h.takeOut hget) hless (n + 1) (hpos.erase _) (by omega) hgot'
            (dst ++ [⟨v.key, v.size⟩])
        refine ⟨d', n', ⟨v.key, v.size⟩ :: l, ?_, Drains.cons hl hns hlook, hd', ?_,
          .cons (hgot ▸ hlt) hstop⟩
        swap
        · rw [sizes_cons, ← add_assoc]
          exact hend
        have hsame : (d.get seed v.key).any (fun e => e.id = v.id) = true := by
          rw [hget, Option.any_some, decide_eq_true rfl]
        rw [LruDomain.victimsLoop, if_pos hlt, hv]
        dsimp only
        rw [if_pos hsame, hs, append_assoc, singleton_append]
    · refine ⟨d, n, [], ?_, drains_nil ns m, h, .inl ?_, stops_nil need G⟩
      · rw [LruDomain.victimsLoop, if_neg hlt, append_nil]
      · have hle := Int64.le_iff_toInt_le.mp (Int64.not_lt.mp hlt)
        have hshown := toInt_ofInt_le hG
        rw [← hgot] at hshown
        rw [sizes_nil, add_zero]
        exact hle.trans hshown

end Settled

end LruDomain

namespace SampledLRU

/-! ### All domains -/

open LruDomain (Settled settled_local settled_new)

def Refines (s : SampledLRU) (m : Tracked) : Prop := Stands (Settled s.seed) s.domains m

variable {s : SampledLRU} {m m' : Tracked} {ns : UInt32} {d : LruDomain}

namespace Refines

theorem write (h : Refines s m) (hd : Settled s.seed ns d m')
    (hm : ∀ k, k.ns ≠ ns → m'.lookup k = m.lookup k) (hpos : m'.Positive) :
    Refines (s.write ns d) m' :=
  Stands.insert (settled_local s.seed) h hd hm hpos

theorem tracked (h : Refines s m) (k : Key) : s.tracked k = m.lookup k := by
  unfold SampledLRU.tracked
  cases hd : s.domains.lookup k.ns with
  | none => exact (h.absent k hd).symm
  | some d => exact (h.domain k.ns d hd).tracked k rfl

theorem ensureDomain (h : Refines s m) (ns : UInt32) :
    Refines (s.ensureDomain ns).1 m ∧ (s.ensureDomain ns).1.seed = s.seed ∧
      Settled s.seed ns (s.ensureDomain ns).2 m := by
  unfold SampledLRU.ensureDomain
  cases hd : s.domains.lookup ns with
  | some d => exact ⟨h, rfl, h.domain ns d hd⟩
  | none =>
    have hnew : Settled s.seed ns LruDomain.new m := settled_new fun k hk => h.absent k (hk ▸ hd)
    exact ⟨h.write hnew (fun _ _ => rfl) h.pos, rfl, hnew⟩

theorem admitKey (h : Refines s m) (k : Key) (size now : Int64) (r : Response) :
    Refines (s.admitKey k size now) (m.after (.admitKey k size now, r)) := by
  have hpos := h.pos.after (.admitKey k size now, r)
  change Tracked.Positive (if size ≤ 0 ∨ (m.lookup k).isSome then m else m.insert k size) at hpos
  change Refines _ (if size ≤ 0 ∨ (m.lookup k).isSome then m else m.insert k size)
  rw [SampledLRU.admitKey]
  by_cases hsize : size ≤ 0
  · rw [if_pos hsize, if_pos (.inl hsize)]
    exact h
  rw [if_neg hsize]
  obtain ⟨hs, hseed, hd⟩ := h.ensureDomain k.ns
  have hlook := hd.tracked k rfl
  dsimp only
  cases hk : (s.ensureDomain k.ns).2.get s.seed k with
  | some e =>
    rw [hk] at hlook
    rw [← hlook, if_pos (.inr rfl)]
    exact hs
  | none =>
    rw [hk] at hlook
    have hnew : ¬(size ≤ 0 ∨ (m.lookup k).isSome = true) := by
      rw [← hlook]
      exact not_or.mpr ⟨hsize, nofun⟩
    rw [if_neg hnew] at hpos ⊢
    exact hs.write (hseed ▸ hd.admitKey rfl hlook.symm size now)
      (fun k' hne => AList.lookup_insert_ne (ne_of_ns_ne hne)) hpos

theorem touch (h : Refines s m) (k : Key) (now : Int64) : Refines (s.touch k now) m := by
  unfold SampledLRU.touch
  cases hd : s.domains.lookup k.ns with
  | none => exact h
  | some d =>
    dsimp only
    cases hk : d.get s.seed k with
    | none => exact h
    | some e => exact h.write ((h.domain k.ns d hd).touch hk now) (fun _ _ => rfl) h.pos

theorem remove (h : Refines s m) (k : Key) : Refines (s.remove k) (m.erase k) := by
  have hgone : m.lookup k = none → m.erase k = m := Table.erase_of_lookup_none
  unfold SampledLRU.remove
  cases hd : s.domains.lookup k.ns with
  | none =>
    rw [hgone (h.absent k hd)]
    exact h
  | some d =>
    have hset := h.domain k.ns d hd
    dsimp only
    cases hk : d.get s.seed k with
    | none =>
      have hm := hset.tracked k rfl
      rw [hk] at hm
      rw [hgone hm.symm]
      exact h
    | some e =>
      exact h.write (hset.takeOut hk) (fun k' hne => AList.lookup_erase_ne (ne_of_ns_ne hne))
        (h.pos.erase k)

theorem victims (h : Refines s m) (rt : Runtime) (ns : UInt32) (need now : Int64) :
    ∃ s' l, s.victims rt ns need [] = some (s', l) ∧ m.Justifies
      (.victims ns need now, .candidates l) ∧
      Refines s' (m.eraseAll l) ∧ (0 < need → m.Covers ns need l) := by
  have hnone := (drains_nil ns m).justifies need now
  unfold SampledLRU.victims
  cases hd : s.domains.lookup ns with
  | none =>
    exact ⟨s, [], rfl, hnone, h, fun _ => ⟨stops_nil need 0, .inr fun k hk => h.absent k (hk ▸ hd)⟩⟩
  | some d =>
    dsimp only
    by_cases hneed : need ≤ 0
    · exact ⟨s, [], if_pos hneed, hnone, h, fun hpos => absurd hpos (Int64.not_lt.mpr hneed)⟩
    rw [if_neg hneed]
    have hzero : (0 : Int64) = Int64.ofInt 0 := rfl
    obtain ⟨d', n', l, hloop, hl, hd', hend, hstop⟩ :=
      (h.domain ns d hd).victimsLoop rt need
        (Nat.lt_succ_self d.table.size) s.draws h.pos le_rfl hzero []
    rw [hloop, nil_append]
    have hs' := h.write hd' (fun k hne => hl.lookup_of_ne hne)
      (h.pos.after (.victims ns need now, .candidates l))
    rw [zero_add] at hend
    exact ⟨_, l, rfl, hl.justifies need now, ⟨hs'.domain, hs'.absent, hs'.pos⟩,
      fun _ => ⟨hstop, hend⟩⟩

theorem dropDomain (h : Refines s m) (ns : UInt32) :
    Refines (s.dropDomain ns) (m.after (.dropDomain ns, .done)) := by
  have herase := Stands.erase (settled_local s.seed) h ns
  unfold SampledLRU.dropDomain
  cases hd : s.domains.lookup ns with
  | none =>
    rw [Table.erase_of_lookup_none hd] at herase
    exact herase
  | some d => exact herase

theorem usage (h : Refines s m) (rt : Runtime) (now : Int64) :
    m.Justifies (.usage now, .usages (s.usage rt []).2) ∧ Refines (s.usage rt []).1 m := by
  refine ⟨?_, h.domain, h.absent, h.pos⟩
  rw [SampledLRU.usage, nil_append]
  refine Stands.justifies_report h now (rt.perm s.draws _ s.domains.entries) fun row hrow => ?_
  have hbytes := (h.domain row.1 row.2 hrow).bytes
  unfold report
  split_ifs with hpos
  · refine ⟨fun u hu => ?_, fun _ => rfl⟩
    cases hu
    exact ⟨rfl, hbytes⟩
  · exact ⟨fun u hu => hu.elim, fun hlt => absurd (hbytes ▸ hlt) hpos⟩

end Refines

theorem simulates (rt : Runtime) : Simulates (policy rt) Refines where
  step {s m} h op := by
    cases op with
    | admitKey k size now => exact ⟨_, _, rfl, trivial, h.admitKey k size now .done⟩
    | touch k now => exact ⟨_, _, rfl, trivial, h.touch k now⟩
    | remove k => exact ⟨_, _, rfl, trivial, h.remove k⟩
    | victims ns need now =>
      obtain ⟨s', l, hv, hj, hs', -⟩ := h.victims rt ns need now
      refine ⟨s', .candidates l, ?_, hj, hs'⟩
      show (s.victims rt ns need []).map (fun x => (x.1, Response.candidates x.2)) = _
      rw [hv]
      rfl
    | usage now =>
      obtain ⟨hj, hs'⟩ := h.usage rt now
      exact ⟨_, _, rfl, hj, hs'⟩
    | dropDomain ns => exact ⟨_, _, rfl, trivial, h.dropDomain ns⟩
  tracked h k := h.tracked k
  secondAdmission {s m} h k hk size now := by
    change (s.tracked k).isSome at hk
    show some (s.admitKey k size now, Response.done) = _
    obtain ⟨v, hv⟩ := Option.isSome_iff_exists.mp hk
    obtain ⟨d, hd, hv⟩ := Option.bind_eq_some_iff.mp hv
    obtain ⟨e, he, -⟩ := Option.map_eq_some_iff.mp hv
    rw [admitKey, ensureDomain, hd]
    dsimp only
    rw [he, ite_self]

end SampledLRU

end KVStash.Eviction
