/- GID: KVStash/Eviction/Policy
   digest: The calls of an eviction policy, and the map from keys to sizes that every policy stands
     for. -/

import KVStash.Foundation.Table

set_option autoImplicit false

namespace KVStash.Eviction

open Foundation AList List

/-! ### The interface -/

structure Key where
  ns : UInt32
  hash : BitVec 256
  deriving DecidableEq

def mix : UInt64 := 0x9E3779B97F4A7C15

scoped instance neZero16 : NeZero 16 := ⟨by decide⟩

/-- The table shard of a key, from its own hash bytes and the policy's seed. -/
def shardOf (seed : UInt64) (k : Key) : Fin 16 :=
  Fin.ofNat 16 (((UInt64.ofBitVec (k.hash.extractLsb' 64 64) ^^^ seed) * mix) >>> 60).toNat

/-- One advisory eviction victim. -/
structure Candidate where
  key : Key
  size : Int64
  deriving DecidableEq

/-- One domain's resident bytes and the footprint of its ghost. -/
structure DomainUsage where
  ns : UInt32
  bytes : Int64
  ghostBytes : Int64
  deriving DecidableEq

inductive Op
  | admitKey (k : Key) (size now : Int64)
  | touch (k : Key) (now : Int64)
  | remove (k : Key)
  | victims (ns : UInt32) (need now : Int64)
  | usage (now : Int64)
  | dropDomain (ns : UInt32)
  deriving DecidableEq

inductive Response
  | done
  | candidates (l : List Candidate)
  | usages (l : List DomainUsage)
  deriving DecidableEq

/-- A policy with states in `σ`: its calls, and the size under which it tracks a key. A call that
panics or does not return has no result. -/
structure Policy (σ : Type) where
  step : σ → Op → Option (σ × Response)
  tracked : σ → Key → Option Int64

/-- The choices of the runtime: the order in which it walks a map, and the numbers it draws. -/
structure Runtime where
  order : ℕ → {α : Type} → List α → List α
  perm : ∀ n (α : Type) (l : List α), (order n l).Perm l
  draw : ℕ → ℕ

abbrev Trace := List (Op × Response)

def Policy.play {σ : Type} (P : Policy σ) : σ → List Op → Option (σ × Trace)
  | s, [] => some (s, [])
  | s, op :: ops => (P.step s op).bind fun sr =>
      (P.play sr.1 ops).map fun st => (st.1, (op, sr.2) :: st.2)

theorem Policy.play_keeps {σ : Type} {P : Policy σ} {I : σ → Prop}
    (hstep : ∀ s op s' r, I s → P.step s op = some (s', r) → I s') {ops : List Op} {s s' : σ}
    {tr : Trace} (h : I s) (hp : P.play s ops = some (s', tr)) : I s' := by
  induction ops generalizing s tr with
  | nil =>
    cases hp
    exact h
  | cons op ops ih =>
    rw [Policy.play, Option.bind_eq_some_iff] at hp
    obtain ⟨⟨s₁, r⟩, hs, hp⟩ := hp
    obtain ⟨⟨s₂, tr'⟩, hp', heq⟩ := Option.map_eq_some_iff.mp hp
    cases heq
    exact ih (hstep s op s₁ r h hs) hp'

/-! ### The map -/

abbrev Tracked := Table Key Int64

namespace Tracked

def bytes (m : Tracked) (ns : UInt32) : ℤ :=
  Table.total (fun k v => if k.ns = ns then v.toInt else 0) m

def eraseAll (m : Tracked) (l : List Candidate) : Tracked := l.foldl (fun m c => m.erase c.key) m

/-- The map after a call that was answered so. -/
def after (m : Tracked) : Op × Response → Tracked
  | (.admitKey k size _, _) => if size ≤ 0 ∨ (m.lookup k).isSome then m else m.insert k size
  | (.remove k, _) => m.erase k
  | (.victims _ _ _, .candidates l) => m.eraseAll l
  | (.dropDomain ns, _) => m.filter fun k => k.ns ≠ ns
  | _ => m

def mirror (tr : Trace) : Tracked := tr.foldl after ∅

/-- An answer that the map justifies: candidates are different tracked keys of the namespace with
their sizes, and usage lists no namespace twice, misses none that has tracked bytes and gives the
sum of the sizes. The counters are signed words: a sum that is too large for one is reported modulo
its range, and it is not reported at all where that is not positive. -/
def Justifies (m : Tracked) : Op × Response → Prop
  | (.victims ns _ _, .candidates l) =>
      (l.map (·.key)).Nodup ∧ ∀ c ∈ l, c.key.ns = ns ∧ m.lookup c.key = some c.size
  | (.usage _, .usages l) =>
      (l.map (·.ns)).Nodup ∧ (∀ u ∈ l, u.bytes = Int64.ofInt (m.bytes u.ns)) ∧
        ∀ ns, m.bytes ns < 2 ^ 63 →
          (∀ u ∈ l, u.ns = ns → u.bytes.toInt = m.bytes ns) ∧ (m.bytes ns ≠ 0 → ∃ u ∈ l, u.ns = ns)
  | (.victims _ _ _, _) | (.usage _, _) => False
  | (_, .done) => True
  | _ => False

end Tracked

def Returns (k : Key) : Op × Response → Prop
  | (.victims _ _ _, .candidates l) => k ∈ l.map (·.key)
  | _ => False

def Takes (k : Key) : Op × Response → Prop
  | (.remove k', _) => k' = k
  | c => Returns k c

def Admits (k : Key) : Op × Response → Prop
  | (.admitKey k' size _, _) => k' = k ∧ 0 < size
  | _ => False

/-- What a policy promises: in every run no call fails, every answer is one that the map of the
calls and answers before it justifies, and the policy tracks what the map holds; a key that was
removed or returned is not returned until it is admitted again; a second admission changes
nothing. -/
structure BehavesLikeMap {σ : Type} (P : Policy σ) (s₀ : σ) : Prop where
  total : ∀ ops, ∃ s tr, P.play s₀ ops = some (s, tr)
  justified : ∀ ops s tr tr' c, P.play s₀ ops = some (s, tr ++ c :: tr') →
    (Tracked.mirror tr).Justifies c
  tracked : ∀ ops s tr, P.play s₀ ops = some (s, tr) →
    ∀ k, P.tracked s k = (Tracked.mirror tr).lookup k
  once : ∀ ops s tr tr₁ tr₂ c d k, P.play s₀ ops = some (s, tr ++ c :: tr₁ ++ d :: tr₂) →
    Takes k c → Returns k d → ∃ a ∈ tr₁, Admits k a
  secondAdmission : ∀ ops s tr, P.play s₀ ops = some (s, tr) →
    ∀ k, (P.tracked s k).isSome → ∀ size now,
    P.step s (.admitKey k size now) = some (s, .done)

/-! ### Facts about the map -/

namespace Tracked

variable {m : Tracked} {k : Key} {c : Op × Response}

theorem lookup_eraseAll (m : Tracked) (l : List Candidate) (k : Key) :
    (m.eraseAll l).lookup k = if k ∈ l.map (·.key) then none else m.lookup k := by
  induction l generalizing m with
  | nil => rfl
  | cons c l ih =>
    rw [eraseAll, foldl_cons]
    refine (ih (m.erase c.key)).trans ?_
    rw [map_cons]
    by_cases hl : k ∈ l.map (·.key)
    · rw [if_pos hl, if_pos (mem_cons_of_mem c.key hl)]
    rw [if_neg hl]
    by_cases hk : k = c.key
    · rw [hk, lookup_erase, if_pos mem_cons_self]
    · rw [lookup_erase_ne hk, if_neg fun hm => (mem_cons.mp hm).elim hk hl]

theorem lookup_after_of_takes (h : Takes k c) : (m.after c).lookup k = none := by
  match c, h with
  | (.remove _, _), rfl => exact lookup_erase ..
  | (.victims _ _ _, .candidates l), h => exact (lookup_eraseAll m l k).trans (if_pos h)

theorem lookup_after_of_none (hm : m.lookup k = none) (h : ¬Admits k c) :
    (m.after c).lookup k = none := by
  match c with
  | (.admitKey k' size now, r) =>
    show (if size ≤ 0 ∨ (m.lookup k').isSome then m else m.insert k' size).lookup k = none
    by_cases hold : size ≤ 0 ∨ (m.lookup k').isSome
    · rw [if_pos hold, hm]
    have hk : k ≠ k' := by
      rintro rfl
      exact h ⟨rfl, Int64.not_le.mp fun hle => hold (.inl hle)⟩
    rw [if_neg hold, lookup_insert_ne hk, hm]
  | (.remove k', r) =>
    by_cases hk : k = k'
    · exact lookup_after_of_takes hk.symm
    · exact (lookup_erase_ne hk).trans hm
  | (.victims ns need now, .candidates l) =>
    refine (lookup_eraseAll m l k).trans ?_
    rw [hm, ite_self]
  | (.dropDomain ns, r) =>
    refine (Table.lookup_filter _ m k).trans ?_
    rw [hm, ite_self]
  | (.touch .., r) | (.usage _, r) => exact hm
  | (.victims .., .done) | (.victims .., .usages _) => exact hm

theorem lookup_foldl_of_none {tr : Trace} (hm : m.lookup k = none) (h : ∀ a ∈ tr, ¬Admits k a) :
    (tr.foldl after m).lookup k = none := by
  induction tr generalizing m with
  | nil => exact hm
  | cons c tr ih =>
    exact ih (lookup_after_of_none hm (h c mem_cons_self)) fun a ha => h a (mem_cons_of_mem c ha)

theorem Justifies.lookup_ne (h : m.Justifies c) (hr : Returns k c) : m.lookup k ≠ none := by
  match c, hr with
  | (.victims _ _ _, .candidates l), hr =>
    obtain ⟨x, hx, rfl⟩ := mem_map.mp hr
    rw [(h.2 x hx).2]
    exact Option.some_ne_none _

def Positive (m : Tracked) : Prop := ∀ k v, m.lookup k = some v → 0 < v

theorem positive_empty : Positive ∅ := fun k v h => by
  rw [lookup_empty] at h
  cases h

theorem Positive.erase (h : m.Positive) (k : Key) : Positive (m.erase k) := fun k' v hv => by
  by_cases hk : k' = k
  · rw [hk, lookup_erase] at hv
    cases hv
  · rw [lookup_erase_ne hk] at hv
    exact h k' v hv

theorem Positive.after (h : m.Positive) (c : Op × Response) : Positive (m.after c) := by
  match c with
  | (.admitKey k size now, r) =>
    intro k' v hv
    change (if size ≤ 0 ∨ (m.lookup k).isSome then m else m.insert k size).lookup k' = some v at hv
    by_cases hold : size ≤ 0 ∨ (m.lookup k).isSome
    · rw [if_pos hold] at hv
      exact h k' v hv
    rw [if_neg hold] at hv
    by_cases hk : k' = k
    · rw [hk, lookup_insert] at hv
      cases hv
      exact Int64.not_le.mp fun hle => hold (.inl hle)
    · rw [lookup_insert_ne hk] at hv
      exact h k' v hv
  | (.remove k, r) => exact h.erase k
  | (.victims ns need now, .candidates l) =>
    intro k v hv
    refine h k v ?_
    rw [← hv]
    refine ((lookup_eraseAll m l k).trans (if_neg fun hk => ?_)).symm
    change (m.eraseAll l).lookup k = some v at hv
    rw [lookup_eraseAll, if_pos hk] at hv
    cases hv
  | (.dropDomain ns, r) =>
    intro k v hv
    change (m.filter fun k => k.ns ≠ ns).lookup k = some v at hv
    rw [Table.lookup_filter] at hv
    split at hv
    · exact h k v hv
    · cases hv
  | (.touch .., r) | (.usage _, r) => exact h
  | (.victims .., .done) | (.victims .., .usages _) => exact h

theorem Positive.bytes_nonneg (h : m.Positive) (ns : UInt32) : 0 ≤ m.bytes ns := by
  refine sum_nonneg fun x hx => ?_
  obtain ⟨e, he, rfl⟩ := mem_map.mp hx
  have hpos := Int64.lt_iff_toInt_lt.mp (h e.1 e.2 (mem_lookup_iff.mpr he))
  dsimp only
  split
  · exact hpos.le
  · exact le_rfl

theorem bytes_eq_zero {ns : UInt32} (h : ∀ k, k.ns = ns → m.lookup k = none) : m.bytes ns = 0 := by
  refine sum_eq_zero fun x hx => ?_
  obtain ⟨e, he, rfl⟩ := mem_map.mp hx
  refine if_neg fun hns => ?_
  have hk : e.2 ∈ m.lookup e.1 := mem_lookup_iff.mpr he
  rw [h e.1 hns] at hk
  cases hk

theorem bytes_congr {m' : Tracked} {ns : UInt32} (h : ∀ k, k.ns = ns → m'.lookup k = m.lookup k) :
    m'.bytes ns = m.bytes ns := by
  refine Table.total_congr fun k => ?_
  by_cases hk : k.ns = ns
  · rw [Table.share, Table.share, h k hk]
  -- a key of another namespace adds nothing
  have hzero : ∀ m : Tracked, Table.share (fun k v => if k.ns = ns then v.toInt else 0) m k = 0 :=
    fun m => by
    rw [Table.share]
    cases m.lookup k with
    | none => rfl
    | some v => exact if_neg hk
  rw [hzero, hzero]

theorem bytes_insert (hk : m.lookup k = none) (v : Int64) :
    bytes (m.insert k v) k.ns = v.toInt + m.bytes k.ns := by
  rw [bytes, Table.total_insert_new _ hk, if_pos rfl]
  rfl

theorem bytes_erase {v : Int64} (hk : m.lookup k = some v) :
    v.toInt + bytes (m.erase k) k.ns = m.bytes k.ns := by
  have h := Table.total_erase (fun (k' : Key) (v : Int64) => if k'.ns = k.ns then v.toInt else 0) hk
  rwa [if_pos rfl] at h

/-- A usage report is right when its lines have the sums and every namespace whose sum is a positive
signed word has one. -/
theorem Positive.justifies_usage (h : m.Positive) {l : List DomainUsage} (now : Int64)
    (hnodup : (l.map (·.ns)).Nodup) (hbytes : ∀ u ∈ l, u.bytes = Int64.ofInt (m.bytes u.ns))
    (hall : ∀ ns, 0 < m.bytes ns → 0 < Int64.ofInt (m.bytes ns) → ∃ u ∈ l, u.ns = ns) :
    m.Justifies (.usage now, .usages l) := by
  refine ⟨hnodup, hbytes, fun ns hlt => ?_⟩
  have hnn := h.bytes_nonneg ns
  have hexact : (Int64.ofInt (m.bytes ns)).toInt = m.bytes ns := by
    have hsize : Int64.size = 2 ^ 64 := rfl
    rw [Int64.toInt_ofInt, hsize]
    exact Int.bmod_eq_of_le (by omega) (by omega)
  refine ⟨fun u hu hns => ?_, fun hne => hall ns (by omega) ?_⟩
  · rw [hbytes u hu, hns, hexact]
  · rw [Int64.lt_iff_toInt_lt, hexact, Int64.toInt_zero]
    omega

end Tracked

/-! ### Simulation -/

section Simulation

variable {σ : Type} {P : Policy σ} {s₀ : σ}

/-- A relation between the states of a policy and the map that every call keeps. -/
structure Simulates (P : Policy σ) (R : σ → Tracked → Prop) : Prop where
  step : ∀ {s m}, R s m → ∀ op, ∃ s' r, P.step s op = some (s', r) ∧ m.Justifies (op, r) ∧
    R s' (m.after (op, r))
  tracked : ∀ {s m}, R s m → ∀ k, P.tracked s k = m.lookup k
  secondAdmission : ∀ {s m}, R s m → ∀ k, (P.tracked s k).isSome → ∀ size now,
    P.step s (.admitKey k size now) = some (s, .done)

variable {R : σ → Tracked → Prop}

namespace Simulates

theorem total (h : Simulates P R) {s : σ} {m : Tracked} (hr : R s m) (ops : List Op) :
    ∃ s' tr, P.play s ops = some (s', tr) := by
  induction ops generalizing s m with
  | nil => exact ⟨s, [], rfl⟩
  | cons op ops ih =>
    obtain ⟨s₁, r, hs, -, hr₁⟩ := h.step hr op
    obtain ⟨s', tr, hp⟩ := ih hr₁
    refine ⟨s', (op, r) :: tr, ?_⟩
    rw [Policy.play, hs, Option.bind_some, hp]
    rfl

/-- A whole run keeps the relation, and the map justifies every answer in it. -/
theorem run (h : Simulates P R) {ops : List Op} {s s' : σ} {m : Tracked} {tr : Trace} (hr : R s m)
    (hp : P.play s ops = some (s', tr)) :
    R s' (tr.foldl Tracked.after m) ∧
      ∀ tr₁ c tr₂, tr = tr₁ ++ c :: tr₂ → (tr₁.foldl Tracked.after m).Justifies c := by
  induction ops generalizing s m tr with
  | nil =>
    cases hp
    exact ⟨hr, fun tr₁ c tr₂ heq => by cases tr₁ <;> cases heq⟩
  | cons op ops ih =>
    obtain ⟨s₁, r, hs, hj, hr₁⟩ := h.step hr op
    rw [Policy.play, hs, Option.bind_some, Option.map_eq_some_iff] at hp
    obtain ⟨⟨s₂, tr'⟩, hp', heq⟩ := hp
    cases heq
    obtain ⟨hr₂, hall⟩ := ih hr₁ hp'
    refine ⟨hr₂, fun tr₁ c tr₂ heq => ?_⟩
    cases tr₁ with
    | nil =>
      cases heq
      exact hj
    | cons d tr₁ =>
      cases heq
      exact hall tr₁ c tr₂ rfl

theorem behavesLikeMap (h : Simulates P R) (h₀ : R s₀ ∅) : BehavesLikeMap P s₀ where
  total := h.total h₀
  justified ops s tr tr' c hp := (h.run h₀ hp).2 tr c tr' rfl
  tracked ops s tr hp := h.tracked (h.run h₀ hp).1
  once ops s tr tr₁ tr₂ c d k hp hc hd := by
    by_contra hno
    push Not at hno
    refine ((h.run h₀ hp).2 (tr ++ c :: tr₁) d tr₂ rfl).lookup_ne hd ?_
    rw [foldl_append, foldl_cons]
    exact Tracked.lookup_foldl_of_none (Tracked.lookup_after_of_takes hc) hno
  secondAdmission ops s tr hp k hk size now := h.secondAdmission (h.run h₀ hp).1 k hk size now

end Simulates

end Simulation

variable {D : Type} {Settled : UInt32 → D → Tracked → Prop} {domains : Table UInt32 D}
  {m m' : Tracked}
  {ns : UInt32} {d : D}

/-- What a domain stands for depends on the keys of its own namespace only. -/
def Local (Settled : UInt32 → D → Tracked → Prop) : Prop :=
  ∀ ⦃ns d m m'⦄, Settled ns d m → (∀ k, k.ns = ns → m'.lookup k = m.lookup k) → Settled ns d m'

/-- The domains stand for the map, each for its own namespace. -/
structure Stands (Settled : UInt32 → D → Tracked → Prop) (domains : Table UInt32 D) (m : Tracked) :
    Prop where
  domain : ∀ ns d, domains.lookup ns = some d → Settled ns d m
  absent : ∀ k, domains.lookup k.ns = none → m.lookup k = none
  pos : m.Positive

theorem stands_empty : Stands Settled ∅ ∅ where
  domain ns d h := by
    rw [lookup_empty] at h
    cases h
  absent k _ := lookup_empty k
  pos := Tracked.positive_empty

namespace Stands

theorem insert (hloc : Local Settled) (h : Stands Settled domains m) (hd : Settled ns d m')
    (hm : ∀ k, k.ns ≠ ns → m'.lookup k = m.lookup k) (hpos : m'.Positive) :
    Stands Settled (domains.insert ns d) m' where
  domain ns' d' hd' := by
    by_cases hns : ns' = ns
    · subst hns
      rw [lookup_insert] at hd'
      cases hd'
      exact hd
    · rw [lookup_insert_ne hns] at hd'
      exact hloc (h.domain ns' d' hd') fun k hk => hm k (hk ▸ hns)
  absent k hk := by
    by_cases hns : k.ns = ns
    · rw [hns, lookup_insert] at hk
      cases hk
    · rw [lookup_insert_ne hns] at hk
      rw [hm k hns]
      exact h.absent k hk
  pos := hpos

theorem erase (hloc : Local Settled) (h : Stands Settled domains m) (ns : UInt32) :
    Stands Settled (domains.erase ns) (m.after (.dropDomain ns, .done)) := by
  have hlook : ∀ k, (m.after (.dropDomain ns, .done)).lookup k = if k.ns ≠ ns then m.lookup k
      else none := fun k => by
    refine (Table.lookup_filter _ m k).trans ?_
    simp only [decide_eq_true_eq]
  refine ⟨fun ns' d hd => ?_, fun k hk => ?_, h.pos.after _⟩
  · by_cases hns : ns' = ns
    · rw [hns, lookup_erase] at hd
      cases hd
    · rw [lookup_erase_ne hns] at hd
      refine hloc (h.domain ns' d hd) fun k hk => ?_
      rw [hlook, if_pos (hk ▸ hns)]
  · rw [hlook]
    by_cases hns : k.ns = ns
    · exact if_neg fun hne => hne hns
    · rw [lookup_erase_ne hns] at hk
      rw [h.absent k hk, ite_self]

theorem bytes_of_absent (h : Stands Settled domains m) (hns : domains.lookup ns = none) :
    m.bytes ns = 0 :=
  Tracked.bytes_eq_zero fun k hk => h.absent k (hk ▸ hns)

theorem justifies_report (h : Stands Settled domains m) (now : Int64)
    {rows : List (Sigma fun _ : UInt32 => D)} (hperm : rows.Perm domains.entries)
    {f : (Sigma fun _ : UInt32 => D) → Option DomainUsage}
    (hline : ∀ row, domains.lookup row.1 = some row.2 →
      (∀ u, f row = some u → u.ns = row.1 ∧ u.bytes = Int64.ofInt (m.bytes row.1)) ∧
        (0 < Int64.ofInt (m.bytes row.1) → (f row).isSome)) :
    m.Justifies (.usage now, .usages (rows.filterMap f)) := by
  have hmem : ∀ row, row ∈ rows ↔ domains.lookup row.1 = some row.2 := fun row => by
    rw [hperm.mem_iff]
    exact mem_lookup_iff.symm
  have hrow : ∀ row ∈ rows, _ := fun row hr => hline row ((hmem row).mp hr)
  have hnodup := (hperm.map Sigma.fst).nodup_iff.mpr domains.nodupKeys
  refine h.pos.justifies_usage now ?_ (fun u hu => ?_) fun ns hpos hword => ?_
  · clear hmem hperm
    induction rows with
    | nil => exact nodup_nil
    | cons a rows ih =>
      have ih := ih (fun b hb => hrow b (mem_cons_of_mem a hb)) (nodup_cons.mp hnodup).2
      cases hf : f a with
      | none => rwa [filterMap_cons_none hf]
      | some u =>
        rw [filterMap_cons_some hf, map_cons, nodup_cons]
        refine ⟨fun hu => ?_, ih⟩
        obtain ⟨u', hu', heq⟩ := mem_map.mp hu
        obtain ⟨b, hb, hfb⟩ := mem_filterMap.mp hu'
        have hab : b.1 = a.1 := by
          rw [← ((hrow b (mem_cons_of_mem a hb)).1 u' hfb).1, heq,
            ((hrow a mem_cons_self).1 u hf).1]
        exact (nodup_cons.mp hnodup).1 (hab ▸ mem_map_of_mem hb)
  · obtain ⟨a, ha, hf⟩ := mem_filterMap.mp hu
    obtain ⟨hns, hb⟩ := (hrow a ha).1 u hf
    rw [hb, hns]
  · cases hd : domains.lookup ns with
    | none => exact absurd (h.bytes_of_absent hd) hpos.ne'
    | some d =>
      have hr := (hmem ⟨ns, d⟩).mpr hd
      obtain ⟨u, hu⟩ := Option.isSome_iff_exists.mp ((hrow _ hr).2 hword)
      exact ⟨u, mem_filterMap.mpr ⟨_, hr, hu⟩, ((hrow _ hr).1 u hu).1⟩

end Stands

theorem ne_of_ns_ne {k k' : Key} (h : k'.ns ≠ k.ns) : k' ≠ k := by
  rintro rfl
  exact h rfl

/-! ### Candidates -/

/-- Candidates that are tracked keys of the namespace, each once. -/
structure Drains (ns : UInt32) (m : Tracked) (l : List Candidate) : Prop where
  nodup : (l.map (·.key)).Nodup
  mem : ∀ c ∈ l, c.key.ns = ns ∧ m.lookup c.key = some c.size

theorem drains_nil (ns : UInt32) (m : Tracked) : Drains ns m [] :=
  ⟨List.nodup_nil, fun _ hc => (List.not_mem_nil hc).elim⟩

namespace Drains

variable {l : List Candidate} {c : Candidate}

theorem cons (hl : Drains ns (m.erase c.key) l) (hns : c.key.ns = ns)
    (hc : m.lookup c.key = some c.size) : Drains ns m (c :: l) := by
  have hne : ∀ c' ∈ l, c'.key ≠ c.key := fun c' hc' heq => by
    have := (hl.mem c' hc').2
    rw [heq, lookup_erase] at this
    cases this
  refine ⟨?_, fun c' hc' => ?_⟩
  · rw [List.map_cons, List.nodup_cons]
    refine ⟨fun hmem => ?_, hl.nodup⟩
    obtain ⟨c', hc', heq⟩ := List.mem_map.mp hmem
    exact hne c' hc' heq
  · rcases List.mem_cons.mp hc' with rfl | hc'
    · exact ⟨hns, hc⟩
    · obtain ⟨hns', hlook⟩ := hl.mem c' hc'
      rw [lookup_erase_ne (hne c' hc')] at hlook
      exact ⟨hns', hlook⟩

theorem justifies (hl : Drains ns m l) (need now : Int64) :
    m.Justifies (.victims ns need now, .candidates l) :=
  ⟨hl.nodup, hl.mem⟩

theorem lookup_of_ne (hl : Drains ns m l) {k : Key} (hk : k.ns ≠ ns) :
    (m.eraseAll l).lookup k = m.lookup k := by
  rw [Tracked.lookup_eraseAll, if_neg]
  intro hmem
  obtain ⟨c, hc, rfl⟩ := List.mem_map.mp hmem
  exact hk (hl.mem c hc).1

end Drains

def sizes (l : List Candidate) : ℤ := (l.map fun c => c.size.toInt).sum

@[simp] theorem sizes_nil : sizes [] = 0 := rfl

@[simp] theorem sizes_cons (c : Candidate) (l : List Candidate) :
    sizes (c :: l) = c.size.toInt + sizes l := rfl

theorem toInt_ofInt_le {G : ℤ} (hG : 0 ≤ G) : (Int64.ofInt G).toInt ≤ G := by
  have hsize : Int64.size = 18446744073709551616 := rfl
  rw [Int64.toInt_ofInt, hsize, Int.bmod_def]
  split <;> omega

/-- A scan that has added up `G` bytes takes each candidate while its signed counter shows less than
the need. -/
def Stops (need : Int64) (G : ℤ) (l : List Candidate) : Prop :=
  ∀ l₁ c l₂, l = l₁ ++ c :: l₂ → Int64.ofInt (G + sizes l₁) < need

theorem stops_nil (need : Int64) (G : ℤ) : Stops need G [] := fun l₁ c l₂ h => by
  cases l₁ <;> cases h

theorem Stops.cons {need : Int64} {G : ℤ} {c : Candidate} {l : List Candidate}
    (hlt : Int64.ofInt G < need) (h : Stops need (G + c.size.toInt) l) : Stops need G (c :: l) := by
  intro l₁ c' l₂ heq
  cases l₁ with
  | nil => rwa [sizes_nil, add_zero]
  | cons c₁ l₁ =>
    rw [List.cons_append, List.cons.injEq] at heq
    obtain ⟨rfl, heq⟩ := heq
    rw [sizes_cons, ← add_assoc]
    exact h l₁ c' l₂ heq

/-- Candidates stop at the first one that covers the need, and fall short of it only when nothing of
the namespace is left in the map. -/
structure Tracked.Covers (m : Tracked) (ns : UInt32) (need : Int64) (l : List Candidate) :
    Prop where
  stops : Stops need 0 l
  enough : need.toInt ≤ sizes l ∨ ∀ k, k.ns = ns → (m.eraseAll l).lookup k = none

end KVStash.Eviction
