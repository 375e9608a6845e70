/- GID: KVStash/Eviction/Concurrent/Invariant
   digest: S3-FIFO calls by their sections, and what holds between any two sections of the calls on
     one domain. -/

import KVStash.Eviction.Queues

set_option autoImplicit false

namespace KVStash.Eviction

open Foundation

namespace Concurrent

/-! ### Calls in progress -/

structure Scan where
  need : Int64
  got : Int64
  budget : ℕ
  sinceYield : ℕ
  dst : List Candidate

/-- The visits after which a scan lets the others in. -/
def victimsYieldEvery : ℕ := 512

inductive Pc
  -- Admit: at the table, and with its entry published
  | publish (k : Key) (size now : Int64)
  | queue (e : ℕ) (now : Int64)
  -- Touch: at the table, with the entry it found, and with the frequency it loaded
  | look (k : Key)
  | load (e : ℕ)
  | swap (e f : ℕ)
  -- Remove: at the table, and with the entry it took out
  | delete (k : Key)
  | unlink (e : ℕ)
  -- Victims: before its first lock, at the head of the loop, at a visit, with an entry that has
  -- left the queues, and between two locks
  | start (need now : Int64)
  | scan (s : Scan)
  | visit (s : Scan)
  | expel (e : ℕ) (s : Scan)
  | resume (s : Scan)

/-- What a section does to the queue lock that it may hold beyond its end. -/
inductive Lock
  | keep | acquire | release

/-- The outcome of a section: the domain, where the call is now or what it returned, and the
lock. -/
structure Outcome where
  domain : Domain
  next : Pc ⊕ List Candidate
  lock : Lock

variable (p : Settings)

/-- The next section of a call. It waits while another holds the lock that it needs, and a scan that
pops from an empty queue panics. -/
def Pc.advance (free : Bool) (d : Domain) : Pc → Option Outcome
  | .publish k size now =>
    match d.publish p k size with
    | none => some ⟨d, .inr [], .keep⟩
    | some (d, e) => some ⟨d, .inl (.queue e now), .keep⟩
  | .queue e now => if free then some ⟨d.enqueue p e now, .inr [], .keep⟩ else none
  | .look k =>
    match d.get p k with
    | none => some ⟨d, .inr [], .keep⟩
    | some e => some ⟨d, .inl (.load e), .keep⟩
  | .load e =>
    if (d.entry e).freq < 3 then some ⟨d, .inl (.swap e (d.entry e).freq), .keep⟩
      else some ⟨d, .inr [], .keep⟩
  | .swap e f =>
    if (d.entry e).freq = f then some ⟨d.setFreq e (f + 1), .inr [], .keep⟩
      else some ⟨d, .inr [], .keep⟩
  | .delete k =>
    match d.get p k with
    | none => some ⟨d, .inr [], .keep⟩
    | some e => some ⟨d.tableDelete p k, .inl (.unlink e), .keep⟩
  | .unlink e => if free then some ⟨d.dequeue e, .inr [], .keep⟩ else none
  | .start need now =>
    if free then
      let d := d.maybeDecay p now
      some ⟨d, .inl (.scan ⟨need, 0, d.budget, 0, []⟩), .acquire⟩
    else none
  | .scan s =>
    if s.got < s.need ∧ 0 < s.budget then
      let s := { s with budget := s.budget - 1, sinceYield := s.sinceYield + 1 }
      if victimsYieldEvery ≤ s.sinceYield then some ⟨d,
        .inl (.resume { s with sinceYield := 0 }), .release⟩
      else some ⟨d, .inl (.visit s), .keep⟩
    else some ⟨d, .inr s.dst, .release⟩
  | .resume s => if free then some ⟨d, .inl (.visit s), .acquire⟩ else none
  | .visit s =>
    match d.visit p with
    | none => none
    | some .dry => some ⟨d, .inr s.dst, .release⟩
    | some (.moved d) => some ⟨d, .inl (.scan s), .keep⟩
    | some (.expel d e) => some ⟨d, .inl (.expel e s), .keep⟩
  | .expel e s =>
    some ⟨d.tableDelete p (d.entry e).key,
      .inl (.scan { s with got := s.got + (d.entry e).size, dst := s.dst ++ [d.candidate e] }),
      .keep⟩

/-! ### The policy and its callers -/

inductive Call
  | admitKey (k : Key) (size now : Int64)
  | touch (k : Key)
  | remove (k : Key)
  | victims (ns : UInt32) (need now : Int64)

/-- The domains, the holders of their queue locks, the calls in progress by the thread that makes
them, and what the finished ones returned, the latest first. -/
structure World where
  domains : Table UInt32 Domain
  qmu : Table UInt32 ℕ
  calls : Table ℕ (UInt32 × Pc)
  answers : List (ℕ × List Candidate)

namespace World

def new : World := ⟨∅, ∅, ∅, []⟩

inductive Event
  | call (t : ℕ) (c : Call)
  | step (t : ℕ)

def ensureDomain (w : World) (ns : UInt32) : World :=
  match w.domains.lookup ns with
  | some _ => w
  | none => { w with domains := w.domains.insert ns Domain.new }

def goes (w : World) (t : ℕ) (ns : UInt32) : Pc ⊕ List Candidate → World
  | .inl pc => { w with calls := w.calls.insert t (ns, pc) }
  | .inr dst => { w with calls := w.calls.erase t, answers := (t, dst) :: w.answers }

/-- A call up to its first section in the namespace's domain. -/
def begin (w : World) (t : ℕ) : Call → World
  | .admitKey k size now =>
    if size ≤ 0 then w.goes t k.ns (.inr []) else (w.ensureDomain k.ns).goes t k.ns
      (.inl (.publish k size now))
  | .touch k => w.goes t k.ns (if (w.domains.lookup k.ns).isSome then .inl (.look k) else .inr [])
  | .remove k =>
      w.goes t k.ns (if (w.domains.lookup k.ns).isSome then .inl (.delete k) else .inr [])
  | .victims ns need now =>
    w.goes t ns
      (if (w.domains.lookup ns).isSome ∧ 0 < need then .inl (.start need now) else .inr [])

def locked (w : World) (ns : UInt32) (t : ℕ) : Lock → World
  | .keep => w
  | .acquire => { w with qmu := w.qmu.insert ns t }
  | .release => { w with qmu := w.qmu.erase ns }

/-- A thread starts a call, or its call runs its next section. -/
def step (w : World) : Event → Option World
  | .call t c => if (w.calls.lookup t).isSome then none else some (w.begin t c)
  | .step t =>
    (w.calls.lookup t).bind fun c =>
      (w.domains.lookup c.1).bind fun d =>
        (c.2.advance p (w.qmu.lookup c.1).isNone d).map fun o =>
          ({ w with domains := w.domains.insert c.1 o.domain }.locked c.1 t o.lock).goes t c.1
            o.next

end World

end Concurrent

open Function

namespace Concurrent

variable (p : Settings)

/-- The calls on one domain, by thread. -/
abbrev Calls := ℕ → Option Pc

/-- A call that owes the queues or the table nothing. -/
def Bystander : Option Pc → Prop
  | some (.queue _ _) | some (.unlink _) | some (.expel _ _) => False
  | _ => True

/-- The entry that a call still owes the queues or the table. -/
def Pc.owes : Pc → Option ℕ
  | .queue e _ | .unlink e | .expel e _ => some e
  | _ => none

/-- What holds between the sections: an entry in the table is queued, or its admission is still to
queue it, or a scan is still to delete it; an entry that is not dead is in the table, or its removal
is still to take it out of the queues. -/
structure Inv (d : Domain) (v : Calls) : Prop where
  ok : d.Ok
  table : ∀ k e, d.get p k = some e → e < d.fresh ∧ (d.entry e).key = k ∧
    (d.stage e = .queued ∨ (d.stage e = .unqueued ∧ ∃ t now, v t = some (.queue e now)) ∨
      (d.stage e = .dead ∧ ∃ t s, v t = some (.expel e s)))
  held : ∀ e, e < d.fresh → d.stage e ≠ .dead →
    d.get p (d.entry e).key = some e ∨ ∃ t, v t = some (.unlink e)
  queueing : ∀ t e now, v t = some (.queue e now) → e < d.fresh ∧ d.stage e ≠ .queued
  alone : ∀ t t' e now now', v t = some (.queue e now) → v t' = some (.queue e now') → t = t'
  unlinking : ∀ t e, v t = some (.unlink e) → e < d.fresh ∧ ∀ k, d.get p k ≠ some e
  expelling : ∀ t e s, v t = some (.expel e s) → e < d.fresh ∧ d.stage e = .dead

variable {p} {d d' : Domain} {v : Calls} {t : ℕ} {e : ℕ} {pc : Pc} {next : Option Pc}

theorem inv_new : Inv p Domain.new fun _ => none where
  ok := ⟨[], [], Domain.queues_new⟩
  table k e h := by
    rw [Domain.get, Domain.new, Shards.get_empty] at h
    cases h
  held e h := absurd h (Nat.not_lt_zero e)
  queueing _ _ _ h := nomatch h
  alone _ _ _ _ _ h := nomatch h
  unlinking _ _ h := nomatch h
  expelling _ _ _ h := nomatch h

namespace Inv

private theorem other {t' : ℕ} {q : Pc} (hq : v t' = some q) (hne : v t ≠ some q) :
    update v t next t' = some q := by
  have htt : t' ≠ t := by
    rintro rfl
    exact hne hq
  rw [update_of_ne htt, hq]

private theorem before {t' : ℕ} {q : Pc} (hq : update v t next t' = some q) (hne : next ≠ some q) :
    t' ≠ t ∧ v t' = some q := by
  have htt : t' ≠ t := by
    rintro rfl
    rw [update_self] at hq
    exact hne hq
  rw [update_of_ne htt] at hq
  exact ⟨htt, hq⟩

private theorem ne_of_bystander {o : Option Pc} {q : Pc} (h : Bystander o)
    (hq : ¬Bystander (some q)) : o ≠ some q := by
  rintro rfl
  exact hq h

theorem bystander (h : Inv p d v) (hb : d.Becomes d' d.stage) (hv : Bystander (v t))
    (hn : Bystander next) : Inv p d' (update v t next) where
  ok := hb.ok
  table k e hk := by
    rw [hb.get] at hk
    obtain ⟨hlt, hkey, hor⟩ := h.table k e hk
    refine ⟨hb.fresh ▸ hlt, (hb.key e).trans hkey, ?_⟩
    rw [hb.stage]
    rcases hor with hq | ⟨hu, t', now, hq⟩ | ⟨hd, t', s, hq⟩
    · exact .inl hq
    · exact .inr (.inl ⟨hu, t', now, other hq (ne_of_bystander hv id)⟩)
    · exact .inr (.inr ⟨hd, t', s, other hq (ne_of_bystander hv id)⟩)
  held e he hd := by
    rw [hb.stage] at hd
    rw [hb.get, hb.key]
    rcases h.held e (hb.fresh ▸ he) hd with hk | ⟨t', hq⟩
    · exact .inl hk
    · exact .inr ⟨t', other hq (ne_of_bystander hv id)⟩
  queueing t' e now hq := by
    rw [hb.fresh, hb.stage]
    exact h.queueing t' e now (before hq (ne_of_bystander hn id)).2
  alone t₁ t₂ e now now' h₁ h₂ :=
    h.alone t₁ t₂ e now now' (before h₁ (ne_of_bystander hn id)).2
      (before h₂ (ne_of_bystander hn id)).2
  unlinking t' e hq := by
    simp only [hb.fresh, hb.get]
    exact h.unlinking t' e (before hq (ne_of_bystander hn id)).2
  expelling t' e s hq := by
    rw [hb.fresh, hb.stage]
    exact h.expelling t' e s (before hq (ne_of_bystander hn id)).2

theorem publish {k : Key} {size now : Int64} (h : Inv p d v) (hget : d.get p k = none)
    (hp : d.Publishes p d' k size) (hv : Bystander (v t)) :
    Inv p d' (update v t (some (.queue d.fresh now))) := by
  have hentry : ∀ e, e < d.fresh → d'.entry e = d.entry e := fun e he => by
    rw [hp.entry, if_neg (Nat.ne_of_gt he)]
  have hstage : ∀ e, e < d.fresh → d'.stage e = d.stage e := fun e he => by
    rw [Domain.stage, hentry e he]
    rfl
  have hself : d'.entry d.fresh = ⟨k, size, .unqueued, 0⟩ := by rw [hp.entry, if_pos rfl]
  have hnew : d'.stage d.fresh = .unqueued := by
    rw [Domain.stage, hself]
    rfl
  have hlt : ∀ {e}, e < d.fresh → e < d'.fresh := fun he => by
    rw [hp.fresh]
    exact Nat.lt_succ_of_lt he
  have hsucc : d.fresh < d'.fresh := by
    rw [hp.fresh]
    exact Nat.lt_succ_self _
  refine ⟨hp.ok, fun k' e hk => ?_, fun e he hd => ?_, fun t' e now' hq => ?_,
    fun t₁ t₂ e n₁ n₂ h₁ h₂ => ?_,
    fun t' e hq => ?_, fun t' e s hq => ?_⟩
  · rw [hp.get] at hk
    split at hk
    · rename_i heq
      cases hk
      refine ⟨hsucc, ?_, .inr (.inl ⟨hnew, t, now, update_self ..⟩)⟩
      rw [hself, heq]
    obtain ⟨he, hkey, hor⟩ := h.table k' e hk
    rw [hentry e he, hstage e he]
    refine ⟨hlt he, hkey, ?_⟩
    rcases hor with hq | ⟨hu, t', now', hq⟩ | ⟨hd, t', s, hq⟩
    · exact .inl hq
    · exact .inr (.inl ⟨hu, t', now', other hq (ne_of_bystander hv id)⟩)
    · exact .inr (.inr ⟨hd, t', s, other hq (ne_of_bystander hv id)⟩)
  · rcases Nat.lt_succ_iff_lt_or_eq.mp (hp.fresh ▸ he) with he | rfl
    · rw [hstage e he] at hd
      rw [hentry e he, hp.get]
      rcases h.held e he hd with hk | ⟨t', hq⟩
      · have hne : (d.entry e).key ≠ k := fun heq => by
          rw [heq, hget] at hk
          cases hk
        rw [if_neg hne]
        exact .inl hk
      · exact .inr ⟨t', other hq (ne_of_bystander hv id)⟩
    · rw [hself, hp.get, if_pos rfl]
      exact .inl rfl
  · by_cases he : e = d.fresh
    · subst he
      rw [hnew]
      exact ⟨hsucc, by simp⟩
    · obtain ⟨he', hst⟩ := h.queueing t' e now' (before hq fun heq => he (by cases heq; rfl)).2
      rw [hstage e he']
      exact ⟨hlt he', hst⟩
  · by_cases he : e = d.fresh
    · subst he
      -- no other call can be queueing the entry that was made here
      have hall : ∀ t' n, update v t (some (.queue d.fresh now)) t' =
          some (.queue d.fresh n) → t' = t := by
        intro t' n hq
        by_contra hne
        rw [update_of_ne hne] at hq
        exact Nat.lt_irrefl _ (h.queueing t' _ _ hq).1
      rw [hall t₁ n₁ h₁, hall t₂ n₂ h₂]
    · exact h.alone t₁ t₂ e n₁ n₂ (before h₁ fun heq => he (by cases heq; rfl)).2
        (before h₂ fun heq => he (by cases heq; rfl)).2
  · obtain ⟨he, hk⟩ := h.unlinking t' e (before hq (by simp)).2
    refine ⟨hlt he, fun k' => ?_⟩
    rw [hp.get]
    split
    · exact fun heq => Nat.ne_of_gt he (Option.some.inj heq)
    · exact hk k'
  · obtain ⟨he, hd⟩ := h.expelling t' e s (before hq (by simp)).2
    rw [hstage e he]
    exact ⟨hlt he, hd⟩

theorem enqueue {now : Int64} (h : Inv p d v) (hv : v t = some (.queue e now))
    (hb : d.Becomes d' (if d.stage e = .unqueued then update d.stage e .queued else d.stage)) :
    Inv p d' (update v t none) := by
  obtain ⟨-, hnq⟩ := h.queueing t e now hv
  have hout : ∀ n, n ≠ e → d'.stage n = d.stage n := fun n hn => by
    rw [hb.stage]
    split
    · exact update_of_ne hn ..
    · rfl
  have hun : d.stage e = .unqueued → d'.stage e = .queued := fun hu => by
    rw [hb.stage, if_pos hu, update_self]
  have hdead : d.stage e = .dead ↔ d'.stage e = .dead := by
    rw [hb.stage]
    split
    · rename_i hu
      rw [hu, update_self]
      exact iff_of_false nofun nofun
    · exact Iff.rfl
  refine ⟨hb.ok, fun k n hk => ?_, fun n hn hd => ?_, fun t' n now' hq => ?_,
    fun t₁ t₂ n n₁ n₂ h₁ h₂ => ?_,
    fun t' n hq => ?_, fun t' n s hq => ?_⟩
  · rw [hb.get] at hk
    obtain ⟨hlt, hkey, hor⟩ := h.table k n hk
    refine ⟨hb.fresh ▸ hlt, (hb.key n).trans hkey, ?_⟩
    by_cases hne : n = e
    · subst hne
      rcases hor with hq | ⟨hu, -⟩ | ⟨hd, t', s, hq⟩
      · exact absurd hq hnq
      · exact .inl (hun hu)
      · exact .inr (.inr ⟨hdead.mp hd, t', s, other hq (by rw [hv]; nofun)⟩)
    · rw [hout n hne]
      rcases hor with hq | ⟨hu, t', now', hq⟩ | ⟨hd, t', s, hq⟩
      · exact .inl hq
      · refine .inr (.inl ⟨hu, t', now', other hq fun heq => hne ?_⟩)
        rw [hv] at heq
        cases heq
        rfl
      · exact .inr (.inr ⟨hd, t', s, other hq (by rw [hv]; nofun)⟩)
  · have hd' : d.stage n ≠ .dead := by
      by_cases hne : n = e
      · subst hne
        exact fun h => hd (hdead.mp h)
      · rwa [hout n hne] at hd
    rw [hb.get, hb.key]
    rcases h.held n (hb.fresh ▸ hn) hd' with hk | ⟨t', hq⟩
    · exact .inl hk
    · exact .inr ⟨t', other hq (by rw [hv]; nofun)⟩
  · obtain ⟨htt, hq⟩ := before hq nofun
    have hne : n ≠ e := by
      rintro rfl
      exact htt (h.alone t' t n now' now hq hv)
    rw [hb.fresh, hout n hne]
    exact h.queueing t' n now' hq
  · exact h.alone t₁ t₂ n n₁ n₂ (before h₁ nofun).2 (before h₂ nofun).2
  · simp only [hb.fresh, hb.get]
    exact h.unlinking t' n (before hq nofun).2
  · obtain ⟨hlt, hd⟩ := h.expelling t' n s (before hq nofun).2
    refine ⟨hb.fresh ▸ hlt, ?_⟩
    by_cases hne : n = e
    · subst hne
      exact hdead.mp hd
    · rw [hout n hne]
      exact hd

theorem delete {k : Key} (h : Inv p d v) (hget : d.get p k = some e) (hv : Bystander (v t)) :
    Inv p (d.tableDelete p k) (update v t (some (.unlink e))) := by
  obtain ⟨hlt, hkey, -⟩ := h.table k e hget
  have hsub : ∀ {k' n}, (d.tableDelete p k).get p k' = some n → k' ≠ k ∧ d.get p k' = some n := by
    intro k' n hk
    rw [Domain.get_tableDelete] at hk
    split at hk
    · cases hk
    · exact ⟨‹_›, hk⟩
  refine ⟨h.ok.tableDelete k, fun k' n hk => ?_, fun n hn hd => ?_, fun t' n now hq => ?_,
    fun t₁ t₂ n n₁ n₂ h₁ h₂ => ?_, fun t' n hq => ?_, fun t' n s hq => ?_⟩
  · obtain ⟨hn, hkey', hor⟩ := h.table k' n (hsub hk).2
    refine ⟨hn, hkey', ?_⟩
    rcases hor with hq | ⟨hu, t', now, hq⟩ | ⟨hd, t', s, hq⟩
    · exact .inl hq
    · exact .inr (.inl ⟨hu, t', now, other hq (ne_of_bystander hv id)⟩)
    · exact .inr (.inr ⟨hd, t', s, other hq (ne_of_bystander hv id)⟩)
  · rcases h.held n hn hd with hk | ⟨t', hq⟩
    · by_cases hne : (d.entry n).key = k
      · rw [hne, hget] at hk
        cases hk
        exact .inr ⟨t, update_self ..⟩
      · refine .inl ?_
        rw [Domain.get_tableDelete]
        exact (if_neg hne).trans hk
    · exact .inr ⟨t', other hq (ne_of_bystander hv id)⟩
  · exact h.queueing t' n now (before hq nofun).2
  · exact h.alone t₁ t₂ n n₁ n₂ (before h₁ nofun).2 (before h₂ nofun).2
  · by_cases hne : n = e
    · subst hne
      refine ⟨hlt, fun k' hk => ?_⟩
      obtain ⟨hkk, hk⟩ := hsub hk
      exact hkk ((h.table k' n hk).2.1.symm.trans hkey)
    · obtain ⟨hn, hk⟩ := h.unlinking t' n (before hq fun heq => hne (by cases heq; rfl)).2
      exact ⟨hn, fun k' hk' => hk k' (hsub hk').2⟩
  · exact h.expelling t' n s (before hq nofun).2

/-- An entry dies in a section of a call that owes nothing else; if it is in the table, a scan is
still to delete it. -/
private theorem die (h : Inv p d v) (hb : d.Becomes d' (update d.stage e .dead)) (hlt : e < d.fresh)
    (hv : ∀ n, n ≠ e → (v t).bind Pc.owes ≠ some n) (hnext : ∀ q ∈ next, ∃ s, q = .expel e s)
    (htable : ∀ k, d.get p k = some e → ∃ s, next = some (.expel e s)) :
    Inv p d' (update v t next) := by
  have hout : ∀ {n}, n ≠ e → d'.stage n = d.stage n := fun hn => by rw [hb.stage, update_of_ne hn]
  have hself : d'.stage e = .dead := by rw [hb.stage, update_self]
  have hkeep : ∀ {t' n q}, v t' = some q → q.owes = some n → n ≠ e →
      update v t next t' = some q := by
    intro t' n q hq hn hne
    refine other hq fun heq => hv n hne ?_
    rw [heq, Option.bind_some, hn]
  have hback : ∀ {t' q}, update v t next t' = some q → (∀ s, q ≠ .expel e s) → v t' = some q := by
    refine fun hq hne => (before hq fun heq => ?_).2
    obtain ⟨s, hs⟩ := hnext _ heq
    exact hne s hs
  refine ⟨hb.ok, fun k n hk => ?_, fun n hn hd => ?_, fun t' n now hq => ?_,
    fun t₁ t₂ n n₁ n₂ h₁ h₂ => ?_, fun t' n hq => ?_, fun t' n s hq => ?_⟩
  · rw [hb.get] at hk
    obtain ⟨hlt, hkey, hor⟩ := h.table k n hk
    refine ⟨hb.fresh ▸ hlt, (hb.key n).trans hkey, ?_⟩
    by_cases hne : n = e
    · subst hne
      obtain ⟨s, rfl⟩ := htable k hk
      exact .inr (.inr ⟨hself, t, s, update_self ..⟩)
    rw [hout hne]
    rcases hor with hq | ⟨hu, t', now, hq⟩ | ⟨hd, t', s, hq⟩
    · exact .inl hq
    · exact .inr (.inl ⟨hu, t', now, hkeep hq rfl hne⟩)
    · exact .inr (.inr ⟨hd, t', s, hkeep hq rfl hne⟩)
  · have hne : n ≠ e := fun heq => hd (heq ▸ hself)
    rw [hout hne] at hd
    rw [hb.get, hb.key]
    rcases h.held n (hb.fresh ▸ hn) hd with hk | ⟨t', hq⟩
    · exact .inl hk
    · exact .inr ⟨t', hkeep hq rfl hne⟩
  · obtain ⟨hlt, hst⟩ := h.queueing t' n now (hback hq nofun)
    refine ⟨hb.fresh ▸ hlt, ?_⟩
    by_cases hne : n = e
    · rw [hne, hself]
      nofun
    · rwa [hout hne]
  · exact h.alone t₁ t₂ n n₁ n₂ (hback h₁ nofun) (hback h₂ nofun)
  · simp only [hb.fresh, hb.get]
    exact h.unlinking t' n (hback hq nofun)
  · rw [hb.fresh]
    by_cases hne : n = e
    · exact hne ▸ ⟨hlt, hself⟩
    rw [hout hne]
    exact h.expelling t' n s (hback hq fun s' heq => hne (by cases heq; rfl))

theorem dequeue (h : Inv p d v) (hv : v t = some (.unlink e))
    (hb : d.Becomes d' (update d.stage e .dead)) : Inv p d' (update v t none) := by
  obtain ⟨hlt, hgone⟩ := h.unlinking t e hv
  refine h.die hb hlt (fun n hn => ?_) nofun fun k hk => absurd hk (hgone k)
  rw [hv]
  exact fun heq => hn (Option.some.inj heq).symm

theorem pop {s : Scan} (h : Inv p d v) (hst : d.stage e = .queued) (hv : Bystander (v t))
    (hb : d.Becomes d' (update d.stage e .dead)) : Inv p d' (update v t (some (.expel e s))) := by
  obtain ⟨S, M, hqs⟩ := h.ok
  have hlt : e < d.fresh := hqs.lt_fresh fun hp => by
    rw [Domain.stage, hp] at hst
    cases hst
  refine h.die hb hlt (fun n hn heq => ?_) (fun q hq => ⟨s, (Option.some.inj hq).symm⟩)
    fun k hk => ⟨s, rfl⟩
  obtain ⟨q, hq, hn⟩ := Option.bind_eq_some_iff.mp heq
  rw [hq] at hv
  cases q <;> first | exact hv | cases hn

theorem expel {s : Scan} (h : Inv p d v) (hv : v t = some (.expel e s)) (hn : Bystander next)
    (hclear : ∀ n, d.get p (d.entry e).key = some n → n = e) :
    Inv p (d.tableDelete p (d.entry e).key) (update v t next) := by
  obtain ⟨hlt, hdead⟩ := h.expelling t e s hv
  have hsub : ∀ {k n}, (d.tableDelete p (d.entry e).key).get p k = some n →
      k ≠ (d.entry e).key ∧ d.get p k = some n := by
    intro k n hk
    rw [Domain.get_tableDelete] at hk
    split at hk
    · cases hk
    · exact ⟨‹_›, hk⟩
  refine ⟨h.ok.tableDelete _, fun k n hk => ?_, fun n hlt' hd => ?_, fun t' n now hq => ?_,
    fun t₁ t₂ n n₁ n₂ h₁ h₂ => ?_, fun t' n hq => ?_, fun t' n s' hq => ?_⟩
  · obtain ⟨hne, hk⟩ := hsub hk
    obtain ⟨hlt', hkey, hor⟩ := h.table k n hk
    refine ⟨hlt', hkey, ?_⟩
    rcases hor with hq | ⟨hu, t', now, hq⟩ | ⟨hd, t', s', hq⟩
    · exact .inl hq
    · exact .inr (.inl ⟨hu, t', now, other hq (by rw [hv]; nofun)⟩)
    refine .inr (.inr ⟨hd, t', s', other hq fun heq => hne ?_⟩)
    rw [hv] at heq
    cases heq
    exact hkey.symm
  · rcases h.held n hlt' hd with hk | ⟨t', hq⟩
    · refine .inl ?_
      have hne : (d.entry n).key ≠ (d.entry e).key := by
        intro heq
        rw [heq] at hk
        have := hclear n hk
        subst this
        exact hd hdead
      rw [Domain.get_tableDelete]
      exact (if_neg hne).trans hk
    · exact .inr ⟨t', other hq (by rw [hv]; nofun)⟩
  · exact h.queueing t' n now (before hq (ne_of_bystander hn id)).2
  · exact h.alone t₁ t₂ n n₁ n₂ (before h₁ (ne_of_bystander hn id)).2
      (before h₂ (ne_of_bystander hn id)).2
  · obtain ⟨hlt', hk⟩ := h.unlinking t' n (before hq (ne_of_bystander hn id)).2
    exact ⟨hlt', fun k hk' => hk k (hsub hk').2⟩
  · exact h.expelling t' n s' (before hq (ne_of_bystander hn id)).2

end Inv

/-- No entry but the one that a scan is about to delete is published under its key. -/
def Pc.clear (p : Settings) (d : Domain) : Pc → Bool
  | .expel e _ => (d.get p (d.entry e).key).all (· = e)
  | _ => true

def Outcome.at (o : Outcome) : Option Pc := o.next.getLeft?

theorem Inv.advance {free : Bool} {o : Outcome} (h : Inv p d v) (hv : v t = some pc)
    (hc : pc.clear p d = true) (ho : pc.advance p free d = some o) :
    Inv p o.domain (update v t o.at) := by
  have hb : Bystander (some pc) → Bystander (v t) := fun h => hv ▸ h
  cases pc with
  | publish k size now =>
    cases hget : d.get p k with
    | none =>
      obtain ⟨d', hpub, hp⟩ := h.ok.publish hget size
      simp only [Pc.advance, hpub] at ho
      cases ho
      exact h.publish hget hp (hb trivial)
    | some e =>
      simp only [Pc.advance, Domain.publish_of_get hget] at ho
      cases ho
      exact h.bystander h.ok.refl (hb trivial) trivial
  | queue e now =>
    obtain ⟨hlt, hst⟩ := h.queueing t e now hv
    cases free with
    | false => cases ho
    | true =>
      cases ho
      exact h.enqueue hv (h.ok.enqueue hlt hst now)
  | look k =>
    cases hget : d.get p k with
    | none | some e =>
      simp only [Pc.advance, hget] at ho
      cases ho
      exact h.bystander h.ok.refl (hb trivial) trivial
  | load e =>
    rw [Pc.advance] at ho
    split at ho <;> cases ho <;> exact h.bystander h.ok.refl (hb trivial) trivial
  | swap e f =>
    rw [Pc.advance] at ho
    split at ho
    · cases ho
      exact h.bystander (h.ok.setFreq e (f + 1)) (hb trivial) trivial
    · cases ho
      exact h.bystander h.ok.refl (hb trivial) trivial
  | delete k =>
    cases hget : d.get p k with
    | none =>
      simp only [Pc.advance, hget] at ho
      cases ho
      exact h.bystander h.ok.refl (hb trivial) trivial
    | some e =>
      simp only [Pc.advance, hget] at ho
      cases ho
      exact h.delete hget (hb trivial)
  | unlink e =>
    cases free with
    | false => cases ho
    | true =>
      cases ho
      exact h.dequeue hv (h.ok.dequeue (h.unlinking t e hv).1)
  | start need now =>
    cases free with
    | false => cases ho
    | true =>
      cases ho
      exact h.bystander (h.ok.refl.maybeDecay now) (hb trivial) trivial
  | scan s =>
    rw [Pc.advance] at ho
    split at ho
    · dsimp only at ho
      split at ho <;> cases ho <;> exact h.bystander h.ok.refl (hb trivial) trivial
    · cases ho
      exact h.bystander h.ok.refl (hb trivial) trivial
  | resume s =>
    cases free with
    | false => cases ho
    | true =>
      cases ho
      exact h.bystander h.ok.refl (hb trivial) trivial
  | visit s =>
    obtain ⟨hvis, -⟩ | ⟨d', hvis, hbec⟩ | ⟨d', e, hvis, hst, hbec⟩ := h.ok.visit (p := p)
    · simp only [Pc.advance, hvis] at ho
      cases ho
      exact h.bystander h.ok.refl (hb trivial) trivial
    · simp only [Pc.advance, hvis] at ho
      cases ho
      exact h.bystander hbec (hb trivial) trivial
    · simp only [Pc.advance, hvis] at ho
      cases ho
      exact h.pop hst (hb trivial) hbec
  | expel e s =>
    cases ho
    refine h.expel hv trivial fun n hn => ?_
    rw [Pc.clear, hn, Option.all_some] at hc
    exact of_decide_eq_true hc

end Concurrent

end KVStash.Eviction
