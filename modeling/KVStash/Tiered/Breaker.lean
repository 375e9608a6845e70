/- GID: KVStash/Tiered/Breaker
   digest: The breaker of the cold reads by atomic steps, and how far apart it admits its probes. -/

import KVStash.Foundation.Run
import KVStash.Foundation.Table

set_option autoImplicit false

namespace KVStash.Tiered.Breaker

open Foundation Foundation.Run

def s3ColdReadConcurrency : ℕ := 16

def s3BreakerTripAfter : Int32 := 8

def s3BreakerCooldown : ℕ := 5000000000

/-- Where a `readS3` is, with the clock value that it sampled at its entry. -/
inductive Pc
  -- `s3BreakerAllow` at its load, and at its swap with the value it loaded
  | load (now : ℕ)
  | probe (now untl : ℕ)
  -- allowed, at the semaphore, and in the ranged read
  | allowed (now : ℕ)
  | reading (now : ℕ)
  -- `s3BreakerNote` of a failure at the count, and at the swap of the deadline
  | fail (now : ℕ)
  | trip (now : ℕ)
  -- `s3BreakerNote` of an answer at the count, and at the deadline
  | ok
  | close

/-- The breaker and the reads in progress. The probes are the clock values at which reads were let
through since the breaker opened, the latest first. -/
structure State where
  clock : ℕ
  openUntil : ℕ
  fails : Int32
  sem : ℕ
  calls : Table ℕ Pc
  probes : List ℕ

namespace State

def new (clock : ℕ) : State := ⟨clock, 0, 0, 0, ∅, []⟩

/-- What the backend does to a ranged read. -/
inductive Outcome
  -- the bytes, or the answer that the object is gone
  | answered
  | failed
  -- the caller left
  | left

inductive Event
  | tick (by_ : ℕ)
  | enter (i : ℕ)
  | step (i : ℕ)
  | read (i : ℕ) (o : Outcome)

def access (s : State) (i : ℕ) : Pc → Option State
  | .load now =>
    some { s with
      calls :=
        if s.openUntil = 0 then s.calls.insert i (.allowed now)
        else if now < s.openUntil then s.calls.erase i
        else s.calls.insert i (.probe now s.openUntil) }
  | .probe now untl =>
    some (if s.openUntil = untl then
        { s with
          openUntil := now + s3BreakerCooldown
          calls := s.calls.insert i (.allowed now)
          probes := s.clock :: s.probes }
      else { s with calls := s.calls.erase i })
  | .allowed now =>
    some (if s.sem < s3ColdReadConcurrency then
        { s with sem := s.sem + 1, calls := s.calls.insert i (.reading now) }
      else { s with calls := s.calls.erase i })
  | .reading _ => none
  -- a read that returns from here on gives its place at the semaphore back
  | .fail now =>
    let fails := s.fails + 1
    some (if s3BreakerTripAfter ≤ fails then
        { s with fails := fails, calls := s.calls.insert i (.trip now) }
      else { s with fails := fails, sem := s.sem - 1, calls := s.calls.erase i })
  | .trip now =>
    some { s with
      openUntil := now + s3BreakerCooldown
      sem := s.sem - 1
      calls := s.calls.erase i
      probes := if s.openUntil = 0 then [] else s.probes }
  | .ok => some { s with fails := 0, calls := s.calls.insert i .close }
  | .close =>
    some { s with openUntil := 0, sem := s.sem - 1, calls := s.calls.erase i, probes := [] }

def step (s : State) : Event → Option State
  | .tick d => some { s with clock := s.clock + d }
  | .enter i =>
    if (s.calls.lookup i).isSome then none
    else some { s with calls := s.calls.insert i (.load s.clock) }
  | .step i => (s.calls.lookup i).bind (s.access i)
  | .read i o =>
    match s.calls.lookup i, o with
    | some (.reading _), .answered => some { s with calls := s.calls.insert i .ok }
    | some (.reading now), .failed => some { s with calls := s.calls.insert i (.fail now) }
    | some (.reading _), .left => some { s with sem := s.sem - 1, calls := s.calls.erase i }
    | _, _ => none

/-- A swap that wins the probe comes at the clock value that the caller sampled, and the deadline
after a failure is not before the one that it replaces. -/
def timely (s : State) : Pc → Bool
  | .probe now untl => s.openUntil ≠ untl ∨ s.clock = now
  | .trip now => s.openUntil ≤ now + s3BreakerCooldown
  | _ => true

/-- No clock time passes between a probe's sample and its swap, and no failure that is noted while
the breaker is open brings its deadline forward. -/
def Timely (s : State) : Event → Prop
  | .step i => (s.calls.lookup i).all s.timely = true
  | _ => True

instance (s : State) : (e : Event) → Decidable (s.Timely e)
  | .step i => inferInstanceAs (Decidable ((s.calls.lookup i).all s.timely = true))
  | .tick _ | .enter _ | .read .. => isTrue trivial

/-! ### The probes -/

/-- A caller that competes for the probe has seen the deadline pass, and the deadline lies a
cooldown after every probe. -/
structure Inv (s : State) : Prop where
  passed : ∀ i now untl, s.calls.lookup i = some (.probe now untl) → untl ≤ now
  ahead : ∀ p ∈ s.probes, p + s3BreakerCooldown ≤ s.openUntil
  apart : s.probes.Pairwise fun later earlier => earlier + s3BreakerCooldown ≤ later

section Steps

variable {s s' : State} {i : ℕ} {pc : Pc}

/-- What is new among the calls after a step of one of them is its own next position. -/
private theorem Inv.keep (h : s.Inv) (huntil : s'.openUntil = s.openUntil)
    (hprobes : s'.probes = s.probes)
    (hcalls : s'.calls = s.calls.erase i ∨ ∃ pc, s'.calls = s.calls.insert i pc ∧
      ∀ now untl, pc = .probe now untl → untl ≤ now) : s'.Inv := by
  refine ⟨fun j now untl hj => ?_, ?_, ?_⟩
  · rcases hcalls with hcalls | ⟨pc, hcalls, hpc⟩
    · rw [hcalls] at hj
      exact h.passed j now untl (Table.lookup_of_erase hj)
    · rw [hcalls] at hj
      rcases Table.lookup_of_insert hj with ⟨-, heq⟩ | hj
      · exact hpc now untl heq.symm
      · exact h.passed j now untl hj
  · rw [hprobes, huntil]
    exact h.ahead
  · rw [hprobes]
    exact h.apart

private theorem Inv.goes (h : s.Inv) (huntil : s'.openUntil = s.openUntil)
    (hprobes : s'.probes = s.probes) (hcalls : s'.calls = s.calls.insert i pc)
    (hpc : ∀ now untl, pc ≠ .probe now untl) : s'.Inv :=
  h.keep huntil hprobes (.inr ⟨pc, hcalls, fun now untl heq => absurd heq (hpc now untl)⟩)

theorem Inv.access (h : s.Inv) (hi : s.calls.lookup i = some pc) (ht : s.Timely (.step i))
    (hs : s.access i pc = some s') : s'.Inv := by
  rw [Timely, hi, Option.all_some] at ht
  cases pc with
  | load now =>
    cases hs
    refine h.keep (i := i) rfl rfl ?_
    dsimp only
    split_ifs with hclosed hopen
    · exact .inr ⟨_, rfl, by simp⟩
    · exact .inl rfl
    · refine .inr ⟨_, rfl, fun now' untl heq => ?_⟩
      cases heq
      exact not_lt.mp hopen
  | probe now untl =>
    cases hs
    have hpassed := h.passed i now untl hi
    split
    · rename_i heq
      have hclock : s.clock = now := (of_decide_eq_true ht).resolve_left (not_not.mpr heq)
      -- the deadline has passed, and it was a cooldown after all earlier probes
      have hbefore : ∀ p ∈ s.probes, p + s3BreakerCooldown ≤ s.clock := by
        intro p hp
        have := h.ahead p hp
        omega
      refine ⟨fun j now' untl' hj => ?_, fun p hp => ?_, List.pairwise_cons.mpr ⟨hbefore, h.apart⟩⟩
      · rcases Table.lookup_of_insert hj with ⟨-, heq⟩ | hj
        · cases heq
        · exact h.passed j now' untl' hj
      · show p + s3BreakerCooldown ≤ now + s3BreakerCooldown
        rcases List.mem_cons.mp hp with rfl | hp
        · omega
        · have := hbefore p hp
          omega
    · exact h.keep rfl rfl (.inl rfl)
  | allowed now =>
    cases hs
    split
    · exact h.goes rfl rfl rfl (by simp)
    · exact h.keep rfl rfl (.inl rfl)
  | reading now => cases hs
  | fail now =>
    cases hs
    split
    · exact h.goes rfl rfl rfl (by simp)
    · exact h.keep rfl rfl (.inl rfl)
  | trip now =>
    cases hs
    have hlater : s.openUntil ≤ now + s3BreakerCooldown := of_decide_eq_true ht
    refine ⟨fun j now' untl hj => h.passed j now' untl (Table.lookup_of_erase hj),
      fun p hp => ?_, ?_⟩
    · dsimp only at hp
      split at hp
      · cases hp
      · exact (h.ahead p hp).trans hlater
    · dsimp only
      split
      · exact .nil
      · exact h.apart
  | ok =>
    cases hs
    exact h.goes rfl rfl rfl (by simp)
  | close =>
    cases hs
    exact ⟨fun j now' untl hj => h.passed j now' untl (Table.lookup_of_erase hj),
      fun p hp => (nomatch hp), .nil⟩

theorem Inv.step (h : s.Inv) {e : Event} (ht : s.Timely e) (hs : s.step e = some s') : s'.Inv := by
  cases e with
  | tick d =>
    cases hs
    exact ⟨h.passed, h.ahead, h.apart⟩
  | enter i =>
    rw [State.step] at hs
    split at hs
    · cases hs
    · cases hs
      exact h.goes rfl rfl rfl (by simp)
  | step i =>
    obtain ⟨pc, hi, hs⟩ := Option.bind_eq_some_iff.mp hs
    exact h.access hi ht hs
  | read i o =>
    unfold State.step at hs
    dsimp only at hs
    split at hs
    · cases hs
      exact h.goes rfl rfl rfl (by simp)
    · cases hs
      exact h.goes rfl rfl rfl (by simp)
    · cases hs
      exact h.keep rfl rfl (.inl rfl)
    · cases hs

end Steps

/-- In every interleaving in which the winning swaps are prompt and no late failure brings the
deadline forward, the reads that an open breaker lets through are a cooldown apart. -/
theorem probes_apart (clock : ℕ) {es : List Event} {s : State}
    (hrun : run step (new clock) es = some s) (ht : Along step Timely (new clock) es) :
    s.probes.Pairwise fun later earlier => earlier + s3BreakerCooldown ≤ later := by
  have hnew : (new clock).Inv := by
    refine ⟨fun i now untl hi => ?_, fun p hp => (nomatch hp), .nil⟩
    rw [new, AList.lookup_empty] at hi
    cases hi
  exact (run_invariant (fun _ _ _ h ht hs => h.step ht hs) hnew ht hrun).apart

def admitted (i steps : ℕ) : List Event := .enter i :: List.replicate steps (.step i)

def failing (i steps : ℕ) : List Event := .read i .failed :: List.replicate steps (.step i)

/-- Nine reads at one instant, of which eight fail and open the breaker, and the end of the
cooldown. -/
def outage : List Event :=
  (List.range 9).flatMap (admitted · 2) ++ (List.range 7).flatMap (failing · 1) ++ failing 7 2 ++
    [.tick s3BreakerCooldown]

/-- A probe fails as well, and one cooldown later there is the next. -/
theorem probes_apart_outage :
    ∃ s, run step (new 0) (outage ++ admitted 9 3 ++ failing 9 2 ++ [.tick s3BreakerCooldown] ++
        admitted 10 3) = some s ∧
      s.probes.length = 2 ∧ s.probes.Pairwise fun later earlier =>
        earlier + s3BreakerCooldown ≤ later := by
  have hany : ∃ s ∈ run step (new 0) (outage ++ admitted 9 3 ++ failing 9 2 ++
      [.tick s3BreakerCooldown] ++ admitted 10 3), s.probes.length = 2 := by decide +kernel
  obtain ⟨s, hrun, hlen⟩ := hany
  exact ⟨s, hrun, hlen, probes_apart 0 hrun (by decide +kernel)⟩

/-- The ninth of the first reads fails late: its deadline, a cooldown after its own start, has
passed already, and a second probe goes through at the instant of the first. So it does where the
first one's swap comes a cooldown after its sample. -/
theorem probes_together :
    (run step (new 0) (outage ++ admitted 9 3 ++ failing 8 2 ++ admitted 10 3)).map State.probes =
        some [s3BreakerCooldown, s3BreakerCooldown] ∧
      (run step (new 0) (outage ++ admitted 9 1 ++ [.tick s3BreakerCooldown, .step 9] ++
          admitted 10 3)).map State.probes =
            some [2 * s3BreakerCooldown, 2 * s3BreakerCooldown] := by
  decide +kernel

end State

end KVStash.Tiered.Breaker
