/- GID: KVStash/Tiered/Spiller
   digest: The spill queue by atomic steps: every request is answered, and Close returns. -/

import KVStash.Foundation.Run
import Mathlib.Data.Int.Notation
import Mathlib.Data.List.Count
import Mathlib.Tactic.MkIffOfInductiveProp

set_option autoImplicit false

namespace KVStash.Tiered.Spiller

open Foundation Foundation.Run

variable {ρ : Type}

/-- Where the worker is. `drain` tells the loop after the cancellation from the one before it. -/
inductive Worker (ρ : Type)
  | select
  | uploading (r : ρ)
  | answering (r : ρ) (ok drain : Bool)
  | retiring (drain : Bool)
  | pulsing (drain : Bool)
  | draining
  | stopped
  deriving DecidableEq

namespace Worker

@[grind] def next (drain : Bool) : Worker ρ := if drain then .draining else .select

/-- What the worker has yet to take off the counter. -/
@[grind] def counts : Worker ρ → ℕ
  | .uploading _ | .answering .. | .retiring _ => 1
  | _ => 0

/-- The request the worker has taken and not answered. -/
@[grind] def holds : Worker ρ → List ρ
  | .uploading r | .answering r _ _ => [r]
  | _ => []

/-- An upload that landed and is not answered. -/
@[grind] def landed : Worker ρ → ℕ
  | .answering _ true _ => 1
  | _ => 0

@[grind] def drains : Worker ρ → Bool
  | .answering _ _ drain | .retiring drain | .pulsing drain => drain
  | .draining | .stopped => true
  | _ => false

end Worker

/-- A request is a segment with its reader and its hook. The calls of `DemoteSegment` and of `Flush`
are known by the point they are at: how many are there is the state. `closed` is the flag with the
cancelled context, both set under the write lock. `accepted` are the requests of the calls that
returned true, `ups` the hooks that ran. The counters are atomics of 64 bits in the source;
`counters_fit` says that a run of fewer than 2 ^ 63 steps does not leave them. -/
structure State (ρ : Type) where
  depth : ℕ
  queue : List ρ := []
  closed : Bool := false
  inflight : ℤ := 0
  idle : Bool := false
  spilled : ℕ := 0
  dropped : ℕ := 0
  putErrors : ℕ := 0
  worker : Worker ρ := .select
  -- `DemoteSegment` under the read lock: at the counter, at the queue, and after a full queue at
  -- the counter again and at the pulse
  admitted : ℕ := 0
  counted : ℕ := 0
  full : ℕ := 0
  pulsing : ℕ := 0
  -- `Flush`: at the counter, at its select, and at the pulse it hands on
  loading : ℕ := 0
  parked : ℕ := 0
  handing : ℕ := 0
  accepted : List ρ := []
  ups : List (ρ × Bool) := []

def newSpiller (queueDepth : ℤ) : State ρ :=
  { depth := if queueDepth ≤ 0 then 8 else queueDepth.toNat }

namespace State

inductive Event (ρ : Type)
  | enter
  | count
  | send (r : ρ)
  | uncount
  | pulse
  -- the branch of a `select` that has two ready, or the outcome of an upload
  | loop (choice : Bool)
  | flush
  | load
  | wake
  | expire
  | hand
  | close

/-- The next thing the worker does. -/
def loop (s : State ρ) (choice : Bool) : Option (State ρ) :=
  match s.worker with
  | .select =>
    if choice then
      match s.queue with
      | r :: queue => some { s with queue := queue, worker := .uploading r }
      | [] => none
    else if s.closed then some { s with worker := .draining } else none
  | .uploading r =>
    some (if choice then { s with spilled := s.spilled + 1, worker := .answering r true false }
      else { s with putErrors := s.putErrors + 1, worker := .answering r false false })
  | .answering r ok drain => some { s with ups := (r, ok) :: s.ups, worker := .retiring drain }
  | .retiring drain =>
    some { s with
      inflight := s.inflight - 1
      worker := if s.inflight - 1 = 0 then .pulsing drain else .next drain }
  | .pulsing drain => some { s with idle := true, worker := .next drain }
  | .draining =>
    match s.queue with
    | r :: queue => some { s with queue := queue, worker := .answering r false true }
    | [] => some { s with worker := .stopped }
  | .stopped => none

def step (s : State ρ) : Event ρ → Option (State ρ)
  -- the flag is read under the lock, where `Close` cannot set it
  | .enter => some (if s.closed then s else { s with admitted := s.admitted + 1 })
  | .count =>
    if s.admitted = 0 then none
    else some
      { s with
        admitted := s.admitted - 1, inflight := s.inflight + 1, counted := s.counted + 1 }
  | .send r =>
    if s.counted = 0 then none
    else if s.queue.length < s.depth then
      some { s with counted := s.counted - 1, queue := s.queue ++ [r], accepted := r :: s.accepted }
    else some { s with counted := s.counted - 1, dropped := s.dropped + 1, full := s.full + 1 }
  | .uncount =>
    if s.full = 0 then none
    else some { s with
      full := s.full - 1
      inflight := s.inflight - 1
      pulsing := if s.inflight - 1 = 0 then s.pulsing + 1 else s.pulsing }
  | .pulse => if s.pulsing = 0 then none else some { s with pulsing := s.pulsing - 1, idle := true }
  | .loop choice => s.loop choice
  | .flush => some { s with loading := s.loading + 1 }
  | .load =>
    if s.loading = 0 then none
    else if s.inflight = 0 then some { s with loading := s.loading - 1, handing := s.handing + 1 }
    else some { s with loading := s.loading - 1, parked := s.parked + 1 }
  | .wake =>
    if s.parked = 0 ∨ s.idle = false then none
    else some { s with parked := s.parked - 1, idle := false, loading := s.loading + 1 }
  | .expire => if s.parked = 0 then none else some { s with parked := s.parked - 1 }
  | .hand => if s.handing = 0 then none else some { s with handing := s.handing - 1, idle := true }
  -- the write lock is free when no call holds the read lock
  | .close =>
    if s.admitted + s.counted + s.full + s.pulsing = 0 then some { s with closed := true } else none

/-! ### What the threads owe -/

/-- Somebody is about to put a pulse into the channel. -/
@[grind] def Waking (s : State ρ) : Prop :=
  (∃ drain, s.worker = .pulsing drain) ∨ 0 < s.pulsing + s.loading + s.handing

/-- What the worker can still do once nothing is sent any more. -/
@[grind] def work (s : State ρ) : ℕ :=
  6 * s.queue.length + match s.worker with
    | .uploading _ => 6
    | .answering .. => 5
    | .retiring _ => 4
    | .pulsing _ => 3
    | .select => 2
    | .draining => 1
    | .stopped => 0

@[grind] def Event.isLoop : Event ρ → Bool
  | .loop _ => true
  | _ => false

variable {s s' : State ρ}

theorem step_counters {e : Event ρ} (hs : s.step e = some s') :
    s'.inflight ≤ s.inflight + 1 ∧
      s'.spilled + s'.dropped + s'.putErrors ≤ s.spilled + s.dropped + s.putErrors + 1 := by
  cases e with
  | loop choice => grind [State.step, State.loop]
  | _ => grind [State.step]

theorem run_counters {es : List (Event ρ)} (hrun : run step s es = some s') :
    s'.inflight ≤ s.inflight + es.length ∧
      s'.spilled + s'.dropped + s'.putErrors ≤ s.spilled + s.dropped + s.putErrors + es.length := by
  induction es generalizing s with
  | nil =>
    cases hrun
    simp
  | cons e es ih =>
    obtain ⟨s₁, hs, hrun⟩ := Option.bind_eq_some_iff.mp hrun
    have hstep := step_counters hs
    have hrest := ih hrun
    rw [List.length_cons]
    omega

/-- Nothing that was accepted or answered is forgotten. -/
theorem step_extends {e : Event ρ} (hs : s.step e = some s') :
    s.accepted <:+ s'.accepted ∧ s.ups <:+ s'.ups := by
  cases e with
  | loop choice => grind [State.step, State.loop]
  | _ => grind [State.step]

theorem run_extends {es : List (Event ρ)} (hrun : run step s es = some s') :
    s.accepted <:+ s'.accepted ∧ s.ups <:+ s'.ups :=
  run_invariant (I := fun t => s.accepted <:+ t.accepted ∧ s.ups <:+ t.ups)
    (fun _ _ _ h _ hs => ⟨h.1.trans (step_extends hs).1, h.2.trans (step_extends hs).2⟩)
    ⟨List.suffix_rfl, List.suffix_rfl⟩ along_true hrun

/-- No hook of the request was told of success, and none is about to be. -/
@[grind] def Untold (r : ρ) (s : State ρ) : Prop :=
  (r, true) ∉ s.ups ∧ ∀ drain, s.worker ≠ .answering r true drain

theorem Untold.step {r : ρ} (h : s.Untold r) {e : Event ρ}
    (hup : ¬(e = .loop true ∧ s.worker = .uploading r)) (hs : s.step e = some s') :
    s'.Untold r := by
  cases e with
  | loop choice => grind [State.step, State.loop]
  | _ => grind [State.step]

variable {queueDepth : ℤ} {es : List (Event ρ)}

theorem uploaded_of_told {r : ρ} (hrun : run step (newSpiller queueDepth) es = some s)
    (htold : (r, true) ∈ s.ups) :
    ∃ es₁ es₂ s₁, es = es₁ ++ .loop true :: es₂ ∧
      run step (newSpiller queueDepth) es₁ = some s₁ ∧ s₁.worker = .uploading r := by
  rcases along_or_break (C := fun t e => ¬(e = .loop true ∧ t.worker = .uploading r)) hrun with
    hnever | ⟨es₁, e, es₂, s₁, rfl, hrun₁, hup⟩
  · have hnew : (newSpiller queueDepth).Untold r := by simp [Untold, newSpiller]
    exact absurd htold (run_invariant (fun _ _ _ h hup hs => h.step hup hs) hnew hnever hrun).1
  · obtain ⟨rfl, hw⟩ := not_not.mp hup
    exact ⟨es₁, es₂, s₁, rfl, hrun₁, hw⟩

variable [DecidableEq ρ]

@[mk_iff] structure Inv (s : State ρ) : Prop where
  counts : s.inflight = s.counted + s.full + s.queue.length + s.worker.counts
  -- an accepted request is queued, with the worker, or answered
  once : ∀ r, s.queue.count r + s.worker.holds.count r + (s.ups.map Prod.fst).count r =
    s.accepted.count r
  spills : s.spilled = s.ups.countP (·.2) + s.worker.landed
  late : s.closed = true → s.admitted + s.counted + s.full + s.pulsing = 0
  drains : s.worker.drains = true → s.closed = true
  stops : s.worker = .stopped → s.queue = []
  wakes : s.inflight = 0 → 0 < s.parked → s.idle = true ∨ s.Waking

theorem Inv.new (queueDepth : ℤ) : (newSpiller queueDepth : State ρ).Inv := by
  constructor <;> simp [newSpiller, Worker.counts, Worker.holds, Worker.landed, Worker.drains]

theorem Inv.loop (h : s.Inv) {choice : Bool} (hs : s.loop choice = some s') :
    s'.Inv ∧ s'.closed = s.closed ∧ s'.work < s.work := by
  rw [inv_iff] at h ⊢
  unfold State.loop at hs
  split at hs
  -- at the select: the queue, or the cancelled context
  · split_ifs at hs
    · split at hs
      · cases hs
        grind
      · cases hs
    · cases hs
      grind
  · cases hs
    cases choice <;> grind
  -- the hook runs: the request moves from the worker to the answered ones
  · rename_i r ok drain hw
    cases hs
    cases ok <;> grind
  · cases hs
    grind
  · cases hs
    grind
  -- the drain takes the next request, or has emptied the queue
  · split at hs <;> cases hs <;> grind
  · cases hs

theorem Inv.step (h : s.Inv) {e : Event ρ} (hs : s.step e = some s') : s'.Inv := by
  have hcounts := h.counts
  have hlate := h.late
  have hwakes := h.wakes
  cases e with
  | loop choice => exact (h.loop hs).1
  | enter =>
    cases hs
    split_ifs with hc
    · exact h
    · exact { h with late := fun hc' => absurd hc' hc }
  | count | uncount =>
    obtain ⟨h0, ⟨⟩⟩ := Option.ite_none_left_eq_some.mp hs
    exact { h with counts := by grind, late := by grind, wakes := by grind }
  | send r =>
    obtain ⟨h0, hs⟩ := Option.ite_none_left_eq_some.mp hs
    split_ifs at hs with hroom
    · cases hs
      refine
        { h with counts := by grind, once := fun r' => ?_, late := by grind, stops := fun hw => ?_ }
      · have := h.once r'
        grind
      -- the worker does not stop before the flag is set, and no call is here after it
      · have := hlate (h.drains (hw ▸ rfl))
        omega
    · cases hs
      exact { h with counts := by grind, late := by grind }
  | flush =>
    cases hs
    exact { h with wakes := by grind }
  | load =>
    obtain ⟨h0, hs⟩ := Option.ite_none_left_eq_some.mp hs
    split_ifs at hs with hz
    · cases hs
      exact { h with wakes := by grind }
    · cases hs
      exact { h with wakes := fun hz' => absurd hz' hz }
  -- whoever takes the pulse looks at the counter again
  | wake | expire | pulse | hand =>
    obtain ⟨h0, ⟨⟩⟩ := Option.ite_none_left_eq_some.mp hs
    exact { h with late := by grind, wakes := by grind }
  | close =>
    obtain ⟨hfree, ⟨⟩⟩ := Option.ite_none_right_eq_some.mp hs
    exact { h with late := by grind, drains := fun _ => rfl }

theorem Inv.answered_le (h : s.Inv) (r : ρ) :
    (s.ups.map Prod.fst).count r ≤ s.accepted.count r := by
  have := h.once r
  omega

theorem Inv.answered (h : s.Inv) (hqueue : s.queue = []) (hnone : s.worker.holds = []) (r : ρ) :
    (s.ups.map Prod.fst).count r = s.accepted.count r := by
  simpa [hqueue, hnone] using h.once r

theorem Inv.settled (h : s.Inv) (hzero : s.inflight = 0) (r : ρ) :
    (s.ups.map Prod.fst).count r = s.accepted.count r := by
  have hcounts := h.counts
  refine h.answered (List.length_eq_zero_iff.mp (by omega)) ?_ r
  cases hw : s.worker <;> grind

theorem Inv.work (h : s.Inv) (hc : s.closed = true) {e : Event ρ} (hs : s.step e = some s') :
    s'.closed = true ∧ s'.work + (if e.isLoop then 1 else 0) ≤ s.work := by
  have hlate := h.late hc
  cases e with
  | loop choice =>
    obtain ⟨-, hc', hw⟩ := h.loop hs
    exact ⟨hc' ▸ hc, hw⟩
  | _ => grind [State.step]

theorem inv_of_run (hrun : run step (newSpiller queueDepth) es = some s) : s.Inv :=
  run_invariant (fun _ _ _ h _ hs => h.step hs) (Inv.new queueDepth) along_true hrun

theorem counters_fit (hrun : run step (newSpiller queueDepth) es = some s) :
    0 ≤ s.inflight ∧ s.inflight ≤ es.length ∧ s.spilled + s.dropped + s.putErrors ≤ es.length := by
  have hcounts := (inv_of_run hrun).counts
  have hle := run_counters hrun
  simp only [newSpiller] at hle
  omega

/-- In every interleaving the hook of a request runs at most as often as `DemoteSegment` returned
true for it, and once `Close` has returned exactly as often; then `spilled` counts the hooks that
were told of success. -/
theorem spill_answered (hrun : run step (newSpiller queueDepth) es = some s) :
    (∀ r, (s.ups.map Prod.fst).count r ≤ s.accepted.count r) ∧
      (s.worker = .stopped → (∀ r, (s.ups.map Prod.fst).count r = s.accepted.count r) ∧
        s.spilled = s.ups.countP (·.2) ∧ s.inflight = 0) := by
  have h := inv_of_run hrun
  refine ⟨h.answered_le, fun hw => ⟨h.answered (h.stops hw) (hw ▸ rfl), ?_, ?_⟩⟩
  · have := h.spills
    rwa [hw] at this
  · have := h.counts
    have := h.late (h.drains (hw ▸ rfl))
    grind [h.stops hw]

/-- Two calls for a queue of one, a `Flush` that waits for the one that got in, and `Close`. -/
def overflow : List (Event ℕ) :=
  [.enter, .count, .enter, .count, .send 7, .flush, .load, .send 8, .uncount,
    .loop true, .loop true,
    .loop true, .loop true, .loop true, .wake, .load, .close, .loop false, .loop true]

theorem spill_answered_overflow :
    ∃ s, run step (newSpiller 1) overflow = some s ∧ s.worker = .stopped ∧
    (s.ups.map Prod.fst).count 7 = s.accepted.count 7 :=
  ⟨_, rfl, rfl,
    ((spill_answered (show run step (newSpiller 1) overflow = some _ from rfl)).2 rfl).1 7⟩

/-- A `Flush` that reads zero finds every accepted request answered, and while the counter is at
zero no `Flush` waits without a pulse in the channel or on its way. -/
theorem flush_settled (hrun : run step (newSpiller queueDepth) es = some s)
    (hzero : s.inflight = 0) :
    (∀ r, (s.ups.map Prod.fst).count r = s.accepted.count r) ∧
      (0 < s.parked → s.idle = true ∨ s.Waking) := by
  have h := inv_of_run hrun
  exact ⟨h.settled hzero, h.wakes hzero⟩

theorem flush_settled_overflow :
    ∃ s, run step (newSpiller 1) (overflow.take 13) = some s ∧ s.parked = 1 ∧
    (s.idle = true ∨ s.Waking) :=
  ⟨_, rfl, rfl,
    (flush_settled (show run step (newSpiller 1) (overflow.take 13) = some _ from rfl) rfl).2
    (by decide)⟩

/-- Once `Close` has cancelled, the worker is never stuck before it stops, and it takes at most
`work` steps whatever the other threads do: `Close` returns. -/
theorem close_returns (hrun : run step (newSpiller queueDepth) es = some s) (hc : s.closed = true)
    {fs : List (Event ρ)} (hrest : run step s fs = some s') :
    s'.work + fs.countP Event.isLoop ≤ s.work ∧
      (s'.worker ≠ .stopped → ∃ choice, (s'.step (.loop choice)).isSome) := by
  have h := inv_of_run hrun
  clear hrun
  induction fs generalizing s with
  | nil =>
    cases hrest
    refine ⟨Nat.le_refl _, fun hw => ⟨false, ?_⟩⟩
    unfold State.step State.loop
    grind
  | cons e fs ih =>
    obtain ⟨s₁, hs, hrest⟩ := Option.bind_eq_some_iff.mp hrest
    obtain ⟨hc₁, hw₁⟩ := h.work hc hs
    obtain ⟨hle, hgo⟩ := ih hc₁ hrest (h.step hs)
    refine ⟨?_, hgo⟩
    rw [List.countP_cons]
    omega

theorem close_returns_overflow : ∃ s s', run step (newSpiller 1) (overflow.take 17) = some s ∧
    run step s (overflow.drop 17) = some s' ∧ s'.work + 2 ≤ s.work :=
  ⟨_, _, rfl, rfl,
    (close_returns (show run step (newSpiller 1) (overflow.take 17) = some _ from rfl) rfl
    (show run step _ (overflow.drop 17) = some _ from rfl)).1⟩

end State

end KVStash.Tiered.Spiller
