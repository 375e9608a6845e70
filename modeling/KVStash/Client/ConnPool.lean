/- GID: KVStash/Client/ConnPool
   digest: The connections of a client by lock and channel steps, and what Close leaves open. -/

import KVStash.Foundation.Run
import KVStash.Foundation.Table

set_option autoImplicit false

namespace KVStash.Client.ConnPool

open Foundation Foundation.Run List

/-! ### The calls -/

/-- Where a caller of `get` or `release` is. -/
inductive Pc
  -- `get` with a connection from the channel, at the closed flag
  | taken (c : ℕ)
  -- a borrowed connection
  | holds (c : ℕ)
  -- `release` past the closed flag: at the dial of a replacement, and at the send
  | redial
  | send (c : ℕ)
  deriving DecidableEq

def Pc.conn : Pc → Option ℕ
  | .taken c | .holds c | .send c => some c
  | .redial => none

inductive Phase
  | running
  | draining
  | returned
  deriving DecidableEq

/-- The channel with its capacity, the flag, the one run of the body of `Close`, the number of
connections dialed, those that are closed, and the callers by their thread. -/
structure State where
  cap : ℕ
  pool : List ℕ
  closed : Bool
  phase : Phase
  dialed : ℕ
  shut : List ℕ
  calls : Table ℕ Pc

namespace State

def new (streams : ℕ) : State := ⟨streams, range streams, false, .running, streams, [], ∅⟩

inductive Event
  | get (i : ℕ)
  | check (i : ℕ)
  -- a release, with whether its result leaves the stream in sync
  | release (i : ℕ) (clean : Bool)
  | redial (i : ℕ) (ok : Bool)
  | send (i : ℕ)
  | close
  | drain

def step (s : State) : Event → Option State
  | .get i =>
    match s.calls.lookup i, s.pool with
    | none, c :: pool => some { s with pool := pool, calls := s.calls.insert i (.taken c) }
    | _, _ => none
  | .check i =>
    match s.calls.lookup i with
    | some (.taken c) =>
      some (if s.closed then { s with shut := c :: s.shut, calls := s.calls.erase i }
        else { s with calls := s.calls.insert i (.holds c) })
    | _ => none
  | .release i clean =>
    match s.calls.lookup i with
    | some (.holds c) =>
      some (if s.closed then { s with shut := c :: s.shut, calls := s.calls.erase i }
        else if clean then { s with calls := s.calls.insert i (.send c) }
        else { s with shut := c :: s.shut, calls := s.calls.insert i .redial })
    | _ => none
  | .redial i ok =>
    match s.calls.lookup i with
    | some .redial =>
      some (if ok then { s with dialed := s.dialed + 1, calls := s.calls.insert i (.send s.dialed) }
        else { s with calls := s.calls.erase i })
    | _ => none
  | .send i =>
    match s.calls.lookup i with
    | some (.send c) =>
      if s.pool.length < s.cap then some { s with pool := s.pool ++ [c], calls := s.calls.erase i }
      else none
    | _ => none
  | .close =>
      if s.phase = .running then some { s with closed := true, phase := .draining } else none
  | .drain =>
    if s.phase = .draining then
      match s.pool with
      | c :: pool => some { s with pool := pool, shut := c :: s.shut }
      | [] => some { s with phase := .returned }
    else none

/-- No connection is sent to the channel after the last look of `Close` at it. -/
def Timely (s : State) : Event → Prop
  | .send _ => s.phase ≠ .returned
  | _ => True

instance (s : State) : (e : Event) → Decidable (s.Timely e)
  | .send _ => inferInstanceAs (Decidable (s.phase ≠ .returned))
  | .get _ | .check _ | .release .. | .redial .. | .close | .drain => isTrue trivial

/-! ### Where the connections are -/

/-- A connection is closed, in the channel or with a caller. -/
def Has (s : State) (c : ℕ) : Prop :=
  c ∈ s.shut ∨ c ∈ s.pool ∨ ∃ i pc, s.calls.lookup i = some pc ∧ pc.conn = some c

/-- Every dialed connection is somewhere, and the channel is empty once `Close` has returned. -/
structure Inv (s : State) : Prop where
  has : ∀ c, c < s.dialed → s.Has c
  empty : s.phase = .returned → s.pool = []

section Steps

variable {s s' : State} {i c : ℕ} {pc : Pc}

private theorem has_insert (hcalls : s'.calls = s.calls.insert i pc) (h : pc.conn = some c) :
    s'.Has c :=
  .inr (.inr ⟨i, pc, hcalls ▸ AList.lookup_insert _, h⟩)

/-- A step of one caller keeps what the others have; what it takes from the channel and what it had
itself are to be shown. -/
private theorem Has.step (h : s.Has c) (hshut : c ∈ s.shut → c ∈ s'.shut)
    (hpool : c ∈ s.pool → s'.Has c) (hcalls : ∀ j, j ≠ i → s'.calls.lookup j = s.calls.lookup j)
    (hi : ∀ pc, s.calls.lookup i = some pc → pc.conn = some c → s'.Has c) : s'.Has c := by
  rcases h with hc | hc | ⟨j, q, hj, hq⟩
  · exact .inl (hshut hc)
  · exact hpool hc
  · by_cases hji : j = i
    · exact hi q (hji ▸ hj) hq
    · exact .inr (.inr ⟨j, q, (hcalls j hji).trans hj, hq⟩)

private theorem Inv.hands (h : s.Inv) (hi : s.calls.lookup i = some pc)
    (hshut : ∀ c, c ∈ s.shut → c ∈ s'.shut) (hpool : s'.pool = s.pool) (hphase : s'.phase = s.phase)
    (hdialed : s'.dialed = s.dialed) (hcalls : ∀ j, j ≠ i → s'.calls.lookup j = s.calls.lookup j)
    (hconn : ∀ c, pc.conn = some c → s'.Has c) : s'.Inv := by
  refine ⟨fun c hc => ?_, fun hret => ?_⟩
  · rw [hdialed] at hc
    refine (h.has c hc).step (hshut c) (fun hp => .inr (.inl (hpool ▸ hp))) hcalls fun q hq hqc =>
      ?_
    obtain rfl := Option.some.inj (hi.symm.trans hq)
    exact hconn c hqc
  · rw [hpool]
    exact h.empty (hphase ▸ hret)

theorem Inv.step (h : s.Inv) {e : Event} (ht : s.Timely e) (hs : s.step e = some s') : s'.Inv := by
  cases e with
  | get i =>
    rw [State.step] at hs
    split at hs
    · rename_i c pool hi hp
      cases hs
      refine ⟨fun c' hc' => ?_, fun hret => ?_⟩
      · refine (h.has c' hc').step (fun hm => hm) (fun hm => ?_) (fun _ => AList.lookup_insert_ne)
          fun pc hpc => ?_
        · rw [hp] at hm
          rcases mem_cons.mp hm with rfl | hm
          · exact has_insert rfl rfl
          · exact .inr (.inl hm)
        · rw [hi] at hpc
          cases hpc
      · have := h.empty hret
        rw [hp] at this
        cases this
    · cases hs
  | check i =>
    rw [State.step] at hs
    split at hs
    · rename_i c hi
      cases hs
      split
      · refine h.hands hi (fun _ => mem_cons_of_mem _) rfl rfl rfl (fun _ => AList.lookup_erase_ne)
          fun c' hc' => ?_
        exact .inl (Option.some.inj hc' ▸ mem_cons_self)
      · exact h.hands hi (fun _ hm => hm) rfl rfl rfl (fun _ => AList.lookup_insert_ne)
          fun c' hc' => has_insert rfl hc'
    · cases hs
  | release i clean =>
    rw [State.step] at hs
    split at hs
    · rename_i c hi
      cases hs
      split
      · refine h.hands hi (fun _ => mem_cons_of_mem _) rfl rfl rfl (fun _ => AList.lookup_erase_ne)
          fun c' hc' => ?_
        exact .inl (Option.some.inj hc' ▸ mem_cons_self)
      split
      · exact h.hands hi (fun _ hm => hm) rfl rfl rfl (fun _ => AList.lookup_insert_ne)
          fun c' hc' => has_insert rfl hc'
      · refine h.hands hi (fun _ => mem_cons_of_mem _) rfl rfl rfl (fun _ => AList.lookup_insert_ne)
          fun c' hc' => ?_
        exact .inl (Option.some.inj hc' ▸ mem_cons_self)
    · cases hs
  | redial i ok =>
    rw [State.step] at hs
    split at hs
    · rename_i hi
      cases hs
      split
      · refine ⟨fun c hc => ?_, h.empty⟩
        by_cases hnew : c = s.dialed
        · exact has_insert rfl (congrArg some hnew.symm)
        have hc : c < s.dialed + 1 := hc
        refine (h.has c (by omega)).step (fun hm => hm) (fun hm => .inr (.inl hm))
          (fun _ => AList.lookup_insert_ne) ?_
        intro pc hpc hconn
        obtain rfl := Option.some.inj (hi.symm.trans hpc)
        cases hconn
      · exact h.hands hi (fun _ hm => hm) rfl rfl rfl (fun _ => AList.lookup_erase_ne) fun c' hc' =>
          nomatch hc'
    · cases hs
  | send i =>
    rw [State.step] at hs
    split at hs
    · rename_i c hi
      split at hs
      · cases hs
        refine ⟨fun c' hc' => ?_, fun hret => absurd hret ht⟩
        refine (h.has c' hc').step (fun hm => hm) (fun hm => .inr (.inl (mem_append_left _ hm)))
          (fun _ => AList.lookup_erase_ne) fun pc hpc hconn => ?_
        obtain rfl := Option.some.inj (hi.symm.trans hpc)
        exact .inr (.inl (Option.some.inj hconn ▸ mem_append_right _ mem_cons_self))
      · cases hs
    · cases hs
  | close =>
    rw [State.step] at hs
    split at hs
    · cases hs
      exact ⟨h.has, fun hret => nomatch hret⟩
    · cases hs
  | drain =>
    rw [State.step] at hs
    split at hs
    · rename_i hphase
      split at hs
      · rename_i c pool hp
        cases hs
        refine ⟨fun c' hc' => ?_, fun hret => nomatch hphase.symm.trans hret⟩
        rcases h.has c' hc' with hm | hm | hm
        · exact .inl (mem_cons_of_mem _ hm)
        · rw [hp] at hm
          rcases mem_cons.mp hm with rfl | hm
          · exact .inl mem_cons_self
          · exact .inr (.inl hm)
        · exact .inr (.inr hm)
      · rename_i hp
        cases hs
        exact ⟨h.has, fun _ => hp⟩
    · cases hs

end Steps

/-- In every interleaving in which no connection is sent to the channel after `Close` has emptied
it: once `Close` has returned and nobody has a connection, all are closed. -/
theorem close_leaks_nothing (streams : ℕ) {es : List Event} {s : State}
    (hrun : run step (new streams) es = some s) (ht : Along step Timely (new streams) es)
    (hclose : s.phase = .returned) (hquiet : s.calls = ∅) : ∀ c, c < s.dialed → c ∈ s.shut := by
  have hnew : (new streams).Inv :=
    ⟨fun c hc => .inr (.inl (mem_range.mpr hc)), fun hret => nomatch hret⟩
  have hinv : s.Inv := run_invariant (fun _ _ _ h ht hs => h.step ht hs) hnew ht hrun
  intro c hc
  rcases hinv.has c hc with hc | hc | ⟨i, pc, hi, -⟩
  · exact hc
  · rw [hinv.empty hclose] at hc
    cases hc
  · rw [hquiet, AList.lookup_empty] at hi
    cases hi

/-- A release that redials while the channel is being emptied. -/
def lateRedial : List Event :=
  [.get 0, .check 0, .release 0 false, .close, .drain, .redial 0 true, .send 0, .drain, .drain]

theorem close_leaks_nothing_redial :
    ∃ s, run step (new 2) lateRedial = some s ∧ s.phase = .returned ∧ s.calls = ∅ ∧ s.dialed = 3 ∧
      ∀ c, c < s.dialed → c ∈ s.shut :=
  ⟨_, rfl, rfl, rfl, rfl, close_leaks_nothing 2
    (show run step (new 2) lateRedial = some _ from rfl) (by decide) rfl rfl⟩

/-- A release that read the flag before `Close` and sends its connection after it. -/
theorem close_leaks_late_release :
    ∃ s, run step (new 1) [.get 0, .check 0, .release 0 true, .close, .drain, .send 0] = some s ∧
      s.phase = .returned ∧ s.calls = ∅ ∧ s.dialed = 1 ∧ s.shut = [] ∧ s.pool = [0] :=
  ⟨_, rfl, rfl, rfl, rfl, rfl, rfl⟩

end State

end KVStash.Client.ConnPool
