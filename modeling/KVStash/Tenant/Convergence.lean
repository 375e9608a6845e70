/- GID: KVStash/Tenant/Convergence
   digest: First touches, quota changes and reloads of a namespace lock by lock, and the limits they
     leave cached. -/

import KVStash.Foundation.Table
import KVStash.Tenant.Registry

set_option autoImplicit false

namespace KVStash.Tenant.Convergence

open Foundation Foundation.Run Option

/-! ### The calls, lock by lock -/

inductive Pc
  -- `domain` at its lookup, at the snapshot of the registry and at the publication
  | look
  | snapshot
  | publish (limits : Tier → Int64)
  -- `SetQuota` at its write
  | write (tier : Tier) (bytes : Int64)
  -- `reloadNS` at its lookup, or `Reload` at the copy of the map
  | peek
  -- `refreshLimits` at the lock, at the snapshot under it, and at the stores before the unlock
  | lock
  | read
  | store (limits : Tier → Int64)

/-- A registered namespace: its quotas, the limits that its usage domain caches once it exists, the
holder of `limitMu`, and the calls in progress by the thread that makes them. A call for another
namespace touches none of this but the lock, which it takes and releases. -/
structure State where
  quota : Tier → Int64
  cached : Option (Tier → Int64)
  limitMu : Option ℕ
  calls : Table ℕ Pc

namespace State

def new (quota : Tier → Int64) : State := ⟨quota, none, none, ∅⟩

inductive Event
  | domain (i : ℕ)
  | setQuota (i : ℕ) (tier : Tier) (bytes : Int64)
  | reload (i : ℕ)
  | step (i : ℕ)

def advance (s : State) (i : ℕ) : Pc → Option State
  | .look =>
    some { s with
      calls := if s.cached.isSome then s.calls.erase i else s.calls.insert i .snapshot }
  | .snapshot => some { s with calls := s.calls.insert i (.publish s.quota) }
  | .publish limits =>
    some (if s.cached.isSome then { s with calls := s.calls.erase i }
      else { s with cached := some limits, calls := s.calls.insert i .lock })
  | .write tier bytes =>
    some { s with
      quota := Function.update s.quota tier bytes
      calls := s.calls.insert i .peek }
  | .peek =>
    some { s with calls := if s.cached.isSome then s.calls.insert i .lock else s.calls.erase i }
  | .lock =>
    if s.limitMu.isSome then none
    else some { s with limitMu := some i, calls := s.calls.insert i .read }
  | .read => some { s with calls := s.calls.insert i (.store s.quota) }
  | .store limits =>
    some { s with cached := some limits, limitMu := none, calls := s.calls.erase i }

def begins (s : State) (i : ℕ) (pc : Pc) : Option State :=
  if (s.calls.lookup i).isSome then none else some { s with calls := s.calls.insert i pc }

def step (s : State) : Event → Option State
  | .domain i => s.begins i .look
  | .setQuota i tier bytes => s.begins i (.write tier bytes)
  | .reload i => s.begins i .peek
  | .step i => (s.calls.lookup i).bind (s.advance i)

/-! ### The refreshes that are still to come -/

/-- A call that is yet to read the quotas and store them. -/
def Owes (o : Option Pc) : Prop := o = some .peek ∨ o = some .lock ∨ o = some .read

def Pending (s : State) : Prop := ∃ i, Owes (s.calls.lookup i)

/-- A call at work on the cached limits has found the domain, and it holds the lock from its read
on. What it stores, and what is cached when nothing is being stored, are the quotas, or a refresh is
to come. -/
structure Inv (s : State) : Prop where
  lock : ∀ i, s.calls.lookup i = some .lock → s.cached.isSome
  read : ∀ i, s.calls.lookup i = some .read → s.cached.isSome ∧ s.limitMu = some i
  store : ∀ i l, s.calls.lookup i = some (.store l) → s.cached.isSome ∧ s.limitMu = some i
  stored : ∀ i l, s.calls.lookup i = some (.store l) → l = s.quota ∨ s.Pending
  settled : ∀ l, s.cached = some l → l = s.quota ∨ s.Pending ∨
    ∃ i l', s.calls.lookup i = some (.store l')

section Steps

variable {s s' : State} {i j : ℕ} {pc : Pc}

private theorem Pending.keep {o : Option Pc} (h : s.Pending)
    (hcalls : ∀ j, s'.calls.lookup j = if j = i then o else s.calls.lookup j)
    (howes : Owes (s.calls.lookup i) → Owes o) : s'.Pending := by
  obtain ⟨j, hj⟩ := h
  refine ⟨j, ?_⟩
  rw [hcalls]
  by_cases hji : j = i
  · rw [if_pos hji]
    exact howes (hji ▸ hj)
  · rw [if_neg hji]
    exact hj

private theorem Inv.frame {o : Option Pc} (h : s.Inv)
    (hcalls : ∀ j, s'.calls.lookup j = if j = i then o else s.calls.lookup j)
    (hquota : s'.quota = s.quota) (hcached : s'.cached = s.cached)
    (hmu : ∀ j, s.limitMu = some j → s'.limitMu = some j)
    (hold : ∀ l, s.calls.lookup i ≠ some (.store l)) (hnew : ∀ l, o ≠ some (.store l))
    (hlock : o = some .lock → s.cached.isSome)
    (hread : o = some .read → s.cached.isSome ∧ s'.limitMu = some i)
    (howes : Owes (s.calls.lookup i) → Owes o) : s'.Inv := by
  have hstore : ∀ j l, s'.calls.lookup j = some (.store l) ↔
      s.calls.lookup j = some (.store l) := by
    intro j l
    rw [hcalls]
    by_cases hji : j = i
    · rw [if_pos hji, hji]
      exact iff_of_false (hnew l) (hold l)
    · rw [if_neg hji]
  refine ⟨fun j hj => ?_, fun j hj => ?_, fun j l hj => ?_, fun j l hj => ?_, fun l hl => ?_⟩
  · rw [hcalls] at hj
    rw [hcached]
    split at hj
    · exact hlock hj
    · exact h.lock j hj
  · rw [hcalls] at hj
    rw [hcached]
    split at hj
    · rename_i hji
      exact hji ▸ hread hj
    · exact ⟨(h.read j hj).1, hmu j (h.read j hj).2⟩
  · rw [hstore] at hj
    rw [hcached]
    exact ⟨(h.store j l hj).1, hmu j (h.store j l hj).2⟩
  · rw [hstore] at hj
    rw [hquota]
    exact (h.stored j l hj).imp_right (·.keep hcalls howes)
  · rw [hcached] at hl
    simp only [hquota, hstore]
    exact (h.settled l hl).imp_right (·.imp_left (·.keep hcalls howes))

private theorem Inv.owing (h : s.Inv) (hcalls : s'.calls = s.calls.insert i pc)
    (hmu : s'.limitMu = s.limitMu) (hmade : s.cached.isSome → s'.cached.isSome)
    (hpc : pc = .peek ∨ pc = .lock ∧ s'.cached.isSome) : s'.Inv := by
  have hpending : s'.Pending := by
    refine ⟨i, ?_⟩
    rw [hcalls, AList.lookup_insert]
    rcases hpc with rfl | ⟨rfl, -⟩
    · exact .inl rfl
    · exact .inr (.inl rfl)
  have hother : ∀ j p, s'.calls.lookup j = some p → p = pc ∨ s.calls.lookup j = some p := by
    intro j p hj
    rw [hcalls] at hj
    exact (Table.lookup_of_insert hj).imp_left And.right
  refine ⟨fun j hj => ?_, fun j hj => ?_, fun j l hj => ?_, fun _ _ _ => .inr hpending,
    fun _ _ => .inr (.inl hpending)⟩
  · rcases hother j _ hj with rfl | hj
    · exact (hpc.resolve_left (by simp)).2
    · exact hmade (h.lock j hj)
  · rcases hother j _ hj with rfl | hj
    · simp at hpc
    · exact ⟨hmade (h.read j hj).1, hmu.trans (h.read j hj).2⟩
  · rcases hother j _ hj with rfl | hj
    · simp at hpc
    · exact ⟨hmade (h.store j l hj).1, hmu.trans (h.store j l hj).2⟩

private theorem Inv.read_step (h : s.Inv) (hi : s.calls.lookup i = some .read) :
    Inv { s with calls := s.calls.insert i (.store s.quota) } := by
  have hother : ∀ j p, (s.calls.insert i (.store s.quota)).lookup j = some p →
      j = i ∧ p = .store s.quota ∨ s.calls.lookup j = some p := fun _ _ => Table.lookup_of_insert
  have hstoring : ∃ j l, (s.calls.insert i (.store s.quota)).lookup j = some (.store l) :=
    ⟨i, s.quota, AList.lookup_insert _⟩
  refine ⟨fun j hj => ?_, fun j hj => ?_, fun j l hj => ?_, fun j l hj => ?_,
    fun l _ => .inr (.inr hstoring)⟩
  · exact h.lock j ((hother j _ hj).resolve_left (by simp))
  · exact h.read j ((hother j _ hj).resolve_left (by simp))
  · rcases hother j _ hj with ⟨rfl, -⟩ | hj
    · exact h.read j hi
    · exact h.store j l hj
  rcases hother j _ hj with ⟨-, heq⟩ | hj
  · exact .inl (Pc.store.inj heq)
  · -- the lock has one holder, and this call holds it
    have hji : j = i := some.inj ((h.store j l hj).2.symm.trans (h.read i hi).2)
    rw [hji, hi] at hj
    cases hj

private theorem Inv.store_step (h : s.Inv) {limits : Tier → Int64}
    (hi : s.calls.lookup i = some (.store limits)) :
    Inv { s with cached := some limits, limitMu := none, calls := s.calls.erase i } := by
  have hmu := (h.store i limits hi).2
  have hother : ∀ j p, (s.calls.erase i).lookup j = some p → j ≠ i ∧ s.calls.lookup j = some p := by
    intro j p hj
    rw [Table.lookup_erase_ite] at hj
    split at hj
    · cases hj
    · exact ⟨‹_›, hj⟩
  refine ⟨fun _ _ => rfl, fun j hj => ?_, fun j l hj => ?_, fun j l hj => ?_, fun l hl => ?_⟩
  · obtain ⟨hji, hj⟩ := hother j _ hj
    exact absurd (some.inj ((h.read j hj).2.symm.trans hmu)) hji
  · obtain ⟨hji, hj⟩ := hother j _ hj
    exact absurd (some.inj ((h.store j l hj).2.symm.trans hmu)) hji
  · obtain ⟨hji, hj⟩ := hother j _ hj
    exact absurd (some.inj ((h.store j l hj).2.symm.trans hmu)) hji
  · obtain rfl := some.inj hl
    refine (h.stored i limits hi).imp_right fun hp => .inl ?_
    refine hp.keep (s.calls.lookup_erase_ite i) fun ho => ?_
    rw [hi] at ho
    simp [Owes] at ho

private theorem Inv.absent (h : s.Inv) (hnone : ¬s.cached.isSome) :
    Inv { s with calls := s.calls.erase i } := by
  have hother : ∀ j p, (s.calls.erase i).lookup j = some p → s.calls.lookup j = some p :=
    fun _ _ hj => Table.lookup_of_erase hj
  refine ⟨fun j hj => h.lock j (hother j _ hj), fun j hj => h.read j (hother j _ hj),
    fun j l hj => h.store j l (hother j _ hj), fun j l hj => ?_, fun l hl => ?_⟩
  · exact absurd (h.store j l (hother j _ hj)).1 hnone
  · exact absurd (by rw [show s.cached = some l from hl]; rfl) hnone

theorem Inv.advance (h : s.Inv) (hi : s.calls.lookup i = some pc) (hs : s.advance i pc = some s') :
    s'.Inv := by
  cases pc with
  | look =>
    obtain rfl := some.inj hs
    split
    · exact h.frame (Table.lookup_erase_ite _ i) rfl rfl (fun _ hm => hm) (by simp [hi])
        (by simp) (by simp)
        (by simp) (by simp [hi, Owes])
    · exact h.frame (Table.lookup_insert_ite _ i _) rfl rfl (fun _ hm => hm) (by simp [hi])
        (by simp) (by simp)
        (by simp) (by simp [hi, Owes])
  | snapshot =>
    obtain rfl := some.inj hs
    exact h.frame (Table.lookup_insert_ite _ i _) rfl rfl (fun _ hm => hm) (by simp [hi])
      (by simp) (by simp)
      (by simp) (by simp [hi, Owes])
  | publish limits =>
    obtain rfl := some.inj hs
    split
    · exact h.frame (Table.lookup_erase_ite _ i) rfl rfl (fun _ hm => hm) (by simp [hi])
        (by simp) (by simp)
        (by simp) (by simp [hi, Owes])
    · exact h.owing rfl rfl (fun _ => rfl) (.inr ⟨rfl, rfl⟩)
  | write tier bytes =>
    obtain rfl := some.inj hs
    exact h.owing rfl rfl (fun hm => hm) (.inl rfl)
  | peek =>
    obtain rfl := some.inj hs
    split
    · rename_i hmade
      exact h.owing rfl rfl (fun hm => hm) (.inr ⟨rfl, hmade⟩)
    · rename_i hnone
      exact h.absent hnone
  | lock =>
    rw [State.advance] at hs
    split at hs
    · cases hs
    rename_i hfree
    rw [not_isSome_iff_eq_none] at hfree
    obtain rfl := some.inj hs
    exact h.frame (Table.lookup_insert_ite _ i _) rfl rfl
      (fun _ hm => by rw [hfree] at hm; cases hm) (by simp [hi])
      (by simp) (by simp) (fun _ => ⟨h.lock i hi, rfl⟩) fun _ => .inr (.inr rfl)
  | read =>
    obtain rfl := some.inj hs
    exact h.read_step hi
  | store limits =>
    obtain rfl := some.inj hs
    exact h.store_step hi

private theorem Inv.begins (h : s.Inv) (hs : s.begins i pc = some s') (hstore : ∀ l, pc ≠ .store l)
    (hlock : pc ≠ .lock) (hread : pc ≠ .read) : s'.Inv := by
  rw [State.begins] at hs
  split at hs
  · cases hs
  rename_i hnew
  rw [not_isSome_iff_eq_none] at hnew
  obtain rfl := some.inj hs
  exact h.frame (Table.lookup_insert_ite _ i _) rfl rfl (fun _ hm => hm) (by simp [hnew])
    (by simpa using hstore)
    (fun heq => absurd (some.inj heq) hlock) (fun heq => absurd (some.inj heq) hread)
    (by simp [hnew, Owes])

theorem Inv.step (h : s.Inv) {e : Event} (hs : s.step e = some s') : s'.Inv := by
  cases e with
  | step i =>
    obtain ⟨pc, hi, hs⟩ := bind_eq_some_iff.mp hs
    exact h.advance hi hs
  | _ => exact h.begins hs (by simp) (by simp) (by simp)

end Steps

/-- In every interleaving, when no call is in progress the limits that the usage domain of a
namespace caches are the quotas of the registry. -/
theorem cached_limits_converge (quota : Tier → Int64) {es : List Event} {s : State}
    (hrun : run step (new quota) es = some s) (hquiet : s.calls = ∅) {limits : Tier → Int64}
    (hl : s.cached = some limits) : limits = s.quota := by
  have hnew : (new quota).Inv := by
    refine ⟨?_, ?_, ?_, ?_, ?_⟩ <;> simp [new]
  have hinv : s.Inv := run_invariant (fun _ _ _ h _ hs => h.step hs) hnew along_true hrun
  have hidle : ∀ i, s.calls.lookup i = none := by
    intro i
    rw [hquiet, AList.lookup_empty]
  simpa [Pending, Owes, hidle] using hinv.settled limits hl

/-- A quota that changes between the snapshot of a first touch and its publication, and is notified
while there is no domain. -/
def firstTouchRace : List Event :=
  [.domain 0, .step 0, .step 0, .setQuota 1 .dram 20, .step 1, .step 1, .step 0, .step 0,
    .step 0, .step 0]

theorem cached_limits_converge_race :
    ∃ s limits, run step (new fun _ => 10) firstTouchRace = some s ∧ s.calls = ∅ ∧
      s.cached = some limits ∧
      limits = s.quota ∧ limits .dram = 20 := by
  refine ⟨_, _, rfl, rfl, rfl, ?_, rfl⟩
  exact cached_limits_converge (fun _ => 10)
    (show run step (new fun _ => 10) firstTouchRace = some _ from rfl) rfl rfl

end State

end KVStash.Tenant.Convergence
