/- GID: KVStash/Foundation/Resource
   digest: A resource logic for thread pools: triples over programs and their adequacy for runs. -/

import KVStash.Foundation.Threads
import Mathlib.Algebra.BigOperators.Group.List.Basic

set_option autoImplicit false

namespace KVStash.Foundation.Resource

open Foundation.Run Foundation.Threads List

/-! ### Sums of the resources the threads own -/

section Sums

variable {M : Type} [AddCommMonoid M]

private theorem sum_split {ms : List M} {i : ℕ} {m : M} (h : ms[i]? = some m) :
    ∃ f, ms.sum = m + f ∧ ∀ m', (ms.set i m').sum = m' + f := by
  induction ms generalizing i with
  | nil => simp at h
  | cons n ms ih =>
    cases i with
    | zero =>
      simp only [getElem?_cons_zero, Option.some.injEq] at h
      exact ⟨ms.sum, by rw [sum_cons, h], fun m' => by rw [set_cons_zero, sum_cons]⟩
    | succ i =>
      rw [getElem?_cons_succ] at h
      obtain ⟨f, hf, hs⟩ := ih h
      refine ⟨n + f, ?_, fun m' => ?_⟩
      · rw [sum_cons, hf, add_left_comm]
      · rw [set_cons_succ, sum_cons, hs, add_left_comm]

private theorem sum_split_pair {ms : List M} {i j : ℕ} {m n : M} (hi : ms[i]? = some m)
    (hj : ms[j]? = some n) (hij : i ≠ j) : ∃ f, ms.sum = m + (n + f) := by
  obtain ⟨f, hf, hs⟩ := sum_split hi
  have hj' : (ms.set i 0)[j]? = some n := by rw [getElem?_set_ne hij, hj]
  obtain ⟨g, hg, -⟩ := sum_split hj'
  refine ⟨g, ?_⟩
  rw [hf, ← hg, hs 0, zero_add]

end Sums

section Pairing

variable {α β : Type} {P : α → β → Prop}

variable {bs : List β} {as : List α}

private theorem forall₂_getElem? (h : List.Forall₂ P as bs) {i : ℕ}
    {b : β} (hb : bs[i]? = some b) : ∃ a, as[i]? = some a ∧ P a b := by
  induction h generalizing i with
  | nil => simp at hb
  | cons hab _ ih =>
    cases i with
    | zero =>
      simp only [getElem?_cons_zero, Option.some.injEq] at hb
      exact ⟨_, by simp, hb ▸ hab⟩
    | succ i =>
      rw [getElem?_cons_succ] at hb
      obtain ⟨a, ha, hp⟩ := ih hb
      exact ⟨a, by rw [getElem?_cons_succ, ha], hp⟩

private theorem forall₂_set (h : List.Forall₂ P as bs) {i : ℕ} {a : α}
    {b : β} (hab : P a b) : List.Forall₂ P (as.set i a) (bs.set i b) := by
  induction h generalizing i with
  | nil => exact .nil
  | cons hxy hrest ih =>
    cases i with
    | zero => exact .cons hab hrest
    | succ i => exact .cons hxy ih

private theorem forall₂_concat (h : List.Forall₂ P as bs) {a : α}
    {b : β} (hab : P a b) : List.Forall₂ P (as ++ [a]) (bs ++ [b]) := by
  induction h with
  | nil => exact .cons hab .nil
  | cons hxy _ ih => exact .cons hxy ih

private theorem sum_eq_zero_of_forall₂ {M : Type} [AddCommMonoid M] {Q : M → β → Prop} {ms : List M}
    (h : List.Forall₂ Q ms bs) (hz : ∀ b ∈ bs, ∀ m, Q m b → m = 0) : ms.sum = 0 := by
  induction h with
  | nil => rfl
  | cons hmb _ ih =>
    rw [sum_cons, hz _ mem_cons_self _ hmb, zero_add]
    exact ih fun b hb => hz b (mem_cons_of_mem _ hb)

end Pairing

variable {σ A : Type} {R : A → Type} {C Ans : Type} {α β : Type} {M : Type} [AddCommMonoid M]

/-- A logic for a system: each thread owns a resource, `inv` relates the shared
state to the sum of what is owned, `guard` is what steps are assumed to meet and
`needs` is what a thread has to own when it takes an action. -/
structure Logic (S : System σ A R C Ans) (M : Type) [AddCommMonoid M] where
  inv : σ → M → Prop
  guard : A → σ → Prop
  needs : A → M → Prop
  needs_add : ∀ {a m} n, needs a m → needs a (m + n)

namespace Logic

variable {S : System σ A R C Ans} (L : Logic S M)

/-- From the resource `m` the program keeps the invariant at every step, whatever
the other threads own, and ends with a value and a resource that satisfy `Q`. -/
def Triple : Prog A R α → M → (α → M → Prop) → Prop
  | .ret x, m, Q => Q x m
  | .act a k, m, Q => L.needs a m ∧ ∀ s f, L.inv s (m + f) → L.guard a s →
      ∀ env r s', S.exec a env s = some (r, s') →
        ∃ m', L.inv s' (m' + f) ∧ Triple (k r) m' Q

variable {L}

variable {p : Prog A R α} {Q : α → M → Prop} {f : α → Prog A R β} {m l n : M}

theorem Triple.mono {Q' : α → M → Prop} (h : L.Triple p m Q)
    (hq : ∀ x m, Q x m → Q' x m) : L.Triple p m Q' := by
  induction p generalizing m with
  | ret x => exact hq x m h
  | act a k ih =>
    refine ⟨h.1, fun s f hi hg env r s' he => ?_⟩
    obtain ⟨m', hi', ht⟩ := h.2 s f hi hg env r s' he
    exact ⟨m', hi', ih r ht⟩

theorem Triple.bind {Q : β → M → Prop}
    (h : L.Triple p m (fun x m' => L.Triple (f x) m' Q)) : L.Triple (p >>= f) m Q := by
  induction p generalizing m with
  | ret x => exact h
  | act a k ih =>
    refine ⟨h.1, fun s f hi hg env r s' he => ?_⟩
    obtain ⟨m', hi', ht⟩ := h.2 s f hi hg env r s' he
    exact ⟨m', hi', ih r ht⟩

theorem Triple.of_bind {Q : β → M → Prop}
    (h : L.Triple (p >>= f) m Q) : L.Triple p m (fun x m' => L.Triple (f x) m' Q) := by
  induction p generalizing m with
  | ret x => exact h
  | act a k ih =>
    refine ⟨h.1, fun s f hi hg env r s' he => ?_⟩
    obtain ⟨m', hi', ht⟩ := h.2 s f hi hg env r s' he
    exact ⟨m', hi', ih r ht⟩

theorem Triple.frame (h : L.Triple p m Q) :
    L.Triple p (m + n) (fun x m' => ∃ l, m' = l + n ∧ Q x l) := by
  induction p generalizing m with
  | ret x => exact ⟨m, rfl, h⟩
  | act a k ih =>
    refine ⟨L.needs_add n h.1, fun s f hi hg env r s' he => ?_⟩
    rw [add_assoc] at hi
    obtain ⟨m', hi', ht⟩ := h.2 s (n + f) hi hg env r s' he
    exact ⟨m' + n, by rwa [add_assoc], ih r ht⟩

theorem Triple.seq {Q' : β → M → Prop} (h : L.Triple p m Q)
    (hf : ∀ x m', Q x m' → L.Triple (f x) (m' + l) Q') : L.Triple (p >>= f) (m + l) Q' := by
  apply Triple.bind
  apply (h.frame (n := l)).mono
  rintro x _ ⟨m', rfl, hq⟩
  exact hf x m' hq

theorem Triple.drop {a : A} {k : R a → Prog A R α}
    (h : L.Triple (.act a k) m Q) (hl : ∀ s f, L.inv s (m + l + f) → L.inv s (m + f)) :
    L.Triple (.act a k) (m + l) Q :=
  ⟨L.needs_add l h.1, fun s f hi => h.2 s f (hl s f hi)⟩

variable (L)

/-- The pool is as the logic promises: every thread owns a resource from which the
rest of it keeps the invariant and gives everything back. -/
def Ok (p : Pool σ A R C Ans) : Prop :=
  ∃ ms : List M, List.Forall₂ (fun m t => L.Triple t.rest m (fun _ m' => m' = 0)) ms p.threads ∧
    L.inv p.shared ms.sum

/-- The condition a run has to meet: calls are among the ones considered and every
action is taken under its guard. -/
def Meets (calls : C → Prop) (p : Pool σ A R C Ans) : Event C → Prop
  | .spawn c => calls c
  | .step i _ => ∀ a, p.AtAction i a → L.guard a p.shared

variable {L} {p p' : Pool σ A R C Ans}

theorem Ok.start {s : σ} (h : L.inv s 0) : L.Ok (Pool.start s) :=
  ⟨[], .nil, h⟩

theorem Ok.owns (h : L.Ok p) {i : ℕ} {a : A} (ha : p.AtAction i a) :
    ∃ m f, L.inv p.shared (m + f) ∧ L.needs a m := by
  obtain ⟨ms, hms, hi⟩ := h
  obtain ⟨t, k, ht, hr⟩ := ha
  obtain ⟨m, hm, htri⟩ := forall₂_getElem? hms ht
  obtain ⟨f, hf, -⟩ := sum_split hm
  rw [hr] at htri
  exact ⟨m, f, hf ▸ hi, htri.1⟩

theorem Ok.owns_pair (h : L.Ok p) {i j : ℕ} {a b : A} (ha : p.AtAction i a) (hb : p.AtAction j b)
    (hij : i ≠ j) : ∃ m n f, L.inv p.shared (m + (n + f)) ∧ L.needs a m ∧ L.needs b n := by
  obtain ⟨ms, hms, hi⟩ := h
  obtain ⟨t, k, ht, hr⟩ := ha
  obtain ⟨u, l, hu, hl⟩ := hb
  obtain ⟨m, hm, htri⟩ := forall₂_getElem? hms ht
  obtain ⟨n, hn, huri⟩ := forall₂_getElem? hms hu
  obtain ⟨f, hf⟩ := sum_split_pair hm hn hij
  rw [hr] at htri
  rw [hl] at huri
  exact ⟨m, n, f, hf ▸ hi, htri.1, huri.1⟩

theorem Ok.inv (h : L.Ok p) : ∃ m, L.inv p.shared m := by
  obtain ⟨ms, -, hi⟩ := h
  exact ⟨_, hi⟩

theorem Ok.next (h : L.Ok p) {calls : C → Prop}
    (hcalls : ∀ c, calls c → L.Triple (S.body c) 0 (fun _ m => m = 0)) {e : Event C}
    (hm : L.Meets calls p e) (he : S.next p e = some p') : L.Ok p' := by
  obtain ⟨ms, hms, hi⟩ := h
  cases e with
  | spawn c =>
    rw [System.next_spawn, Option.some.injEq] at he
    subst he
    refine ⟨ms ++ [0], forall₂_concat hms (hcalls c hm), ?_⟩
    rwa [sum_append, sum_singleton, add_zero]
  | step i env =>
    obtain ⟨t, a, k, r, s, ht, hr, hx, rfl⟩ := System.next_step he
    obtain ⟨m, hmi, htri⟩ := forall₂_getElem? hms ht
    obtain ⟨f, hf, hset⟩ := sum_split hmi
    rw [hr] at htri
    rw [hf] at hi
    obtain ⟨m', hi', ht'⟩ := htri.2 p.shared f hi (hm a ⟨t, k, ht, hr⟩) env r s hx
    refine ⟨ms.set i m', forall₂_set hms ht', ?_⟩
    rw [hset]
    exact hi'

/-- Adequacy: along a run whose steps meet the guards, the pool stays as promised. -/
theorem Ok.run {calls : C → Prop}
    (hcalls : ∀ c, calls c → L.Triple (S.body c) 0 (fun _ m => m = 0)) {es : List (Event C)}
    (h : L.Ok p) (hm : Along S.next (L.Meets calls) p es) (hr : run S.next p es = some p') :
    L.Ok p' :=
  run_invariant (fun _ _ _ h hm he => Ok.next h hcalls hm he) h hm hr

theorem Ok.quiet (h : L.Ok p) (hq : Quiet p) : L.inv p.shared 0 := by
  obtain ⟨ms, hms, hi⟩ := h
  have hz : ms.sum = 0 := by
    apply sum_eq_zero_of_forall₂ hms
    intro t ht m htri
    obtain ⟨u, hu⟩ := hq t ht
    rw [hu] at htri
    exact htri
  rwa [hz] at hi

end Logic

end KVStash.Foundation.Resource
