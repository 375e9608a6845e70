/- GID: KVStash/Foundation/Sequential
   digest: Programs run one at a time: their replay from a list of choices, and inversion under a
     resource logic. -/

import KVStash.Foundation.Resource

set_option autoImplicit false

namespace KVStash.Foundation.Sequential

open Foundation.Run Foundation.Threads Foundation.Resource

variable {σ A : Type} {R : A → Type} {C Ans : Type} {α β : Type} {c : Prog A R α} {x y : α}

section Replay

variable (S : System σ A R C Ans)

/-- Run a program alone, with one choice for each of its actions: its value, what it
answered on the way and the state it leaves. -/
def replay : Prog A R α → List ℕ → σ → Option (α × List Ans × σ)
  | .ret x, [], s => some (x, [], s)
  | .ret _, _ :: _, _ => none
  | .act _ _, [], _ => none
  | .act a k, env :: envs, s =>
    (S.exec a env s).bind fun rs =>
      (replay (k rs.1) envs rs.2).map fun y => (y.1, (S.answer a).toList ++ y.2.1, y.2.2)

/-- Some choices lead the program from one state to another. -/
def Runs (c : Prog A R α) (s : σ) (answers : List Ans) (x : α) (s' : σ) : Prop :=
  ∃ envs, replay S c envs s = some (x, answers, s')

/-- One operation, run to its end, and the history it extends. -/
def turn {Op : Type} (code : Op → Prog A R Unit) (w : σ × List (Op × List Ans))
    (e : Op × List ℕ) : Option (σ × List (Op × List Ans)) :=
  (replay S (code e.1) e.2 w.1).map fun y => (y.2.2, w.2 ++ [(e.1, y.2.1)])

variable {S} {s s' : σ} {answers : List Ans}

theorem runs_ret (h : Runs S (.ret x) s answers y s') : y = x ∧ answers = [] ∧ s' = s := by
  obtain ⟨envs, h⟩ := h
  cases envs with
  | nil =>
    cases h
    exact ⟨rfl, rfl, rfl⟩
  | cons env envs => cases h

theorem runs_act {a : A} {k : R a → Prog A R α} (h : Runs S (.act a k) s answers y s') :
    ∃ env r s₁ rest, S.exec a env s = some (r, s₁) ∧ Runs S (k r) s₁ rest y s' ∧
      answers = (S.answer a).toList ++ rest := by
  obtain ⟨envs, h⟩ := h
  cases envs with
  | nil => cases h
  | cons env envs =>
    obtain ⟨⟨r, s₁⟩, hx, h⟩ := Option.bind_eq_some_iff.mp h
    obtain ⟨⟨z, rest, s₂⟩, hz, h⟩ := Option.map_eq_some_iff.mp h
    cases h
    exact ⟨env, r, s₁, rest, hx, ⟨envs, hz⟩, rfl⟩

theorem runs_bind {f : α → Prog A R β} {y : β} (h : Runs S (c >>= f) s answers y s') :
    ∃ x s₁ as₁ as₂, Runs S c s as₁ x s₁ ∧ Runs S (f x) s₁ as₂ y s' ∧ answers = as₁ ++ as₂ := by
  induction c generalizing s answers with
  | ret x => exact ⟨x, s, [], answers, ⟨[], rfl⟩, h, rfl⟩
  | act a k ih =>
    obtain ⟨env, r, s₁, rest, hx, hrest, rfl⟩ := runs_act h
    obtain ⟨x, s₂, as₁, as₂, ⟨envs, hc⟩, hf, rfl⟩ := ih r hrest
    refine ⟨x, s₂, (S.answer a).toList ++ as₁, as₂, ⟨env :: envs, ?_⟩, hf, by simp⟩
    simp only [replay, hx, Option.bind_some, hc, Option.map_some]

theorem turn_eq_some {Op : Type} {code : Op → Prog A R Unit} {w w' : σ × List (Op × List Ans)}
    {e : Op × List ℕ} (h : turn S code w e = some w') :
    ∃ answers, Runs S (code e.1) w.1 answers () w'.1 ∧ w'.2 = w.2 ++ [(e.1, answers)] := by
  obtain ⟨⟨u, answers, s'⟩, hy, rfl⟩ := Option.map_eq_some_iff.mp h
  exact ⟨answers, ⟨e.2, hy⟩, rfl⟩

end Replay

/-! ### Runs whose resources are accounted for -/

variable {M : Type} [AddCommMonoid M] {S : System σ A R C Ans} (L : Logic S M)

/-- A run of a program that keeps the invariant of the logic from what it owns. -/
def Safe (c : Prog A R α) (s : σ) (answers : List Ans) (x : α) (s' : σ) : Prop :=
  ∃ m Q, L.Triple c m Q ∧ L.inv s m ∧ Runs S c s answers x s'

variable {L} {s s' : σ} {answers : List Ans}

theorem Safe.runs (h : Safe L c s answers x s') : Runs S c s answers x s' := by
  obtain ⟨m, Q, -, -, hr⟩ := h
  exact hr

theorem Safe.ret (h : Safe L (.ret x) s answers y s') : y = x ∧ answers = [] ∧ s' = s :=
  runs_ret h.runs

variable (hg : ∀ a s, L.guard a s)

include hg

theorem Safe.act {a : A} {k : R a → Prog A R α} (h : Safe L (.act a k) s answers y s') :
    ∃ n env r s₁ rest, L.inv s n ∧ L.needs a n ∧ S.exec a env s = some (r, s₁) ∧
      Safe L (k r) s₁ rest y s' ∧ answers = (S.answer a).toList ++ rest := by
  obtain ⟨m, Q, ht, hi, hr⟩ := h
  obtain ⟨env, r, s₁, rest, hx, hrest, rfl⟩ := runs_act hr
  have hi₀ : L.inv s (m + 0) := by rwa [add_zero]
  obtain ⟨m', hi', ht'⟩ := ht.2 s 0 hi₀ (hg a s) env r s₁ hx
  rw [add_zero] at hi'
  exact ⟨m, env, r, s₁, rest, hi, ht.1, hx, ⟨m', Q, ht', hi', hrest⟩, rfl⟩

theorem Safe.ends {m : M} {Q : α → M → Prop} (ht : L.Triple c m Q)
    (hi : L.inv s m) (h : Runs S c s answers x s') : ∃ m', L.inv s' m' ∧ Q x m' := by
  induction c generalizing s m answers with
  | ret y =>
    obtain ⟨rfl, -, rfl⟩ := runs_ret h
    exact ⟨m, hi, ht⟩
  | act a k ih =>
    obtain ⟨env, r, s₁, rest, hx, hrest, -⟩ := runs_act h
    have hi₀ : L.inv s (m + 0) := by rwa [add_zero]
    obtain ⟨m', hi', ht'⟩ := ht.2 s 0 hi₀ (hg a s) env r s₁ hx
    rw [add_zero] at hi'
    exact ih r ht' hi' hrest

theorem Safe.bind {f : α → Prog A R β} {y : β} (h : Safe L (c >>= f) s answers y s') :
    ∃ x s₁ as₁ as₂, Safe L c s as₁ x s₁ ∧ Safe L (f x) s₁ as₂ y s' ∧ answers = as₁ ++ as₂ := by
  obtain ⟨m, Q, ht, hi, hr⟩ := h
  obtain ⟨x, s₁, as₁, as₂, hc, hf, rfl⟩ := runs_bind hr
  have htc : L.Triple c m fun x m' => L.Triple (f x) m' Q := Logic.Triple.of_bind ht
  obtain ⟨m', hi', ht'⟩ := Safe.ends hg htc hi hc
  exact ⟨x, s₁, as₁, as₂, ⟨m, _, htc, hi, hc⟩, ⟨m', Q, ht', hi', hf⟩, rfl⟩

theorem Safe.keeps {P : A → Prop} {J : σ → Prop} (h : Safe L c s answers x s') (hc : c.Every P)
    (hstep : ∀ a s n env r s', P a → L.inv s n → L.needs a n → S.exec a env s = some (r, s') →
      J s → J s') (hj : J s) : J s' := by
  induction c generalizing s answers with
  | ret y =>
    obtain ⟨-, -, rfl⟩ := h.ret
    exact hj
  | act a k ih =>
    obtain ⟨n, env, r, s₁, rest, hi, hn, hx, hrest, -⟩ := h.act hg
    exact ih r hrest (hc.2 r) (hstep a s n env r s₁ hc.1 hi hn hx hj)

end KVStash.Foundation.Sequential
