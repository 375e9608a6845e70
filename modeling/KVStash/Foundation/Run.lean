/- GID: KVStash/Foundation/Run
   digest: Runs of a partial step function, conditions on each step taken and the invariant rule. -/

import Mathlib.Logic.Basic

set_option autoImplicit false

namespace KVStash.Foundation.Run

universe u v

variable {σ : Type u} {ι : Type v} (step : σ → ι → Option σ)

/-- Take the steps of a list in order; `none` when one of them is not enabled. -/
def run : σ → List ι → Option σ
  | s, [] => some s
  | s, e :: es => (step s e).bind (fun t => run t es)

/-- Each step is taken from a state in which the condition holds. -/
def Along (C : σ → ι → Prop) : σ → List ι → Prop
  | _, [] => True
  | s, e :: es => C s e ∧ ∀ t, step s e = some t → Along C t es

instance decidableAlong (C : σ → ι → Prop) [∀ s e, Decidable (C s e)] :
    (s : σ) → (es : List ι) → Decidable (Along step C s es)
  | _, [] => isTrue trivial
  | s, e :: es =>
    match hs : step s e with
    | none => decidable_of_iff (C s e) (by simp [Along, hs])
    | some t =>
      have := decidableAlong C t es
      decidable_of_iff (C s e ∧ Along step C t es) (by simp [Along, hs])

variable {step} {C : σ → ι → Prop} {s t : σ} {e : ι} {es fs : List ι} {D : σ → ι → Prop}

@[simp] theorem run_nil : run step s [] = some s := rfl

theorem run_cons : run step s (e :: es) = (step s e).bind (fun t => run step t es) := rfl

theorem run_append : run step s (es ++ fs) = (run step s es).bind (fun t => run step t fs) := by
  induction es generalizing s with
  | nil => rfl
  | cons e es ih =>
    rw [List.cons_append, run_cons, run_cons]
    cases step s e with
    | none => rfl
    | some u => exact ih

theorem run_cons_eq_some (h : run step s (e :: es) = some t) :
    ∃ u, step s e = some u ∧ run step u es = some t := by
  rw [run_cons] at h
  cases hs : step s e with
  | none => simp [hs] at h
  | some u =>
    rw [hs] at h
    exact ⟨u, rfl, h⟩

theorem run_append_eq_some (h : run step s (es ++ fs) = some t) :
    ∃ u, run step s es = some u ∧ run step u fs = some t := by
  rw [run_append] at h
  cases hs : run step s es with
  | none => simp [hs] at h
  | some u =>
    rw [hs] at h
    exact ⟨u, rfl, h⟩

theorem run_cons_of {u : σ} (hs : step s e = some t) (h : run step t es = some u) :
    run step s (e :: es) = some u := by
  rw [run_cons, hs, Option.bind_some]
  exact h

theorem run_append_of {u : σ} (hs : run step s es = some t) (h : run step t fs = some u) :
    run step s (es ++ fs) = some u := by
  rw [run_append, hs, Option.bind_some]
  exact h

theorem run_concat_of {u : σ} (h : run step s es = some t) (hu : step t e = some u) :
    run step s (es ++ [e]) = some u :=
  run_append_of h (run_cons_of hu run_nil)

/-- What every step that meets the condition preserves holds after every run
whose steps all meet it. -/
theorem run_invariant {I : σ → Prop} (hstep : ∀ s e t, I s → C s e → step s e = some t → I t)
    (h0 : I s) (hc : Along step C s es) (hr : run step s es = some t) : I t := by
  induction es generalizing s with
  | nil =>
    rw [run_nil, Option.some.injEq] at hr
    exact hr ▸ h0
  | cons e es ih =>
    obtain ⟨u, hs, hu⟩ := run_cons_eq_some hr
    obtain ⟨hce, hcs⟩ := hc
    exact ih (hstep s e u h0 hce hs) (hcs u hs) hu

theorem along_append (h : run step s es = some t) :
    Along step C s (es ++ fs) ↔ Along step C s es ∧ Along step C t fs := by
  induction es generalizing s with
  | nil =>
    rw [run_nil, Option.some.injEq] at h
    subst h
    simp [Along]
  | cons e es ih =>
    obtain ⟨u, hs, hu⟩ := run_cons_eq_some h
    simp only [List.cons_append, Along]
    constructor
    · rintro ⟨hc, hrest⟩
      obtain ⟨h1, h2⟩ := (ih hu).mp (hrest u hs)
      refine ⟨⟨hc, fun v hv => ?_⟩, h2⟩
      rw [hs, Option.some.injEq] at hv
      exact hv ▸ h1
    · rintro ⟨⟨hc, hrest⟩, h2⟩
      refine ⟨hc, fun v hv => ?_⟩
      rw [hs, Option.some.injEq] at hv
      exact hv ▸ (ih hu).mpr ⟨hrest u hs, h2⟩

theorem along_true : Along step (fun _ _ => True) s es := by
  induction es generalizing s with
  | nil => trivial
  | cons e es ih => exact ⟨trivial, fun _ _ => ih⟩

theorem Along.mono (h : Along step C s es) (hcd : ∀ s e, C s e → D s e) : Along step D s es := by
  induction es generalizing s with
  | nil => trivial
  | cons e es ih => exact ⟨hcd s e h.1, fun u hu => ih (h.2 u hu)⟩

/-- Along a run the condition holds throughout, or the run comes to a step that breaks it. -/
theorem along_or_break (h : run step s es = some t) : Along step C s es ∨
    ∃ es₁ e es₂ u, es = es₁ ++ e :: es₂ ∧ run step s es₁ = some u ∧ ¬ C u e := by
  induction es generalizing s with
  | nil => exact .inl trivial
  | cons e es ih =>
    obtain ⟨u, hs, hu⟩ := run_cons_eq_some h
    by_cases hc : C s e
    · rcases ih hu with h' | ⟨es₁, e', es₂, w, rfl, hw, hne⟩
      · left
        refine ⟨hc, fun v hv => ?_⟩
        rw [hs, Option.some.injEq] at hv
        exact hv ▸ h'
      · exact .inr ⟨e :: es₁, e', es₂, w, rfl, run_cons_of hs hw, hne⟩
    · exact .inr ⟨[], e, es, s, rfl, run_nil, hc⟩

end KVStash.Foundation.Run
