/- GID: KVStash/Foundation/Threads
   digest: Programs over atomic actions and the pools of threads that interleave them. -/

import KVStash.Foundation.Run
import Mathlib.Data.List.Basic

set_option autoImplicit false

namespace KVStash.Foundation.Threads

open Foundation.Run Option List

/-- A program: it stops with a value, or takes one atomic action and goes on
with the response. -/
inductive Prog (A : Type) (R : A → Type) (α : Type) : Type
  | ret (x : α)
  | act (a : A) (k : R a → Prog A R α)

namespace Prog

variable {A : Type} {R : A → Type} {α β γ : Type}

def bind : Prog A R α → (α → Prog A R β) → Prog A R β
  | .ret x, f => f x
  | .act a k, f => .act a (fun r => (k r).bind f)

instance : Monad (Prog A R) where
  pure := .ret
  bind := .bind

/-- Take one action and return its response. -/
def perform (a : A) : Prog A R (R a) := .act a .ret

/-- The action a program takes next. -/
def head : Prog A R α → Option A
  | .ret _ => none
  | .act a _ => some a

/-- The program can take an action of `T` before it takes one of `B`. -/
def Pending (T B : A → Prop) : Prog A R α → Prop
  | .ret _ => False
  | .act a k => T a ∨ (¬ B a ∧ ∃ r, (k r).Pending T B)

/-- Every action the program can take satisfies `P`. -/
def Every (P : A → Prop) : Prog A R α → Prop
  | .ret _ => True
  | .act a k => P a ∧ ∀ r, (k r).Every P

/-- Every action the program can take, with what follows it, satisfies `P`. -/
def Always (P : (a : A) → (R a → Prog A R α) → Prop) : Prog A R α → Prop
  | .ret _ => True
  | .act a k => P a k ∧ ∀ r, (k r).Always P

/-- No run of the program takes an action of `T`, as long as responses are `allowed`. -/
def Avoids (T : A → Prop) (allowed : (a : A) → R a → Prop) : Prog A R α → Prop
  | .ret _ => True
  | .act a k => ¬ T a ∧ ∀ r, allowed a r → (k r).Avoids T allowed

@[simp] theorem pure_eq (x : α) : (pure x : Prog A R α) = .ret x := rfl

@[simp] theorem ret_bind (x : α) (f : α → Prog A R β) : (Prog.ret x : Prog A R α) >>= f = f x := rfl

@[simp] theorem act_bind (a : A) (k : R a → Prog A R α) (f : α → Prog A R β) :
    (Prog.act a k) >>= f = .act a (fun r => k r >>= f) := rfl

@[simp] theorem perform_bind (a : A) (f : R a → Prog A R β) :
    (perform a : Prog A R (R a)) >>= f = .act a f := rfl

theorem bind_assoc (p : Prog A R α) (f : α → Prog A R β) (g : β → Prog A R γ) :
    (p >>= f) >>= g = p >>= fun x => f x >>= g := by
  induction p with
  | ret x => rfl
  | act a k ih => exact congrArg (Prog.act a) (funext ih)

theorem bind_ret (p : Prog A R α) : p >>= .ret = p := by
  induction p with
  | ret x => rfl
  | act a k ih => exact congrArg (Prog.act a) (funext ih)

variable {P : A → Prop} {p : Prog A R α} {T Q : A → Prop}

@[simp] theorem every_ret (x : α) : (Prog.ret x : Prog A R α).Every P ↔ True :=
  Iff.rfl

@[simp] theorem every_act (a : A) (k : R a → Prog A R α) :
    (Prog.act a k).Every P ↔ P a ∧ ∀ r, (k r).Every P :=
  Iff.rfl

theorem every_bind {f : α → Prog A R β}
    (hp : p.Every P) (hf : ∀ x, (f x).Every P) : (p >>= f).Every P := by
  induction p with
  | ret x => exact hf x
  | act a k ih => exact ⟨hp.1, fun r => ih r (hp.2 r)⟩

theorem every_of_forall (h : ∀ a, P a) (p : Prog A R α) : p.Every P := by
  induction p with
  | ret x => trivial
  | act a k ih => exact ⟨h a, ih⟩

theorem always_of_forall {P : (a : A) → (R a → Prog A R α) → Prop} (h : ∀ a k, P a k)
    (p : Prog A R α) : p.Always P := by
  induction p with
  | ret x => trivial
  | act a k ih => exact ⟨h a k, ih⟩

theorem Every.mono (hp : p.Every P) (h : ∀ a, P a → Q a) : p.Every Q := by
  induction p with
  | ret x => trivial
  | act a k ih => exact ⟨h a hp.1, fun r => ih r (hp.2 r)⟩

theorem avoids_bind {allowed : (a : A) → R a → Prop}
    {f : α → Prog A R β} (hp : p.Every fun a => ¬ T a) (hf : ∀ x, (f x).Avoids T allowed) :
    (p >>= f).Avoids T allowed := by
  induction p with
  | ret x => exact hf x
  | act a k ih => exact ⟨hp.1, fun r _ => ih r (hp.2 r)⟩

theorem Every.avoids (hp : p.Every fun a => ¬ T a)
    (allowed : (a : A) → R a → Prop) : p.Avoids T allowed := by
  induction p with
  | ret x => trivial
  | act a k ih => exact ⟨hp.1, fun r _ => ih r (hp.2 r)⟩

end Prog

/-- A shared state with atomic actions, and the calls that run programs over it.
The second argument of an action resolves what the code leaves open. -/
structure System (σ A : Type) (R : A → Type) (C Ans : Type) where
  exec : (a : A) → ℕ → σ → Option (R a × σ)
  answer : A → Option Ans
  body : C → Prog A R Unit

/-- One call in progress: what it has answered so far and what it still has to do. -/
structure Thread (A : Type) (R : A → Type) (C Ans : Type) where
  call : C
  answer : Option Ans
  rest : Prog A R Unit

/-- The shared state and every call made so far. -/
structure Pool (σ A : Type) (R : A → Type) (C Ans : Type) where
  shared : σ
  threads : List (Thread A R C Ans)

/-- A call arrives, or the thread at an index takes its next action. -/
inductive Event (C : Type)
  | spawn (c : C)
  | step (i env : ℕ)

variable {σ A : Type} {R : A → Type} {C Ans : Type} {i env n : ℕ}

namespace System

variable (S : System σ A R C Ans)

def fresh (c : C) : Thread A R C Ans := { call := c, answer := none, rest := S.body c }

/-- One thread takes its next action; `none` when it has finished or is blocked. -/
def advance (t : Thread A R C Ans) (env : ℕ) (s : σ) : Option (Thread A R C Ans × σ) :=
  match t.rest with
  | .ret _ => none
  | .act a k =>
    (S.exec a env s).map fun rs =>
      ({ t with answer := t.answer <|> S.answer a, rest := k rs.1 }, rs.2)

def next (p : Pool σ A R C Ans) : Event C → Option (Pool σ A R C Ans)
  | .spawn c => some { p with threads := p.threads ++ [S.fresh c] }
  | .step i env =>
    (p.threads[i]?).bind fun t =>
      (S.advance t env p.shared).map fun ts =>
        { shared := ts.2, threads := p.threads.set i ts.1 }

variable {S} {p p' : Pool σ A R C Ans}

@[simp] theorem next_spawn (c : C) :
    S.next p (.spawn c) = some { p with threads := p.threads ++ [S.fresh c] } := rfl

theorem next_step (h : S.next p (.step i env) = some p') :
    ∃ t a k r s, p.threads[i]? = some t ∧ t.rest = .act a k ∧
      S.exec a env p.shared = some (r, s) ∧
      p' = { shared := s, threads := (p.threads.set i
        { t with answer := t.answer <|> S.answer a, rest := k r }) } := by
  change ((p.threads[i]?).bind _) = some p' at h
  obtain ⟨t, ht, h⟩ := bind_eq_some_iff.mp h
  obtain ⟨ts, hts, rfl⟩ := map_eq_some_iff.mp h
  unfold advance at hts
  split at hts
  · simp at hts
  · next a k hr =>
    obtain ⟨rs, hrs, rfl⟩ := map_eq_some_iff.mp hts
    exact ⟨t, a, k, rs.1, rs.2, ht, hr, hrs, rfl⟩

end System

/-- What the programs of the calls always do, the threads of a pool always do. -/
def Pool.Obeys (P : C → (a : A) → (R a → Prog A R Unit) → Prop) (p : Pool σ A R C Ans) : Prop :=
  ∀ t ∈ p.threads, t.rest.Always (P t.call)

variable {S : System σ A R C Ans} {p p' : Pool σ A R C Ans}
  {P : C → (a : A) → (R a → Prog A R Unit) → Prop}
   {e : Event C}

theorem Pool.Obeys.next (hbody : ∀ c, (S.body c).Always (P c))
    (h : p.Obeys P) (he : S.next p e = some p') : p'.Obeys P := by
  cases e with
  | spawn c =>
    rw [System.next_spawn, some.injEq] at he
    subst he
    intro t ht
    rcases mem_append.mp ht with ht | ht
    · exact h t ht
    · rw [mem_singleton.mp ht]
      exact hbody c
  | step i env =>
    obtain ⟨t, a, k, r, s, ht, hr, -, rfl⟩ := System.next_step he
    intro t' ht'
    rcases mem_or_eq_of_mem_set ht' with ht' | rfl
    · exact h t' ht'
    · have := h t (mem_of_getElem? ht)
      rw [hr] at this
      exact this.2 r

theorem Pool.Obeys.run {s : σ} (hbody : ∀ c, (S.body c).Always (P c))
    {es : List (Event C)} (hr : run S.next { shared := s, threads := [] } es = some p) :
    p.Obeys P := by
  apply run_invariant (C := fun _ _ => True) (fun _ _ _ h _ he => h.next hbody he) _ along_true hr
  intro t ht
  cases ht

theorem Pool.Obeys.at (h : p.Obeys P) {t : Thread A R C Ans} (ht : p.threads[i]? = some t) {a : A}
    {k : R a → Prog A R Unit} (hr : t.rest = .act a k) : P t.call a k := by
  have := h t (mem_of_getElem? ht)
  rw [hr] at this
  exact this.1

/-- No thread has anything left to do. -/
def Quiet (p : Pool σ A R C Ans) : Prop := ∀ t ∈ p.threads, ∃ u, t.rest = .ret u

theorem Prog.head_eq_none_iff {α : Type} {c : Prog A R α} : c.head = none ↔ ∃ x, c = .ret x := by
  cases c with
  | ret x => exact ⟨fun _ => ⟨x, rfl⟩, fun _ => rfl⟩
  | act a k =>
    constructor
    · intro h
      cases h
    · rintro ⟨_, h⟩
      cases h

instance (p : Pool σ A R C Ans) : Decidable (Quiet p) :=
  decidable_of_iff (∀ t ∈ p.threads, t.rest.head.isNone = true) <| by
    simp only [isNone_iff_eq_none, Prog.head_eq_none_iff]
    rfl

def Pool.start (s : σ) : Pool σ A R C Ans := { shared := s, threads := [] }

/-- The thread at an index is about to take an action. -/
def Pool.AtAction (p : Pool σ A R C Ans) (i : ℕ) (a : A) : Prop :=
  ∃ t k, p.threads[i]? = some t ∧ t.rest = .act a k

/-- The action an event takes, if it takes one. -/
def Pool.action (p : Pool σ A R C Ans) : Event C → Option A
  | .spawn _ => none
  | .step i _ => (p.threads[i]?).bind fun t => t.rest.head

theorem Pool.action_step_eq_some {a : A} : p.action (.step i env) = some a ↔ p.AtAction i a := by
  constructor
  · intro h
    obtain ⟨t, ht, hh⟩ := bind_eq_some_iff.mp h
    cases hr : t.rest with
    | ret x =>
      rw [hr] at hh
      cases hh
    | act b k =>
      rw [hr] at hh
      cases hh
      exact ⟨t, k, ht, hr⟩
  · rintro ⟨t, k, ht, hr⟩
    apply bind_eq_some_iff.mpr
    exact ⟨t, ht, by rw [hr]; rfl⟩

theorem System.next_answer {a : Ans} (he : S.next p e = some p')
    (h : (p.threads[i]?).bind Thread.answer = some a) :
    (p'.threads[i]?).bind Thread.answer = some a := by
  obtain ⟨t, ht, ha⟩ := Option.bind_eq_some_iff.mp h
  have hlt := (List.getElem?_eq_some_iff.mp ht).1
  apply Option.bind_eq_some_iff.mpr
  cases e with
  | spawn c =>
    rw [System.next_spawn, Option.some.injEq] at he
    subst he
    exact ⟨t, by rw [List.getElem?_append_left hlt, ht], ha⟩
  | step j env =>
    obtain ⟨u, x, f, r, s, hu, -, -, rfl⟩ := System.next_step he
    by_cases hij : j = i
    · subst hij
      rw [ht, Option.some.injEq] at hu
      subst hu
      refine ⟨_, List.getElem?_set_self hlt, ?_⟩
      change (t.answer <|> _) = some a
      rw [ha]
      rfl
    · exact ⟨t, by rw [List.getElem?_set_ne hij, ht], ha⟩

/-- The thread at an index is at some stage, and what it answered is as told. -/
def Pool.Follows (p : Pool σ A R C Ans) (i : ℕ) (stage : Prog A R Unit → Prop)
    (told : Ans → Prop) : Prop :=
  ∃ t, p.threads[i]? = some t ∧ (∀ a, t.answer = some a → told a) ∧ stage t.rest

theorem Pool.follows_spawn {c : C}
    {stage : Prog A R Unit → Prop} {told : Ans → Prop} (h : stage (S.body c)) :
    Pool.Follows { p with threads := p.threads ++ [S.fresh c] } p.threads.length stage told := by
  refine ⟨S.fresh c, getElem?_concat_length, fun a ha => ?_, h⟩
  cases ha

/-- To follow one thread through an event: what it was told and where it stands outlive
the events of the others, and its own step leads to the next stage. -/
theorem Pool.Follows.next {T : Pool σ A R C Ans → Prog A R Unit → Prop}
    {U : Pool σ A R C Ans → Ans → Prop} (h : p.Follows i (T p) (U p)) (he : S.next p e = some p')
    (htold : ∀ t a, p.threads[i]? = some t → t.answer = some a → U p a → U p' a)
    (hother : ∀ t, (∀ env, e ≠ .step i env) → p.threads[i]? = some t → T p t.rest → T p' t.rest)
    (hown : ∀ env x f r, e = .step i env → p.AtAction i x → T p (.act x f) →
      S.exec x env p.shared = some (r, p'.shared) →
      T p' (f r) ∧ ∀ a, S.answer x = some a → U p' a) :
    p'.Follows i (T p') (U p') := by
  obtain ⟨t, ht, hans, hst⟩ := h
  have hlt := (List.getElem?_eq_some_iff.mp ht).1
  have hkept : ∀ a, t.answer = some a → U p' a := fun a ha => htold t a ht ha (hans a ha)
  cases e with
  | spawn c =>
    have hst' := hother t (by rintro _ ⟨⟩) ht hst
    rw [System.next_spawn, Option.some.injEq] at he
    subst he
    refine ⟨t, ?_, hkept, hst'⟩
    rw [List.getElem?_append_left hlt, ht]
  | step j env =>
    obtain ⟨u, x, f, r, s, hu, hr, hx, hp⟩ := System.next_step he
    have hshared : p'.shared = s := by rw [hp]
    by_cases hij : j = i
    · subst hij
      rw [ht, Option.some.injEq] at hu
      subst hu
      obtain ⟨hnext, htell⟩ := hown env x f r rfl ⟨t, f, ht, hr⟩ (hr ▸ hst) (hshared ▸ hx)
      refine ⟨{ t with answer := t.answer <|> S.answer x, rest := f r }, ?_, fun a ha => ?_, hnext⟩
      · rw [hp, List.getElem?_set_self hlt]
      dsimp only at ha
      cases hta : t.answer with
      | some b =>
        rw [hta] at ha
        cases ha
        exact hkept a hta
      | none =>
        rw [hta] at ha
        exact htell a ha
    · refine ⟨t, ?_, hkept, hother t ?_ ht hst⟩
      · rw [hp, List.getElem?_set_ne hij, ht]
      · rintro env' ⟨⟩
        exact hij rfl

/-- The calls from an index on take no action of `T` of theirs, and answered by none, as
long as responses are `allowed`. -/
def System.Careful (S : System σ A R C Ans) (T : C → A → Prop) (allowed : (a : A) → R a → Prop)
    (n : ℕ) (p : Pool σ A R C Ans) : Prop :=
  ∀ j t, n ≤ j → p.threads[j]? = some t → t.rest.Avoids (T t.call) allowed ∧
    ∀ b, t.answer = some b → ∃ a, S.answer a = some b ∧ ¬ T t.call a

theorem System.careful_length {T : C → A → Prop}
    {allowed : (a : A) → R a → Prop} (p : Pool σ A R C Ans) :
    S.Careful T allowed p.threads.length p := by
  intro j t hj ht
  exact absurd (List.getElem?_eq_some_iff.mp ht).1 (Nat.not_lt.mpr hj)

theorem System.Careful.next {T : C → A → Prop} {allowed : (a : A) → R a → Prop}
    (h : S.Careful T allowed n p) (hbody : ∀ c, (S.body c).Avoids (T c) allowed)
    (he : S.next p e = some p')
    (hresp : ∀ j env x r, e = .step j env → p.AtAction j x →
      S.exec x env p.shared = some (r, p'.shared) → allowed x r) :
    S.Careful T allowed n p' := by
  intro j t hj ht
  cases e with
  | spawn c =>
    rw [System.next_spawn, some.injEq] at he
    subst he
    by_cases hlt : j < p.threads.length
    · apply h j t hj
      rwa [getElem?_append_left hlt] at ht
    rw [getElem?_append_right (Nat.not_lt.mp hlt)] at ht
    have ht' := mem_singleton.mp (mem_of_getElem? ht)
    subst ht'
    refine ⟨hbody c, fun b hb => ?_⟩
    cases hb
  | step i env =>
    obtain ⟨u, x, f, r, s, hu, hr, hx, rfl⟩ := System.next_step he
    by_cases hij : i = j
    · subst hij
      have hlt := (List.getElem?_eq_some_iff.mp hu).1
      rw [getElem?_set_self hlt, some.injEq] at ht
      subst ht
      obtain ⟨hav, hans⟩ := h i u hj hu
      rw [hr] at hav
      refine ⟨hav.2 r (hresp i env x r rfl ⟨u, f, hu, hr⟩ hx), fun b hb => ?_⟩
      dsimp only at hb
      cases hua : u.answer with
      | some b' =>
        rw [hua] at hb
        cases hb
        exact hans b hua
      | none =>
        rw [hua] at hb
        exact ⟨x, hb, hav.1⟩
    · apply h j t hj
      rwa [getElem?_set_ne hij] at ht

variable {σ A : Type} {R : A → Type} {C Ans : Type}

/-- Among threads that change the state within `rely`, each answer of the program is as told
in the state in which it is given. -/
def Assured (S : System σ A R C Ans) (rely : σ → σ → Prop) (told : Ans → σ → Prop) :
    Prog A R Unit → σ → Prop
  | .ret _, _ => True
  | .act a k, s => ∀ s₁, rely s s₁ → (∀ x, S.answer a = some x → told x s₁) ∧
      ∀ env r s₂, S.exec a env s₁ = some (r, s₂) → rely s₁ s₂ → Assured S rely told (k r) s₂

variable {S : System σ A R C Ans} {rely : σ → σ → Prop} {told : Ans → σ → Prop}

theorem Assured.of_stable {J : σ → Prop} (hj : ∀ s s', rely s s' → J s → J s')
    (htold : ∀ x s, J s → told x s) (c : Prog A R Unit) {s : σ} (h : J s) :
    Assured S rely told c s := by
  induction c generalizing s with
  | ret u => trivial
  | act a k ih =>
    intro s₁ hs₁
    have h₁ := hj s s₁ hs₁ h
    exact ⟨fun x _ => htold x s₁ h₁, fun env r s₂ _ hs₂ => ih r (hj s₁ s₂ hs₂ h₁)⟩

theorem Assured.of_every {c : Prog A R Unit}
    (hc : c.Every fun a => ∀ x, S.answer a = some x → ∀ s, told x s) (s : σ) :
    Assured S rely told c s := by
  induction c generalizing s with
  | ret u => trivial
  | act a k ih =>
    intro s₁ _
    exact ⟨fun x hx => hc.1 x hx s₁, fun env r s₂ _ _ => ih r (hc.2 r) s₂⟩

/-- The thread at an index is assured of what it tells, and what it told holds. -/
def Pool.Assures (S : System σ A R C Ans) (rely : σ → σ → Prop) (told : Ans → σ → Prop) (i : ℕ)
    (q : Pool σ A R C Ans) : Prop :=
  q.Follows i (fun c => Assured S rely told c q.shared) fun a => told a q.shared

theorem Pool.Assures.next {q q' : Pool σ A R C Ans} {e : Event C}
    (hrefl : ∀ s, rely s s) (htrans : ∀ s s₁ s₂, rely s s₁ → rely s₁ s₂ → rely s s₂)
    (htold : ∀ a s s', rely s s' → told a s → told a s') (h : q.Assures S rely told i)
    (he : S.next q e = some q') (hr : rely q.shared q'.shared) : q'.Assures S rely told i := by
  apply Pool.Follows.next (T := fun q c => Assured S rely told c q.shared)
    (U := fun q a => told a q.shared) h he
  · intro t a _ _ ha
    exact htold a _ _ hr ha
  · intro t _ _ ht
    cases hc : t.rest with
    | ret u => trivial
    | act a k =>
      rw [hc] at ht
      intro s₁ hs₁
      exact ht s₁ (htrans _ _ _ hr hs₁)
  · intro env x f r _ _ hx hexec
    obtain ⟨hanswer, hrest⟩ := hx q.shared (hrefl _)
    exact ⟨hrest env r q'.shared hexec hr, fun a ha => htold a _ _ hr (hanswer a ha)⟩

end KVStash.Foundation.Threads
