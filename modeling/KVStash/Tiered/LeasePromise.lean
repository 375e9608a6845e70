/- GID: KVStash/Tiered/LeasePromise
   digest: A lease that a DRAM read or LEASE answered keeps the key resident, unless a removal
     passed its gate between lookup and lease. -/

import KVStash.Tiered.ReadGap

set_option autoImplicit false

namespace KVStash.Tiered.LeasePromise

open Protocol Dram Tiered Tiered.System Tiered.Logic Option
open Tiered.Node Tiered.Frames Foundation.Run Foundation.Threads
open Dram.Tier (BlockRef Cell Gate Key)

variable {p : Params} {k : Key} {env t j now i : ℕ} {c : Code Unit}

/-! ### The race of a lookup with a removal -/

/-- The program has looked a block up and has still to write its lease. -/
def Looking (r : BlockRef) (c : Code Unit) : Prop :=
  c.Pending (fun x => ∃ u, x = .dram (.extendLease r u)) (fun x => ∃ k', x = .dram (.get k'))

/-- The gate of a removal that the key's block passes. -/
def Passes (s : State) (k : Key) (g : Gate) (b : BlockRef) : Prop :=
  s.dram.index k = some b ∧ g.check (s.dram.cells b.id) s.dram.now = .ok

/-- Neither a forced DELETE of the key nor a RELEASE of its block. -/
def Unforced (k : Key) (s : State) : Act → Prop
  | .dram (.gate k' g) => k' = k → ∀ b, Passes s k g b → g ≠ .delete true
  | .dram (.releaseLease b) => ∀ r, s.dram.index k = some r → b.id ≠ r.id
  | _ => True

/-- No removal of the key passes its gate while the thread `i` is between its lookup and
its lease. -/
def Unraced (k : Key) (i : ℕ) (q : NodePool) : Act → Prop
  | .dram (.gate k' g) => k' = k → ∀ b, Passes q.shared k g b →
      ∀ t, q.threads[i]? = some t → ¬ Looking b t.rest
  | _ => True

/-- The steps under which a lease of the thread `i` is kept. -/
def Kept (k : Key) (i : ℕ) (q : NodePool) (e : Event Call) : Prop :=
  ∀ x ∈ q.action e, Unforced k q.shared x ∧ Unraced k i q x

/-! ### What a promise rests on -/

/-- Until `t` the block stays in the index, with its lock free and a lease. -/
def Promise (k : Key) (r : BlockRef) (t : ℕ) (s : State) : Prop :=
  s.dram.now < t → s.dram.index k = some r ∧ s.dram.locked k = false ∧
    t ≤ (s.dram.cells r.id).leaseUntil

theorem check_leased {g : Gate} {c : Cell} (hl : c.leased now = true)
    (hg : g.check c now = .ok) : g = .delete true := by
  cases g with
  | delete force =>
    cases force with
    | true => rfl
    | false =>
      unfold Gate.check Tier.canDelete at hg
      dsimp only at hg
      split at hg
      · cases hg
      · simp at hg
  | _ =>
    unfold Gate.check Cell.canEvict at hg
    dsimp only at hg
    rw [hl] at hg
    simp at hg

section Steps

variable {q : NodePool} {j env : ℕ} {x : Act} {r : x.Resp} {s' : State} {b : BlockRef}

private theorem remove_locked (hok : (logic p noAudit).Ok q)
    (hat : q.AtAction j (.dram (.remove k))) : q.shared.dram.locked k = true := by
  obtain ⟨m, ⟨hd, -⟩, b, hin⟩ := needs_of_ok hok hat
  exact (hd.locked k).mpr ⟨b, hin⟩

private theorem resident_step (hok : (logic p noAudit).Ok q) (hat : q.AtAction j x)
    (hx : exec p x env q.shared = some (r, s')) (hi : q.shared.dram.index k = some b)
    (hu : q.shared.dram.locked k = false)
    (hgate : ∀ g, x = .dram (.gate k g) → ¬ Passes q.shared k g b) :
    s'.dram.index k = some b ∧ s'.dram.locked k = false := by
  have hremove : x ≠ .dram (.remove k) := by
    rintro rfl
    rw [remove_locked hok hat] at hu
    cases hu
  constructor
  · rcases node_dram_index_cases k hx with h | ⟨o, l, y, -, -, hnone, -⟩ | ⟨rfl, -⟩
    · rw [h, hi]
    · rw [hi] at hnone
      cases hnone
    · exact absurd rfl hremove
  · rcases node_locked_cases k hx with h | ⟨g, b', rfl, hp⟩ | rfl
    · rw [h, hu]
    · have hb : b = b' := some.inj (hi.symm.trans hp.1)
      exact absurd (hb ▸ hp) (hgate g rfl)
    · exact absurd rfl hremove

theorem Promise.step (h : Promise k b t q.shared) (hok : (logic p noAudit).Ok q)
    (hat : q.AtAction j x) (hun : Unforced k q.shared x)
    (hx : exec p x env q.shared = some (r, s')) : Promise k b t s' := by
  intro hnow'
  obtain ⟨hi, hu, hl⟩ := h (lt_of_le_of_lt (node_now_le hx) hnow')
  obtain ⟨m, hm, -⟩ := hok.inv
  obtain ⟨⟨hlt, -⟩, -⟩ := hm.indexed k b hi
  have hleased : (q.shared.dram.cells b.id).leased q.shared.dram.now = true := by
    have := node_now_le hx
    unfold Cell.leased
    rw [decide_eq_true_eq]
    omega
  obtain ⟨hi', hu'⟩ := resident_step hok hat hx hi hu (by
    rintro g rfl hp
    exact hun rfl b hp (check_leased hleased hp.2))
  refine ⟨hi', hu', ?_⟩
  rcases node_lease_cases hx hlt with hle | ⟨b', rfl, hid⟩
  · exact le_trans hl hle
  · exact absurd hid (hun b hi)

end Steps

/-! ### The thread that asks for the lease -/

/-- The calls that answer a lease on a block in DRAM. -/
inductive Leases (k : Key) : Call → Prop
  | read : Leases k (.dramGetRef k)
  | lease (ttlMS : ℕ) : Leases k (.dramTouchLease k .leaseGrant ttlMS)

def Grants (t : ℕ) : Act → Prop
  | .answer a => a.lease = t
  | _ => True

/-- The block is looked up, and its lease still to be written. -/
inductive Looks (r : BlockRef) : Code Unit → Prop
  | acquire (f : Bool → Code Unit) (ht : Looks r (f true)) (hf : (f false).Every (Grants 0)) :
    Looks r (.act (.dram (.acquire r)) f)
  | now (f : ℕ → Code Unit) (h : ∀ n, Looks r (f n)) : Looks r (.act (.dram .now) f)
  | lease (t : ℕ) (f : Unit → Code Unit) (h : (f ()).Every (Grants t)) :
    Looks r (.act (.dram (.extendLease r t)) f)

theorem Looks.looking {b : BlockRef} (h : Looks b c) : Looking b c := by
  induction h with
  | acquire f ht hf ih =>
    refine .inr ⟨?_, true, ih⟩
    rintro ⟨k', h⟩
    cases h
  | now f h ih =>
    refine .inr ⟨?_, 0, ih 0⟩
    rintro ⟨k', h⟩
    cases h
  | lease t f h => exact .inl ⟨t, rfl⟩

/-- How far the call has come, with what it relies on. -/
inductive Stage (k : Key) (s : State) : Code Unit → Prop
  | start (f : Option BlockRef → Code Unit) (hn : (f none).Every (Grants 0))
    (hs : ∀ b, Looks b (f (some b))) : Stage k s (.act (.dram (.get k)) f)
  | looked (b : BlockRef) (c : Code Unit) (hl : Looks b c) (hi : s.dram.index k = some b)
    (hu : s.dram.locked k = false) : Stage k s c
  | promised (b : BlockRef) (t : ℕ) (c : Code Unit) (hc : c.Every (Grants t))
    (hp : Promise k b t s) : Stage k s c

private theorem promise_zero (b : BlockRef) (s : State) : Promise k b 0 s :=
  fun h => absurd h (Nat.not_lt_zero _)

private theorem getRef_looks (b : BlockRef) : Looks b (ReadGap.holdBlock p b >>= fun o =>
    match o with
    | none => answer (.of .notFound)
    | some h => answer ⟨.ok, h.data, h.lease⟩ >>= fun _ => Tier.release h.ref) := by
  apply Looks.acquire
  · apply Looks.now
    intro now
    apply Looks.lease
    refine ⟨trivial, fun _ => ⟨trivial, fun _ => ?_⟩⟩
    change (((if 0 < b.len then dram (.view b.offset b.len) else pure []) >>= _) >>= _).Every _
    split
    · exact ⟨trivial, fun data => ⟨rfl, fun _ => Footprint.release_every b trivial trivial⟩⟩
    · exact ⟨rfl, fun _ => Footprint.release_every b trivial trivial⟩
  · exact ⟨rfl, fun _ => trivial⟩

theorem Leases.stage {c : Call} (hc : Leases k c) (s : State) : Stage k s (body p c) := by
  cases hc with
  | read =>
    change Stage k s (System.dramGetRef p k)
    unfold System.dramGetRef
    rw [ReadGap.getRef_eq, Prog.bind_assoc]
    exact .start _ ⟨rfl, fun _ => trivial⟩ getRef_looks
  | lease ttlMS =>
    refine .start _ ⟨rfl, fun _ => trivial⟩ fun b => ?_
    refine .now _ fun now => .lease _ _ ?_
    exact ⟨trivial, fun _ => ⟨rfl, fun _ => trivial⟩⟩

/-! ### The run -/

section Run

variable {q q' : NodePool} {i : ℕ} {e : Event Call} {s' s : State}

/-- The thread at an index asks for a lease, and every lease it answered is a promise. -/
def Asking (k : Key) (i : ℕ) (q : NodePool) : Prop :=
  q.Follows i (Stage k q.shared) fun a => ∃ b, Promise k b a.lease q.shared

private theorem promise_made {b : BlockRef} {u : Unit}
    (hx : exec p (.dram (.extendLease b t)) env s = some (u, s'))
    (hb : s.dram.index k = some b) (hu : s.dram.locked k = false) : Promise k b t s' := by
  cases hx
  intro _
  refine ⟨hb, hu, ?_⟩
  change t ≤ (Function.update s.dram.cells b.id _ b.id).leaseUntil
  rw [Function.update_self]
  exact le_max_right _ _

private theorem kept_of {x : Act} (hk : Kept k i q (.step j env))
    (hat : q.AtAction j x) : Unforced k q.shared x ∧ Unraced k i q x :=
  hk x (Pool.action_step_eq_some.mpr hat)

private theorem Stage.other {x : Act} {r : x.Resp}
    {t : Thread Act Act.Resp Call Answer} (h : Stage k q.shared t.rest)
    (hok : (logic p noAudit).Ok q) (ht : q.threads[i]? = some t) (hat : q.AtAction j x)
    (hk : Unforced k q.shared x ∧ Unraced k i q x)
    (hx : exec p x env q.shared = some (r, s')) : Stage k s' t.rest := by
  generalize hc : t.rest = c at h
  cases h with
  | start f hn hs => exact .start f hn hs
  | looked b c hl hi hu =>
    obtain ⟨hi', hu'⟩ := resident_step hok hat hx hi hu (by
      rintro g rfl hp
      exact hk.2 rfl b hp t ht (hc ▸ hl.looking))
    exact .looked b c hl hi' hu'
  | promised b u c hg hp => exact .promised b u c hg (hp.step hok hat hk.1 hx)

private theorem Stage.own {x : Act} {r : x.Resp} {f : x.Resp → Code Unit} (h : Stage k q.shared c)
    (hc : c = .act x f) (hok : (logic p noAudit).Ok q) (hat : q.AtAction i x)
    (hk : Unforced k q.shared x) (hx : exec p x env q.shared = some (r, s')) :
    Stage k s' (f r) := by
  cases h with
  | start f' hn hs =>
    cases hc
    obtain ⟨hu, rfl, rfl⟩ := exec_get hx
    cases hd : q.shared.dram.index k with
    | none => exact .promised ⟨0, k, 0, 0, 0⟩ 0 _ hn (promise_zero _ _)
    | some b => exact .looked b _ (hs b) hd hu
  | looked b c hl hi hu =>
    have hres : (∀ g, x = .dram (.gate k g) → ¬ Passes q.shared k g b) →
        s'.dram.index k = some b ∧ s'.dram.locked k = false :=
      resident_step hok hat hx hi hu
    cases hl with
    | acquire g ht hf =>
      cases hc
      obtain ⟨hi', hu'⟩ := hres (by rintro g h; cases h)
      cases r with
      | true => exact .looked b _ ht hi' hu'
      | false => exact .promised b 0 _ hf (promise_zero _ _)
    | now g h =>
      cases hc
      obtain ⟨hi', hu'⟩ := hres (by rintro g h; cases h)
      exact .looked b _ (h r) hi' hu'
    | lease u g h =>
      cases hc
      exact .promised b u _ h (promise_made hx hi hu)
  | promised b u c hg hp =>
    subst hc
    exact .promised b u _ (hg.2 r) (hp.step hok hat hk hx)

private theorem Stage.answered {a : Answer} {f : Unit → Code Unit}
    (h : Stage k s c) (hc : c = .act (.answer a) f) : ∃ b, Promise k b a.lease s := by
  cases h with
  | start f' hn hs => cases hc
  | looked b c hl hi hu => cases hl <;> cases hc
  | promised b u c hg hp =>
    subst hc
    have hu : a.lease = u := hg.1
    exact ⟨b, hu ▸ hp⟩

theorem Asking.next (h : Asking k i q) (hok : (logic p noAudit).Ok q) (hk : Kept k i q e)
    (he : (system p).next q e = some q') : Asking k i q' := by
  apply Pool.Follows.next (T := fun q => Stage k q.shared)
    (U := fun (q : NodePool) (a : Answer) => ∃ b, Promise k b a.lease q.shared) h he
  · rintro t a - - ⟨b, hb⟩
    cases e with
    | spawn c =>
      cases he
      exact ⟨b, hb⟩
    | step j env =>
      obtain ⟨u, x, f, r, s, hu, hr, hx, rfl⟩ := System.next_step he
      have hat : q.AtAction j x := ⟨u, f, hu, hr⟩
      exact ⟨b, hb.step hok hat (kept_of hk hat).1 hx⟩
  · intro t _ ht hst
    cases e with
    | spawn c =>
      cases he
      exact hst
    | step j env =>
      obtain ⟨u, x, f, r, s, hu, hr, hx, rfl⟩ := System.next_step he
      have hat : q.AtAction j x := ⟨u, f, hu, hr⟩
      exact hst.other hok ht hat (kept_of hk hat) hx
  · rintro env x f r rfl hat hst hx
    have hkept := kept_of hk hat
    refine ⟨hst.own rfl hok hat hkept.1 hx, fun a ha => ?_⟩
    cases x with
    | answer a' =>
      cases ha
      obtain ⟨b, hb⟩ := hst.answered rfl
      have hp : Promise k b a.lease q'.shared :=
        hb.step hok hat hkept.1 (show exec p _ env _ = _ from hx)
      exact ⟨b, hp⟩
    | _ => cases ha

end Run

/-- A `GetRef` or LEASE of the DRAM tier starts in any reachable state. The lease it
answers keeps the key in the index until its end, in every run without a forced DELETE or
a RELEASE of the key in which no removal of the key passes its gate between the call's
lookup and the write of its lease. -/
theorem lease_promise {v : Recovery} (hv : v.Sound) {now : ℕ} {es₀ es : List (Event Call)}
    {q₀ q : NodePool} (h₀ : run (system p).next (Pool.start (v.start now)) es₀ = some q₀)
    {c : Call} (hc : Leases k c) (h : run (system p).next q₀ (.spawn c :: es) = some q)
    (hk : Along (system p).next (Kept k q₀.threads.length) q₀ (.spawn c :: es))
    {a : Answer} (ha : answerOf q q₀.threads.length = some a) (ht : q.shared.dram.now < a.lease) :
    q.shared.dram.index k ≠ none := by
  obtain ⟨q₁, hspawn, hrun⟩ := run_cons_eq_some h
  have hok₁ : (logic p noAudit).Ok q₁ :=
    (ok_of_run hv h₀).next (fun c hc => body_triple c hc) (noAudit_meets q₀ _) hspawn
  have hask : Asking k q₀.threads.length q₁ := by
    cases hspawn
    exact Pool.follows_spawn (hc.stage _)
  obtain ⟨-, t, hti, hans, -⟩ : (logic p noAudit).Ok q ∧ Asking k q₀.threads.length q := by
    apply run_invariant (I := fun q => (logic p noAudit).Ok q ∧ Asking k q₀.threads.length q) ?_
      ⟨hok₁, hask⟩ (hk.2 q₁ hspawn) hrun
    rintro q e q' ⟨hok, hask⟩ hc he
    exact ⟨hok.next (fun c hc => body_triple c hc) (noAudit_meets q e) he, hask.next hok hc he⟩
  unfold answerOf at ha
  rw [hti] at ha
  obtain ⟨b, hb⟩ := hans a ha
  rw [(hb ht).1]
  exact some_ne_none b

private def putOne : List (Event Call) :=
  .spawn (.dramPut ⟨0, 7⟩ [1] 11) :: take 0 [0, 1, 0, 0, 0, 0]

/-- A read gets its lease, and an eviction then finds the block leased. -/
private def readThenEvict : List (Event Call) :=
  take 1 [0, 0, 0, 0, 0, 0, 0, 0, 0] ++ .spawn (.evictOne ⟨0, 7⟩ true) :: take 2 [0]

/-- No gate is passed and no lease released. -/
private def quiet (s : State) : Act → Bool
  | .dram (.gate k g) =>
    (s.dram.index k).all fun b => decide (g.check (s.dram.cells b.id) s.dram.now ≠ .ok)
  | .dram (.releaseLease _) => false
  | _ => true

private theorem kept_of_quiet {q : NodePool} {e : Event Call}
    (h : ∀ x ∈ q.action e, quiet q.shared x = true) : Kept k i q e := by
  have hgate : ∀ {g b}, quiet q.shared (.dram (.gate k g)) = true → ¬ Passes q.shared k g b := by
    intro g b hq hp
    have := all_eq_true _ _ |>.mp hq b hp.1
    exact of_decide_eq_true this hp.2
  intro x hx
  have hq := h x hx
  constructor
  · unfold Unforced
    split
    · rintro rfl b hp
      exact absurd hp (hgate hq)
    · cases hq
    · trivial
  · unfold Unraced
    split
    · rintro rfl b hp
      exact absurd hp (hgate hq)
    · trivial

/-- An eviction after the lease leaves the key where it is. -/
theorem lease_promise_read : ∃ q₀ q a,
    after leasing putOne = some q₀ ∧
      run (system leasing).next q₀ (.spawn (.dramGetRef ⟨0, 7⟩) :: readThenEvict) = some q ∧
      answerOf q 1 = some a ∧ a.status = .ok ∧ q.shared.dram.now < a.lease ∧
      q.shared.dram.index ⟨0, 7⟩ ≠ none := by
  have hrun : ∃ q₀ ∈ after leasing putOne,
      ∃ q ∈ run (system leasing).next q₀ (.spawn (.dramGetRef ⟨0, 7⟩) :: readThenEvict),
        q₀.threads.length = 1 ∧
        Along (system leasing).next (fun q e => (q.action e).all (quiet q.shared) = true) q₀
          (.spawn (.dramGetRef ⟨0, 7⟩) :: readThenEvict) ∧
        ∃ a ∈ answerOf q 1, a.status = .ok ∧ q.shared.dram.now < a.lease := by
    decide +kernel
  obtain ⟨q₀, h₀, q, h, hlen, hquiet, a, ha, hst, hlease⟩ := hrun
  refine ⟨q₀, q, a, h₀, h, ha, hst, hlease, ?_⟩
  refine lease_promise Recovery.empty_sound h₀ .read h ?_ (by rw [hlen, ha]) hlease
  exact hquiet.mono fun q e hq => kept_of_quiet fun x hx => (all_eq_true _ _).mp hq x hx

/-- A read looks the block up; an eviction passes its gate; the read acquires the block,
leases it and answers; the eviction takes the block out. -/
private def evictBetween : List (Event Call) :=
  take 1 [0] ++ .spawn (.evictOne ⟨0, 7⟩ false) :: take 2 [0] ++
    take 1 [0, 0, 0, 0, 0, 0, 0] ++ take 2 [0, 0, 0]

theorem lease_promise_broken : ∃ q₀ q a,
    after leasing putOne = some q₀ ∧
      run (system leasing).next q₀ (.spawn (.dramGetRef ⟨0, 7⟩) :: evictBetween) = some q ∧
      answerOf q 1 = some a ∧ a.status = .ok ∧ q.shared.dram.now < a.lease ∧
      q.shared.dram.index ⟨0, 7⟩ = none := by
  have hrun : ∃ q₀ ∈ after leasing putOne,
      ∃ q ∈ run (system leasing).next q₀ (.spawn (.dramGetRef ⟨0, 7⟩) :: evictBetween),
        q.shared.dram.index ⟨0, 7⟩ = none ∧
        ∃ a ∈ answerOf q 1, a.status = .ok ∧ q.shared.dram.now < a.lease := by
    decide +kernel
  obtain ⟨q₀, h₀, q, h, hnone, a, ha, hst, hlease⟩ := hrun
  exact ⟨q₀, q, a, h₀, h, ha, hst, hlease, hnone⟩

end KVStash.Tiered.LeasePromise
