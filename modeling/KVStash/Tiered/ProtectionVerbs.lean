/- GID: KVStash/Tiered/ProtectionVerbs
   digest: UNPIN and RELEASE answer for one tier; what a later DELETE meets on both. -/

import KVStash.Tiered.Protection

set_option autoImplicit false

namespace KVStash.Tiered.Protection

open Protocol Dram Tiered Tiered.System Tiered.Logic Option
open Tiered.Node Tiered.Frames Tiered.Footprint
open Foundation.Run Foundation.Threads
open Dram.Tier (BlockRef Key Store)
open Tiered.Disk (NvmeRef Tiers)

variable {p : Params} {kind : Kind} {k : Key} {s s' : State} {env ttlMS now i n lease : ℕ}
  {r : BlockRef}

/-! ### The verbs that clear a protection -/

/-- UNPIN or RELEASE of the key. -/
def Kind.clearing (k : Key) (ttlMS : ℕ) : Kind → Call
  | .pin => .pinOp k .unpin
  | .lease => .touchLease k .leaseRelease ttlMS

/-- The key is in DRAM and its NVMe entry is protected as well. -/
def Split (kind : Kind) (k : Key) (s : State) : Prop :=
  s.dram.index k ≠ none ∧ ∃ e, s.disk.index k = some e ∧
    kind.onEntry (s.disk.cells e.id) s.dram.now = true

/-- What is known of the key's protection stays known. -/
def Keeps (kind : Kind) (k : Key) (s s' : State) : Prop :=
  ∀ but below, Cleared kind k but below s → Cleared kind k but below s'

/-- What an OK tells: neither tier protects the key. -/
def Told (kind : Kind) (k : Key) (a : Answer) (s : State) : Prop :=
  a.status = .ok → Cleared kind k none true s

private theorem cleared_absent (h : s.dram.index k = none) : Cleared kind k none false s where
  block r hr := by
    rw [h] at hr
    cases hr
  entry hb := nomatch hb

private theorem entry_of_not_split (h : ¬ Split kind k s)
    (hr : s.dram.index k = some r) {e : NvmeRef} (he : s.disk.index k = some e) :
    kind.onEntry (s.disk.cells e.id) s.dram.now = false := by
  by_contra hp
  apply h
  refine ⟨?_, e, he, by simpa using hp⟩
  rw [hr]
  exact some_ne_none r

private theorem assured_cleared (c : Code Unit) (h : Cleared kind k none true s) :
    Assured (system p) (Keeps kind k) (Told kind k) c s := by
  apply Assured.of_stable (J := Cleared kind k none true) ?_ ?_ c h
  · intro s s' hkeeps h
    exact hkeeps none true h
  · intro a s h _
    exact h

private theorem assured_refusal {st : Status} (hst : st ≠ .ok) {data : List UInt8} (s : State) :
    Assured (system p) (Keeps kind k) (Told kind k) (answer ⟨st, data, lease⟩) s := by
  apply Assured.of_every
  refine ⟨fun x hx s hok => ?_, fun _ => trivial⟩
  cases hx
  exact absurd hok hst

/-! #### UNPIN -/

private theorem setPin_cleared (h : Cleared .pin k none false
    { s with disk := (s.disk.setPin k .none).2 }) (hok : (s.disk.setPin k .none).1 = .ok) :
    Cleared .pin k none true { s with disk := (s.disk.setPin k .none).2 } where
  block := h.block
  entry _ e he := by
    change (s.disk.setPin k .none).2.index k = some e at he
    change decide (((s.disk.setPin k .none).2.cells e.id).pinFlags ≠ .none) = false
    unfold Tiers.setPin at hok he ⊢
    cases hk : s.disk.index k with
    | none =>
      rw [hk] at hok
      cases hok
    | some e' =>
      rw [hk] at he
      change s.disk.index k = some e at he
      rw [hk] at he
      cases he
      change decide ((Function.update s.disk.cells e.id _ e.id).pinFlags ≠ .none) = false
      rw [Function.update_self]
      rfl

private theorem unpin_cleared (hsplit : ¬ Split .pin k s) (hr : s.dram.index k = some r) :
    Cleared .pin k none true { s with dram := s.dram.unpin r } where
  block r' hr' _ := by
    change (s.dram.unpin r).index k = some r' at hr'
    rw [Tier.unpin_index, hr] at hr'
    cases hr'
    change decide (((s.dram.unpin r).cells r.id).pinFlags ≠ .none) = false
    simp [Store.unpin, Store.onCell]
  entry _ e he := by
    have hentry := entry_of_not_split hsplit hr he
    exact hentry

private theorem unpin_assured {f : Status → Code Unit} {st : Status} (hsplit : ¬ Split .pin k s)
    (hbody : body p (.pinOp k .unpin) = .act (.dram (.pinOp k .unpin)) f)
    (hx : exec p (.dram (.pinOp k .unpin)) env s = some (st, s')) :
    Assured (system p) (Keeps .pin k) (Told .pin k) (f st) s' := by
  obtain ⟨d', hy, rfl⟩ := exec_dram hx
  unfold Tier.exec at hy
  dsimp only at hy
  split at hy
  · cases hy
  have hd := some.inj hy
  unfold Store.pinOp at hd
  cases hk : s.dram.index k with
  | some r =>
    rw [hk] at hd
    cases hd
    exact assured_cleared _ (unpin_cleared hsplit hk)
  | none =>
    rw [hk] at hd
    cases hd
    have hf : f .notFound = (disk (.get k) >>= fun o =>
        (o.elim (pure .notFound) fun _ => disk (.setPin k .none)) >>= fun st =>
          answer (.of st)) := by
      cases hbody
      change (disk (.get k) >>= _) >>= _ = _
      refine (Prog.bind_assoc ..).trans ?_
      apply congrArg (disk (.get k) >>= ·)
      funext o
      cases o <;> rfl
    rw [hf]
    intro s₁ hs₁
    refine ⟨fun x hx => (by cases hx), fun env' o s₂ hx₂ hs₂ => ?_⟩
    cases hx₂
    cases hi : s₁.disk.index k with
    | none => exact assured_refusal (by decide) _
    | some e =>
      change Assured _ _ _ (disk (.setPin k .none) >>= fun st => answer (.of st)) _
      intro s₃ hs₃
      refine ⟨fun x hx => (by cases hx), fun env'' st s₄ hx₄ hs₄ => ?_⟩
      have hc := hs₄ _ _ (hs₃ _ _ (hs₂ _ _ (hs₁ _ _ (cleared_absent hk))))
      cases hx₄
      by_cases hst : (s₃.disk.setPin k .none).1 = .ok
      · exact assured_cleared _ (setPin_cleared hc hst)
      · exact assured_refusal hst _

/-! #### RELEASE -/

private theorem releaseBelow_cleared {ttl until_ : ℕ} (h : Cleared .lease k none false
    { s with disk := (s.disk.touchLease k .leaseRelease ttl until_).2 })
    (hok : (s.disk.touchLease k .leaseRelease ttl until_).1 = .ok) : Cleared .lease k none true
      { s with disk := (s.disk.touchLease k .leaseRelease ttl until_).2 } where
  block := h.block
  entry _ e he := by
    change (s.disk.touchLease k .leaseRelease ttl until_).2.index k = some e at he
    change decide (((s.disk.touchLease k .leaseRelease ttl until_).2.cells e.id).leaseUntil >
      s.dram.now) = false
    unfold Tiers.touchLease at hok he ⊢
    cases hk : s.disk.index k with
    | none =>
      rw [hk] at hok
      cases hok
    | some e' =>
      rw [hk] at he
      change s.disk.index k = some e at he
      rw [hk] at he
      cases he
      change decide ((Function.update s.disk.cells e.id _ e.id).leaseUntil > s.dram.now) = false
      rw [Function.update_self]
      exact decide_eq_false (Nat.not_lt_zero s.dram.now)

private theorem release_cleared (h : Cleared .lease k (some r) true
    { s with dram := s.dram.onCell r fun c => { c with leaseUntil := 0 } }) :
    Cleared .lease k none true
      { s with dram := s.dram.onCell r fun c => { c with leaseUntil := 0 } } where
  block r' hr' _ := by
    by_cases hrr : r' = r
    · subst hrr
      change decide ((Function.update s.dram.cells r'.id _ r'.id).leaseUntil > s.dram.now) = false
      rw [Function.update_self]
      exact decide_eq_false (Nat.not_lt_zero s.dram.now)
    · exact h.block r' hr' fun heq => hrr (some.inj heq)
  entry := h.entry

private theorem release_assured {f : Option BlockRef → Code Unit}
    {o : Option BlockRef} (hsplit : ¬ Split .lease k s)
    (hbody : body p (.touchLease k .leaseRelease ttlMS) = .act (.dram (.get k)) f)
    (hx : exec p (.dram (.get k)) env s = some (o, s')) :
    Assured (system p) (Keeps .lease k) (Told .lease k) (f o) s' := by
  obtain ⟨-, rfl, rfl⟩ := exec_get hx
  cases hbody
  cases hk : s.dram.index k with
  | none =>
    have hc : Cleared .lease k none false s := cleared_absent hk
    intro s₁ hs₁
    refine ⟨fun x hx => (nomatch hx), fun env₁ now s₂ hx₂ hs₂ => ?_⟩
    intro s₃ hs₃
    refine ⟨fun x hx => (nomatch hx), fun env₃ st s₄ hx₄ hs₄ => ?_⟩
    have hc₄ := hs₄ _ _ (hs₃ _ _ (hs₂ _ _ (hs₁ _ _ hc)))
    cases hx₄
    by_cases hst : (s₃.disk.touchLease k .leaseRelease
        (if 0 < ttlMS then now + Tier.nanos ttlMS else 0)
        (now + Tier.nanos (p.dram.clampLeaseMS ttlMS))).1 = .ok
    · exact assured_cleared _ (releaseBelow_cleared hc₄ hst)
    · exact assured_refusal hst _
  | some r =>
    have hc : Cleared .lease k (some r) true s := by
      refine ⟨fun r' hr' hne => absurd ?_ hne, fun _ e he => entry_of_not_split hsplit hk he⟩
      rw [← hr', hk]
    intro s₁ hs₁
    refine ⟨fun x hx => (nomatch hx), fun env₁ u s₂ hx₂ hs₂ => ?_⟩
    have hc₂ := hs₂ _ _ (hs₁ _ _ hc)
    cases hx₂
    exact assured_cleared _ (release_cleared hc₂)

/-! ### The DELETE that follows -/

/-- A DELETE of the key that is not forced is refused for the protection. -/
def Refused (kind : Kind) (k : Key) : Call → Act → Prop
  | .delete k' false, .answer a => k' = k ∧ a.status = kind.refusal
  | _, _ => False

/-- What the gates of DELETE answer for a key that neither tier protects. -/
def Passes (kind : Kind) (k : Key) : (x : Act) → x.Resp → Prop
  | .disk (.deleteIf k' (.delete false)), st => k' = k → st ≠ .error kind.refusal
  | .dram (.gate k' (.delete false)), st => k' = k → st ≠ .error kind.refusal
  | _, _ => True

private theorem canDeleteNvme_passes {c : Disk.NvmeCell}
    (h : kind.onEntry c now = false) : Disk.canDeleteNvme c now false ≠ kind.refusal := by
  cases kind with
  | pin =>
    have hh : c.hardPinned = false := by
      have hp : c.pinFlags = .none := by simpa [Kind.onEntry, Disk.NvmeCell.pinned] using h
      simp [Disk.NvmeCell.hardPinned, hp]
    have hp : c.pinned = false := h
    unfold Disk.canDeleteNvme
    simp only [hh, hp, Bool.false_eq_true, if_false]
    split <;> simp [Kind.refusal]
  | lease =>
    have hl : c.leased now = false := h
    unfold Disk.canDeleteNvme
    simp only [hl, Bool.false_eq_true, if_false]
    split_ifs <;> simp [Kind.refusal]

private theorem canDelete_passes {c : Tier.Cell}
    (h : kind.onBlock c now = false) : Tier.canDelete c now false ≠ kind.refusal := by
  cases kind with
  | pin =>
    have hh : c.hardPinned = false := by
      have hp : c.pinFlags = .none := by simpa [Kind.onBlock, Tier.Cell.pinned] using h
      simp [Tier.Cell.hardPinned, hp]
    have hp : c.pinned = false := h
    unfold Tier.canDelete
    simp only [hh, hp, Bool.false_eq_true, if_false]
    split <;> simp [Kind.refusal]
  | lease =>
    have hl : c.leased now = false := h
    unfold Tier.canDelete
    simp only [hl, Bool.false_eq_true, if_false]
    split_ifs <;> simp [Kind.refusal]

private theorem notFound_ne_refusal : Status.notFound ≠ kind.refusal := by
  cases kind <;> simp [Kind.refusal]

theorem Cleared.passes {x : Act} {y : x.Resp} (h : Cleared kind k none true s)
    (hx : exec p x env s = some (y, s')) : Passes kind k x y := by
  unfold Passes
  split
  · next k' st =>
    rintro rfl rfl
    obtain ⟨t', hy, -⟩ := exec_disk hx
    unfold Disk.exec at hy
    dsimp only at hy
    split at hy
    · exact notFound_ne_refusal (Except.error.inj (Prod.mk.inj (some.inj hy)).1)
    next e he =>
    split at hy
    · cases hy
    · exact canDeleteNvme_passes (h.entry rfl e he)
        (Except.error.inj (Prod.mk.inj (some.inj hy)).1)
  · next k' st =>
    rintro rfl rfl
    obtain ⟨d', hy, -⟩ := exec_dram hx
    unfold Tier.exec at hy
    dsimp only at hy
    split at hy
    · cases hy
    split at hy
    · exact notFound_ne_refusal (Except.error.inj (Prod.mk.inj (some.inj hy)).1)
    · next r hr =>
      split at hy
      · cases hy
      · exact canDelete_passes (h.block r hr (some_ne_none r))
          (Except.error.inj (Prod.mk.inj (some.inj hy)).1)
  · trivial

private theorem not_refused {c : Call} {x : Act} (h : ∀ a, x ≠ .answer a) :
    ¬ Refused kind k c x := by
  unfold Refused
  split
  · exact absurd rfl (h _)
  · exact id

private theorem answer_avoids {st : Status} (hst : st ≠ kind.refusal) :
    (answer (.of st) : Code Unit).Avoids (Refused kind k (.delete k false)) (Passes kind k) :=
  ⟨fun h => hst h.2, fun _ _ => trivial⟩

private theorem ok_ne_refusal : Status.ok ≠ kind.refusal := by
  cases kind <;> simp [Kind.refusal]

private theorem dramDelete_avoids {f : Status → Code Unit} (hf : ∀ st, st ≠ kind.refusal →
    (f st).Avoids (Refused kind k (.delete k false)) (Passes kind k)) :
    (Tier.delete k false >>= f).Avoids (Refused kind k (.delete k false)) (Passes kind k) := by
  refine ⟨not_refused fun a ha => (nomatch ha), fun res hres => ?_⟩
  cases res with
  | error st => exact hf st fun heq => hres rfl (by rw [heq])
  | ok r =>
    refine ⟨not_refused fun a ha => (nomatch ha), fun _ _ => ?_⟩
    have hquota : (Tier.refundQuota r).Every Footprint.Inner := by
      unfold Tier.refundQuota
      split <;> simp [dram, Footprint.Inner]
    have hinner : ∀ {x : Act}, Footprint.Inner x → ¬ Refused kind k (.delete k false) x := by
      intro x hx
      apply not_refused
      rintro a rfl
      exact hx
    change ((Tier.refundQuota r >>= fun _ => Tier.release r >>= fun _ => pure .ok) >>= f).Avoids _ _
    rw [Prog.bind_assoc]
    apply Prog.avoids_bind (hquota.mono fun _ => hinner)
    intro _
    rw [Prog.bind_assoc]
    apply Prog.avoids_bind ((release_inner r).mono fun _ => hinner)
    intro _
    exact hf .ok ok_ne_refusal

private theorem delete_avoids : (body p (.delete k false)).Avoids
    (Refused kind k (.delete k false)) (Passes kind k) := by
  have hreply : ∀ st, st ≠ kind.refusal →
      (answer (.of st) : Code Unit).Avoids (Refused kind k (.delete k false)) (Passes kind k) :=
    fun st hst => answer_avoids hst
  refine ⟨not_refused fun a ha => (nomatch ha), fun res hres => ?_⟩
  cases res with
  | error st =>
    have hst : st ≠ kind.refusal := fun heq => hres rfl (by rw [heq])
    cases st with
    | errLeased => exact hreply _ hst
    | errPinned => exact hreply _ hst
    | _ => exact dramDelete_avoids hreply
  | ok e =>
    change ((((Calls.refundNvmeQuota p k.ns e >>= fun _ => pure (Except.ok e)) >>= _) >>= _) :
      Code Unit).Avoids _ _
    rw [Prog.bind_assoc, Prog.bind_assoc]
    apply Prog.avoids_bind ((refund_inner _ e).mono fun x hx => not_refused (by
      rintro a rfl
      exact hx))
    intro _
    change ((Tier.delete k false >>= _) >>= _).Avoids _ _
    rw [Prog.bind_assoc]
    apply dramDelete_avoids
    intro st hst
    cases st with
    | notFound => exact hreply .ok ok_ne_refusal
    | _ => exact hreply _ hst

theorem body_avoids (c : Call) : (body p c).Avoids (Refused kind k c) (Passes kind k) := by
  have hother : (∀ x, ¬ Refused kind k c x) →
      (body p c).Avoids (Refused kind k c) (Passes kind k) :=
    fun h => (Prog.every_of_forall h _).avoids _
  cases c with
  | delete k' force =>
    by_cases hk : k' = k ∧ force = false
    · obtain ⟨rfl, rfl⟩ := hk
      exact delete_avoids
    apply hother
    intro x hx
    unfold Refused at hx
    split at hx
    · next heq =>
      cases heq
      exact hk ⟨hx.1, rfl⟩
    · exact hx
  | _ => exact hother fun x hx => hx

/-! ### Runs -/

/-- No step protects the key. -/
def Unprotected (kind : Kind) (k : Key) (q : NodePool) (e : Event Call) : Prop :=
  ∀ x ∈ q.action e, ¬ Protects kind k q.shared x

section Runs

variable {q q' : NodePool} {e : Event Call}

private theorem keeps_next (hok : (logic p noAudit).Ok q) (hu : Unprotected kind k q e)
    (he : (system p).next q e = some q') : Keeps kind k q.shared q'.shared := by
  intro but below h
  cases e with
  | spawn c =>
    cases he
    exact h
  | step j env =>
    obtain ⟨u, x, f, y, s, hthread, hr, hx, rfl⟩ := System.next_step he
    obtain ⟨m, hinv⟩ := hok.inv
    exact h.step hinv hx (hu x (Pool.action_step_eq_some.mpr ⟨u, f, hthread, hr⟩))

/-- The call that clears the protection is assured of its OK. -/
structure Clearing (p : Params) (kind : Kind) (k : Key) (i : ℕ) (q : NodePool) : Prop where
  ok : (logic p noAudit).Ok q
  assures : q.Assures (system p) (Keeps kind k) (Told kind k) i

theorem Clearing.next (h : Clearing p kind k i q) (hu : Unprotected kind k q e)
    (he : (system p).next q e = some q') : Clearing p kind k i q' where
  ok := h.ok.next (fun c hc => body_triple c hc) (noAudit_meets q e) he
  assures := by
    apply h.assures.next ?_ ?_ ?_ he (keeps_next h.ok hu he)
    · intro s but below hc
      exact hc
    · intro s s₁ s₂ h₁ h₂ but below hc
      exact h₂ but below (h₁ but below hc)
    · intro a s s' hk htold hst
      exact hk none true (htold hst)

private theorem Clearing.first (hok : (logic p noAudit).Ok q)
    (hi : q.threads[i]? = some ((system p).fresh (kind.clearing k ttlMS)))
    (hsplit : ¬ Split kind k q.shared) (he : (system p).next q (.step i env) = some q') :
    Clearing p kind k i q' := by
  refine ⟨hok.next (fun c hc => body_triple c hc) (noAudit_meets q _) he, ?_⟩
  obtain ⟨t, x, f, y, s, ht, hr, hx, rfl⟩ := System.next_step he
  rw [hi, some.injEq] at ht
  subst ht
  have hlt := (List.getElem?_eq_some_iff.mp hi).1
  refine ⟨_, List.getElem?_set_self hlt, fun a ha => ?_, ?_⟩
  · change ((none : Option Answer) <|> (system p).answer x) = some a at ha
    cases kind <;> cases hr <;> cases ha
  change Assured _ _ _ (f y) s
  change body p (kind.clearing k ttlMS) = .act x f at hr
  cases kind with
  | pin =>
    have hx' : x = .dram (.pinOp k .unpin) := by cases hr; rfl
    subst hx'
    exact unpin_assured hsplit hr hx
  | lease =>
    have hx' : x = .dram (.get k) := by cases hr; rfl
    subst hx'
    exact release_assured hsplit hr hx

/-- Neither tier protects the key, and no DELETE of it from an index on is refused for that. -/
structure Freed (p : Params) (kind : Kind) (k : Key) (n : ℕ) (q : NodePool) : Prop where
  ok : (logic p noAudit).Ok q
  cleared : Cleared kind k none true q.shared
  careful : (system p).Careful (Refused kind k) (Passes kind k) n q

theorem Freed.next (h : Freed p kind k n q) (hu : Unprotected kind k q e)
    (he : (system p).next q e = some q') : Freed p kind k n q' where
  ok := h.ok.next (fun c hc => body_triple c hc) (noAudit_meets q e) he
  cleared := keeps_next h.ok hu he none true h.cleared
  careful := by
    apply h.careful.next body_avoids he
    rintro j env x y rfl - hx
    exact h.cleared.passes hx

end Runs

/-- An UNPIN (or RELEASE) of a key starts to act in any state that any interleaving of calls
reaches and answers OK, and no step protects the key from then on. Unless the key was then in
DRAM with its NVMe entry protected as well, no DELETE of the key that starts afterwards and is
not forced answers ERR_PINNED (or ERR_LEASED), whatever moves between the tiers. -/
theorem protection_cleared {v : Recovery} (hv : v.Sound) {now i env ttlMS : ℕ}
    {es₀ es₁ es₂ : List (Event Call)} {q₀ q₁ q₂ : NodePool}
    (h₀ : run (system p).next (Pool.start (v.start now)) es₀ = some q₀)
    (hi : q₀.threads[i]? = some ((system p).fresh (kind.clearing k ttlMS)))
    (h₁ : run (system p).next q₀ (.step i env :: es₁) = some q₁)
    {a : Answer} (ha : answerOf q₁ i = some a) (hst : a.status = .ok)
    (h₂ : run (system p).next q₁ es₂ = some q₂)
    (hu : Along (system p).next (Unprotected kind k) q₀ (.step i env :: es₁ ++ es₂))
    (hsplit : ¬ Split kind k q₀.shared) :
    ∀ j t b, q₁.threads.length ≤ j → q₂.threads[j]? = some t → t.call = .delete k false →
      t.answer = some b → b.status ≠ kind.refusal := by
  obtain ⟨hu₁, hu₂⟩ := (along_append h₁).mp hu
  obtain ⟨q, hfirst, hrun⟩ := run_cons_eq_some h₁
  have hclearing : Clearing p kind k i q₁ :=
    run_invariant (fun _ _ _ h hc he => h.next hc he)
      (Clearing.first (ok_of_run hv h₀) hi hsplit hfirst) (hu₁.2 q hfirst) hrun
  obtain ⟨t₁, ht₁, htold, -⟩ := hclearing.assures
  have hta : t₁.answer = some a := by
    unfold answerOf at ha
    rwa [ht₁] at ha
  have hfreed : Freed p kind k q₁.threads.length q₂ :=
    run_invariant (fun _ _ _ h hc he => h.next hc he)
      ⟨hclearing.ok, htold a hta hst, System.careful_length q₁⟩ hu₂ h₂
  intro j t b hj ht hcall hb
  obtain ⟨x, hx, hgood⟩ := (hfreed.careful j t hj ht).2 b hb
  cases x with
  | answer b' =>
    cases hx
    rw [hcall] at hgood
    exact fun heq => hgood ⟨rfl, heq⟩
  | _ => cases hx

/-- The entry that the demotion published is promoted back to DRAM by the thread `i`. -/
private def promotion (i : ℕ) : List (Event Call) :=
  .spawn (.promoteOne ⟨0, 7⟩ ⟨0, ⟨0, 7⟩, ⟨0, 0, 1⟩, 1, 11⟩) :: take i [0, 0, 0, 1, 0, 0, 0, 0]

/-- The block is in both tiers, and pinned in DRAM. -/
private def pinnedAbove : List (Event Call) :=
  putDemote ++ promotion 3 ++ .spawn (.pinOp ⟨0, 7⟩ .pinSoft) :: take 4 [0, 0]

private theorem fresh_last {c : Call} {es : List (Event Call)} {q q' : NodePool}
    (h : run (system p).next q (es ++ [.spawn c]) = some q') (hn : q'.threads.length = n + 1) :
    q'.threads[n]? = some ((system p).fresh c) := by
  obtain ⟨u, -, hspawn⟩ := run_append_eq_some h
  cases hspawn
  have hlen : u.threads.length = n := by
    rw [List.length_append] at hn
    exact Nat.succ.inj hn
  rw [← hlen]
  exact List.getElem?_concat_length

private def deletion : List (Event Call) :=
  .spawn (.delete ⟨0, 7⟩ false) :: take 6 [0, 0, 0, 0, 0, 0, 0, 0, 0]

private def harmless : Act → Bool
  | .dram (.pinOp _ sub) => decide (sub = .unpin)
  | .disk (.setPin _ f) => decide (f = .none)
  | .dram (.extendLease _ _) | .disk (.leaseRead _ _ _ _) | .disk (.touchLease _ _ _ _) => false
  | _ => true

private theorem unprotected_of_harmless {q : NodePool} {e : Event Call}
    (h : (q.action e).all harmless = true) : Unprotected kind k q e := by
  intro x hx hp
  have hq := (all_eq_true _ _).mp h x hx
  unfold Protects at hp
  split at hp
  · rw [of_decide_eq_true hq] at hp
    rcases hp.2.2 with h | h <;> cases h
  · exact hp.2.2 (of_decide_eq_true hq)
  · cases hq
  · cases hq
  · cases hq
  · exact hp

/-- The UNPIN of a block in both tiers clears the only pin, and the DELETE is not refused. -/
theorem protection_cleared_in_dram : ∃ q₀ q₁ q₂ b,
    after small (pinnedAbove ++ [.spawn (.pinOp ⟨0, 7⟩ .unpin)]) = some q₀ ∧
      q₀.shared.dram.index ⟨0, 7⟩ ≠ none ∧ q₀.shared.disk.index ⟨0, 7⟩ ≠ none ∧
      run (system small).next q₀ (.step 5 0 :: take 5 [0]) = some q₁ ∧
      run (system small).next q₁ deletion = some q₂ ∧
      answerOf q₁ 5 = some (.of .ok) ∧ answerOf q₂ 6 = some b ∧ b.status ≠ .errPinned := by
  have hrun : ∃ q₀ ∈ after small (pinnedAbove ++ [.spawn (.pinOp ⟨0, 7⟩ .unpin)]),
      ∃ q₁ ∈ run (system small).next q₀ (.step 5 0 :: take 5 [0]),
      ∃ q₂ ∈ run (system small).next q₁ deletion,
        Along (system small).next (fun q e => (q.action e).all harmless = true) q₀
          (.step 5 0 :: take 5 [0] ++ deletion) ∧
        answerOf q₁ 5 = some (.of .ok) ∧ q₀.threads.length = 6 ∧ q₁.threads.length = 6 ∧
        (q₀.shared.dram.index ⟨0, 7⟩).isSome ∧
        (∃ e ∈ q₀.shared.disk.index ⟨0, 7⟩,
          Kind.pin.onEntry (q₀.shared.disk.cells e.id) q₀.shared.dram.now = false) ∧
        ∃ t ∈ q₂.threads[6]?, t.call = .delete ⟨0, 7⟩ false ∧ t.answer.isSome := by
    decide +kernel
  obtain ⟨q₀, h₀, q₁, h₁, q₂, h₂, halong, ha, hlen₀, hlen, habove, ⟨e, he, hfree⟩, t, ht, htc,
    hans⟩ := hrun
  obtain ⟨b, hb⟩ := isSome_iff_exists.mp hans
  have hbelow : q₀.shared.disk.index ⟨0, 7⟩ = some e := he
  have hsplit : ¬ Split .pin ⟨0, 7⟩ q₀.shared := by
    rintro ⟨-, e', he', hprot⟩
    rw [hbelow] at he'
    cases he'
    rw [hfree] at hprot
    cases hprot
  have hi : q₀.threads[5]? = some ((system small).fresh (Kind.clearing ⟨0, 7⟩ 0 .pin)) :=
    fresh_last h₀ hlen₀
  refine ⟨q₀, q₁, q₂, b, h₀, isSome_iff_ne_none.mp habove, by rw [hbelow]; exact some_ne_none e,
    h₁, h₂, ha, ?_, ?_⟩
  · exact bind_eq_some_iff.mpr ⟨t, ht, hb⟩
  · exact protection_cleared Recovery.empty_sound h₀ hi h₁ ha rfl h₂
      (halong.mono fun q e h => unprotected_of_harmless h) hsplit 6 t b (by omega) ht htc hb

/-- A key that is soft-pinned on NVMe and then promoted: UNPIN answers OK for the block in
DRAM, and the DELETE that follows is refused for the pin of the NVMe entry. A lease that a read
took on NVMe outlives RELEASE in the same way. -/
theorem protection_left_below :
    (∃ q,
      after small
        (putDemote ++ .spawn (.pinOp ⟨0, 7⟩ .pinSoft) :: take 3 [0, 0, 0, 0] ++ promotion 4 ++
        .spawn (.pinOp ⟨0, 7⟩ .unpin) :: take 5 [0, 0] ++
        .spawn (.delete ⟨0, 7⟩ false) :: take 6 [0, 0]) = some q ∧
      answerOf q 5 = some (.of .ok) ∧ answerOf q 6 = some (.of .errPinned)) ∧
    ∃ q, after leasing
      (putDemote ++ .spawn (.getRef ⟨0, 7⟩) :: take 3 [0, 0, 0, 0, 0, 0] ++ promotion 4 ++
        .spawn (.touchLease ⟨0, 7⟩ .leaseRelease 0) :: take 5 [0, 0, 0] ++
        .spawn (.delete ⟨0, 7⟩ false) :: take 6 [0, 0]) = some q ∧
      answerOf q 5 = some (.of .ok) ∧ answerOf q 6 = some (.of .errLeased) := by
  constructor
  · exact (by decide +kernel : ∃ q ∈ after small (putDemote ++
      .spawn (.pinOp ⟨0, 7⟩ .pinSoft) :: take 3 [0, 0, 0, 0] ++ promotion 4 ++
        .spawn (.pinOp ⟨0, 7⟩ .unpin) :: take 5 [0, 0] ++
        .spawn (.delete ⟨0, 7⟩ false) :: take 6 [0, 0]), answerOf q 5 = some (.of .ok) ∧
        answerOf q 6 = some (.of .errPinned))
  · exact (by decide +kernel : ∃ q ∈ after leasing (putDemote ++
      .spawn (.getRef ⟨0, 7⟩) :: take 3 [0, 0, 0, 0, 0, 0] ++ promotion 4 ++
        .spawn (.touchLease ⟨0, 7⟩ .leaseRelease 0) :: take 5 [0, 0, 0] ++
        .spawn (.delete ⟨0, 7⟩ false) :: take 6 [0, 0]), answerOf q 5 = some (.of .ok) ∧
        answerOf q 6 = some (.of .errLeased))

end KVStash.Tiered.Protection
