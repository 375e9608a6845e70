/- GID: KVStash/Tiered/DeleteComplete
   digest: A DELETE that answers OK or NOT_FOUND leaves the key in no tier, unless a demotion or a
     promotion of it slips between its two steps. -/

import KVStash.Tiered.Footprint
import KVStash.Tiered.ReadGap

set_option autoImplicit false

namespace KVStash.Tiered.DeleteComplete

open Protocol Dram Tiered Tiered.System Tiered.Logic Multiset Option
open Tiered.Node Tiered.Frames Tiered.Footprint
open Foundation.Run Foundation.Threads
open Dram.Tier (BlockRef Key)
open Tiered.Disk (NvmeRef)

variable {p : Params} {k : Key} {force : Bool} {j env z i o l : ℕ} {e : Event Call}
  {q q' : NodePool}

/-! ### What can slip between the two steps of a DELETE -/

def Inserts (k : Key) : Act → Prop
  | .dram (.insert k' _ _ _) => k' = k
  | _ => False

def LooksUp (k : Key) : Act → Prop
  | .disk (.get k') => k' = k
  | _ => False

/-- The program can insert the key into DRAM without looking it up below again. -/
def InFlight (k : Key) (c : Code Unit) : Prop := c.Pending (Inserts k) (LooksUp k)

def Promotes (k : Key) : Call → Prop
  | .promoteOne k' _ => k' = k
  | .pinOp k' _ => k' = k
  | _ => False

/-- No promotion of the key is between its lookup and its insert. -/
def Clear (k : Key) (q : NodePool) : Prop :=
  ∀ t ∈ q.threads, Promotes k t.call → ¬ InFlight k t.rest

/-- The DELETE has dropped the NVMe entry and not yet come to the DRAM block. -/
def Between (k : Key) (i : ℕ) (q : NodePool) : Prop :=
  ∃ t, q.threads[i]? = some t ∧ t.rest.Pending (fun x => ∃ g, x = .dram (.gate k g))
    (fun x => ∃ g, x = .disk (.deleteIf k g))

/-- The steps a DELETE of the thread `i` stands up to: an insert of the key is a
promotion's, no demotion publishes the key between the two steps of the DELETE, and none
of its promotions is under way when the DELETE comes to the DRAM block. -/
def Calm (k : Key) (i j : ℕ) (q : NodePool) : Act → Prop
  | .dram (.insert k' _ _ _) => k' = k → ∃ t, q.threads[j]? = some t ∧ Promotes k t.call
  | .publish k' _ _ _ => k' = k → ¬ Between k i q
  | .dram (.gate k' _) => k' = k → j = i → Clear k q
  | _ => True

def InOrder (k : Key) (i : ℕ) (q : NodePool) : Event Call → Prop
  | .spawn _ => True
  | .step j env => ∀ x ∈ q.action (.step j env), Calm k i j q x

/-! ### Promotions look the key up -/

/-- A lookup that finds nothing puts nothing under way. -/
def Blind (k : Key) : (x : Act) → (x.Resp → Code Unit) → Prop
  | .disk (.get k'), f => k' = k → ¬ InFlight k (f none)
  | _, _ => True

private theorem blind_bind {α : Type} {c : Code α} {f : α → Code Unit} (hc : c.Every Inner)
    (hf : ∀ x, (f x).Always (Blind k)) : (c >>= f).Always (Blind k) := by
  induction c with
  | ret x => exact hf x
  | act x g ih =>
    refine ⟨?_, fun y => ih y (hc.2 y)⟩
    have := hc.1
    unfold Blind
    split
    · exact this.elim
    · trivial

private theorem answer_blind (a : Answer) : (answer a : Code Unit).Always (Blind k) :=
  ⟨trivial, fun _ => trivial⟩

private theorem answer_idle (a : Answer) : ¬ InFlight k (answer a) := by
  rintro (h | ⟨-, _, h⟩)
  · exact h
  · exact h

private theorem promoteOne_blind (e : NvmeRef) : ¬ InFlight k (body p (.promoteOne k e)) ∧
    (body p (.promoteOne k e)).Always (Blind k) := by
  refine ⟨?_, fun _ => answer_idle _, fun o => ?_⟩
  · rintro (h | ⟨h, -⟩)
    · exact h
    · exact h rfl
  cases o with
  | none => exact answer_blind _
  | some cur =>
    by_cases hcur : cur = e
    · change (((if cur = e then Calls.promoteSync p k e else pure .notFound) >>= _) :
        Code Unit).Always _
      rw [if_pos hcur]
      exact blind_bind (promoteSync_inner e) fun _ => answer_blind _
    · change (((if cur = e then Calls.promoteSync p k e else pure .notFound) >>= _) :
        Code Unit).Always _
      rw [if_neg hcur]
      exact answer_blind _

private theorem pinOp_blind (sub : PinSub) : ¬ InFlight k (body p (.pinOp k sub)) ∧
    (body p (.pinOp k sub)).Always (Blind k) := by
  constructor
  · rintro (h | ⟨-, st, h⟩)
    · exact h
    · cases st with
      | notFound =>
        rcases h with h | ⟨h, -⟩
        · exact h
        · exact h rfl
      | _ => exact answer_idle _ h
  · refine ⟨trivial, fun st => ?_⟩
    cases st with
    | notFound =>
      refine ⟨fun _ => answer_idle _, fun o => ?_⟩
      cases o with
      | none => exact answer_blind _
      | some e =>
        cases sub with
        | pinHard =>
          change ((Calls.promoteSync p k e >>= _) >>= _).Always _
          rw [Prog.bind_assoc]
          apply blind_bind (promoteSync_inner e)
          intro st
          cases st with
          | ok => exact ⟨trivial, fun _ => answer_blind _⟩
          | _ => exact answer_blind _
        | other => exact answer_blind _
        | _ => exact ⟨trivial, fun _ => answer_blind _⟩
    | _ => exact answer_blind _

theorem promotes_blind {c : Call} (hc : Promotes k c) :
    ¬ InFlight k (body p c) ∧ (body p c).Always (Blind k) := by
  cases c with
  | promoteOne k' e =>
    cases hc
    exact promoteOne_blind e
  | pinOp k' sub =>
    cases hc
    exact pinOp_blind sub
  | _ => exact hc.elim

/-- What the calls of a node do, as far as promotions of the key are concerned. -/
def Rule (k : Key) (c : Call) (x : Act) (f : x.Resp → Code Unit) : Prop :=
  Promotes k c → Blind k x f

theorem body_rule (p : Params) (k : Key) (c : Call) : (body p c).Always (Rule k c) := by
  by_cases hc : Promotes k c
  · have hmono : ∀ d : Code Unit, d.Always (Blind k) → d.Always (Rule k c) := by
      intro d hd
      induction d with
      | ret u => trivial
      | act x f ih => exact ⟨fun _ => hd.1, fun y => ih y (hd.2 y)⟩
    exact hmono _ (promotes_blind hc).2
  · exact Prog.always_of_forall (fun _ _ h => absurd h hc) _

/-! ### The key is gone -/

/-- No tier has the key and no promotion of it is under way. -/
structure Gone (k : Key) (q : NodePool) : Prop where
  dram : q.shared.dram.index k = none
  disk : q.shared.disk.index k = none
  clear : Clear k q

section Steps

variable {q q' : NodePool} {i : ℕ} {e : Event Call}

private theorem calm_of {x : Act} (h : InOrder k i q (.step j env))
    (hat : q.AtAction j x) : Calm k i j q x :=
  h x (Pool.action_step_eq_some.mpr hat)

private theorem clear_next (hc : Clear k q) (hd : q.shared.disk.index k = none)
    (hob : q.Obeys (Rule k)) (he : (system p).next q e = some q') : Clear k q' := by
  intro t' ht' hcall
  cases e with
  | spawn c =>
    cases he
    rcases List.mem_append.mp ht' with ht' | ht'
    · exact hc t' ht' hcall
    · rw [List.mem_singleton.mp ht'] at hcall ⊢
      exact (promotes_blind hcall).1
  | step j env =>
    obtain ⟨t, x, f, r, s, ht, hr, hx, rfl⟩ := System.next_step he
    rcases List.mem_or_eq_of_mem_set ht' with ht' | rfl
    · exact hc t' ht' hcall
    have hidle := hc t (List.mem_of_getElem? ht) hcall
    have hrule := hob.at ht hr hcall
    intro hfly
    apply hidle
    rw [hr]
    by_cases hl : LooksUp k x
    · exfalso
      unfold LooksUp at hl
      split at hl
      · next k' =>
        subst hl
        cases hx
        rw [hd] at hfly
        exact hrule rfl hfly
      · exact hl
    · exact .inr ⟨hl, r, hfly⟩

private theorem insert_excluded (hc : Clear k q) (hat : q.AtAction j (.dram (.insert k o l z)))
    (hcalm : Calm k i j q (.dram (.insert k o l z))) : False := by
  obtain ⟨t, ht, hp⟩ := hcalm rfl
  obtain ⟨t', f, ht', hr⟩ := hat
  rw [ht, some.injEq] at ht'
  subst ht'
  apply hc t (List.mem_of_getElem? ht) hp
  rw [hr]
  exact .inl rfl

theorem Gone.next (h : Gone k q) (hok : (logic p noAudit).Ok q) (hob : q.Obeys (Rule k))
    (ho : InOrder k i q e) (he : (system p).next q e = some q') : Gone k q' := by
  refine ⟨?_, ?_, clear_next h.clear h.disk hob he⟩
  · cases e with
    | spawn c =>
      cases he
      exact h.dram
    | step j env =>
      obtain ⟨t, x, f, r, s, ht, hr, hx, rfl⟩ := System.next_step he
      have hat : q.AtAction j x := ⟨t, f, ht, hr⟩
      change s.dram.index k = none
      rcases node_dram_index_cases k hx with hi | ⟨o, l, z, rfl, -⟩ | ⟨-, hi⟩
      · rw [hi, h.dram]
      · exact (insert_excluded h.clear hat (calm_of ho hat)).elim
      · exact hi
  · cases e with
    | spawn c =>
      cases he
      exact h.disk
    | step j env =>
      obtain ⟨t, x, f, r, s, ht, hr, hx, rfl⟩ := System.next_step he
      have hat : q.AtAction j x := ⟨t, f, ht, hr⟩
      change s.disk.index k = none
      rcases node_disk_index_cases k hx with hi | ⟨g, e', -, -, -, hi⟩ | ⟨r', loc, z, rfl, -⟩
      · rw [hi, h.disk]
      · exact hi
      obtain ⟨m, ⟨hd, -⟩, hin, -⟩ := needs_of_ok hok hat
      have := (hd.inside k r' (.inl hin)).1
      rw [h.dram] at this
      cases this

private theorem disk_none_next (hd : q.shared.disk.index k = none)
    (hpub : ∀ j env r loc z, e = .step j env → ¬ q.AtAction j (.publish k r loc z))
    (he : (system p).next q e = some q') : q'.shared.disk.index k = none := by
  cases e with
  | spawn c =>
    cases he
    exact hd
  | step j env =>
    obtain ⟨t, x, f, r, s, ht, hr, hx, rfl⟩ := System.next_step he
    change s.disk.index k = none
    rcases node_disk_index_cases k hx with hi | ⟨g, e', -, -, -, hi⟩ | ⟨r', loc, z, rfl, -⟩
    · rw [hi, hd]
    · exact hi
    · exact absurd ⟨t, f, ht, hr⟩ (hpub j env r' loc z rfl)

private theorem publish_excluded (hok : (logic p noAudit).Ok q) (hij : i ≠ j)
    (hat : q.AtAction i (.dram (.remove k))) {r : BlockRef} {loc : Disk.Loc} :
    ¬ q.AtAction j (.publish k r loc z) := by
  intro hpub
  obtain ⟨m, n, f, ⟨hd, -⟩, ⟨b, hb⟩, hr, -⟩ := hok.owns_pair hat hpub hij
  change Tier.Inv p.dram noAudit q.shared.dram (m.1 + (n.1 + f.1)) at hd
  have hbi : .inside k b ∈ m.1 + (n.1 + f.1) ∨ .moved k b ∈ m.1 + (n.1 + f.1) :=
    hb.imp (fun h => mem_add.mpr (.inl h)) (fun h => mem_add.mpr (.inl h))
  have hri : .inside k r ∈ m.1 + (n.1 + f.1) :=
    mem_add.mpr (.inr (mem_add.mpr (.inl hr)))
  obtain ⟨hib, hone⟩ := hd.inside k b hbi
  obtain ⟨hir, -⟩ := hd.inside k r (.inl hri)
  rw [hib, some.injEq] at hir
  subst hir
  simp only [count_add] at hone
  have hn := count_pos.mpr hr
  rcases hb with hb | hb
  · have := count_pos.mpr hb
    omega
  · have := count_pos.mpr hb
    omega

end Steps

/-! ### The DELETE -/

/-- An answer that says neither OK nor NOT_FOUND. -/
def Refuses : Act → Prop
  | .answer a => a.status ≠ .ok ∧ a.status ≠ .notFound
  | _ => True

/-- The NVMe entry is dropped and the gate in DRAM still to come. -/
inductive Dropped (k : Key) : Code Unit → Prop
  | inner (x : Act) (f : x.Resp → Code Unit) (hx : Inner x) (h : ∀ y, Dropped k (f y)) :
    Dropped k (.act x f)
  | gate (force : Bool) (f : Except Status BlockRef → Code Unit)
    (hrefuse : ∀ st, st ≠ .ok → st ≠ .notFound → (f (.error st)).Every Refuses)
    (hremove : ∀ b, ∃ g, f (.ok b) = .act (.dram (.remove k)) g) :
    Dropped k (.act (.dram (.gate k (.delete force))) f)

theorem Dropped.between {c : Code Unit} (h : Dropped k c) :
    c.Pending (fun x => ∃ g, x = .dram (.gate k g)) (fun x => ∃ g, x = .disk (.deleteIf k g)) := by
  induction h with
  | inner x f hx h ih =>
    obtain ⟨y⟩ := resp_nonempty x
    refine .inr ⟨?_, y, ih y⟩
    rintro ⟨g, rfl⟩
    exact hx
  | gate force f hrefuse hremove => exact .inl ⟨_, rfl⟩

private theorem dropped_bind {α : Type} {c : Code α} {f : α → Code Unit} (hc : c.Every Inner)
    (hf : ∀ x, Dropped k (f x)) : Dropped k (c >>= f) := by
  induction c with
  | ret x => exact hf x
  | act a g ih => exact .inner a _ hc.1 fun y => ih y (hc.2 y)

inductive Stage (p : Params) (k : Key) (force : Bool) (q : NodePool) : Code Unit → Prop
  | start : Stage p k force q (body p (.delete k force))
  | dropped (c : Code Unit) (h : Dropped k c) (hd : q.shared.disk.index k = none) :
    Stage p k force q c
  | removing (f : Unit → Code Unit) (hd : q.shared.disk.index k = none) (hc : Clear k q) :
    Stage p k force q (.act (.dram (.remove k)) f)
  | gone (c : Code Unit) (h : Gone k q) : Stage p k force q c
  | refused (c : Code Unit) (h : c.Every Refuses) : Stage p k force q c

def Told (k : Key) (q : NodePool) (a : Answer) : Prop :=
  a.status = .ok ∨ a.status = .notFound → Gone k q

def Deleting (p : Params) (k : Key) (force : Bool) (i : ℕ) (q : NodePool) : Prop :=
  q.Follows i (Stage p k force q) (Told k q)

/-- What the DELETE does after the NVMe entry. -/
private def afterDrop (p : Params) (k : Key) (force : Bool) : Except Status NvmeRef → Code Unit
  | .error .errLeased => answer (.of .errLeased)
  | .error .errPinned => answer (.of .errPinned)
  | .error _ => replying (Tier.delete k force)
  | .ok e => Calls.refundNvmeQuota p k.ns e >>= fun _ => Tier.delete k force >>= fun st =>
      match st with
      | .notFound => answer (.of .ok)
      | st => answer (.of st)

private theorem delete_eq : body p (.delete k force) =
    disk (.deleteIf k (.delete force)) >>= afterDrop p k force := by
  change replying (Calls.delete p k force) = _
  unfold replying Calls.delete Calls.dropEntry
  rw [Prog.bind_assoc, Prog.bind_assoc]
  refine congrArg (Prog.bind _) (funext fun x => ?_)
  cases x with
  | error st => cases st <;> rfl
  | ok e =>
    change (((Calls.refundNvmeQuota p k.ns e >>= fun _ => pure (Except.ok e)) >>= _) : Code Unit) =
      _
    rw [Prog.bind_assoc]
    refine congrArg (Prog.bind _) (funext fun _ => ?_)
    change ((Tier.delete k force >>= _) >>= _ : Code Unit) = _
    rw [Prog.bind_assoc]
    refine congrArg (Prog.bind _) (funext fun st => ?_)
    cases st <;> rfl

private theorem refuses_answer {st : Status} (h : st ≠ .ok) (h' : st ≠ .notFound) :
    (answer (.of st) : Code Unit).Every Refuses :=
  ⟨⟨h, h'⟩, fun _ => trivial⟩

private theorem delete_dropped (f : Status → Code Unit)
    (hf : ∀ st, st ≠ .ok → st ≠ .notFound → (f st).Every Refuses) :
    Dropped k (Tier.delete k force >>= f) :=
  .gate force _ hf fun _ => ⟨_, rfl⟩

private theorem afterDrop_dropped {x : Except Status NvmeRef} (hl : x ≠ .error .errLeased)
    (hp : x ≠ .error .errPinned) : Dropped k (afterDrop p k force x) := by
  have hreply : Dropped k (replying (Tier.delete k force)) :=
    delete_dropped _ fun st h h' => refuses_answer h h'
  cases x with
  | error st =>
    cases st with
    | errLeased => exact absurd rfl hl
    | errPinned => exact absurd rfl hp
    | _ => exact hreply
  | ok e =>
    apply dropped_bind (refund_inner _ e)
    intro _
    apply delete_dropped
    intro st h h'
    cases st with
    | notFound => exact absurd rfl h'
    | _ => exact refuses_answer h h'

private theorem canDeleteNvme_cases (c : Disk.NvmeCell) (now : ℕ) (force : Bool) :
    Disk.canDeleteNvme c now force = .ok ∨ Disk.canDeleteNvme c now force = .errPinned ∨
      Disk.canDeleteNvme c now force = .errLeased := by
  unfold Disk.canDeleteNvme
  repeat' split
  all_goals simp

private theorem canDelete_cases (c : Tier.Cell) (now : ℕ) (force : Bool) :
    Tier.canDelete c now force = .ok ∨ Tier.canDelete c now force = .errPinned ∨
      Tier.canDelete c now force = .errLeased := by
  unfold Tier.canDelete
  repeat' split
  all_goals simp

section Own

variable {q q' : NodePool} {i env : ℕ}

private theorem Stage.dropEntry {x : Except Status NvmeRef}
    (hx : exec p (.disk (.deleteIf k (.delete force))) env q.shared = some (x, q'.shared)) :
    Stage p k force q' (afterDrop p k force x) := by
  obtain ⟨t', hy, hs⟩ := exec_disk hx
  have hdisk : q'.shared.disk = t' := by rw [hs]
  unfold Disk.exec at hy
  dsimp only at hy
  split at hy
  · next hnone =>
    cases hy
    apply Stage.dropped _ (afterDrop_dropped (by rintro ⟨⟩) (by rintro ⟨⟩))
    rw [hdisk, hnone]
  next e he =>
  split at hy
  · cases hy
    apply Stage.dropped _ (afterDrop_dropped (by rintro ⟨⟩) (by rintro ⟨⟩))
    rw [hdisk]
    exact Function.update_self ..
  next hst =>
  have hy1 := congrArg Prod.fst (some.inj hy)
  subst hy1
  have hcases : Disk.canDeleteNvme (q.shared.disk.cells e.id) q.shared.dram.now force = .ok ∨
    _ := canDeleteNvme_cases ..
  change Stage p k force q' (afterDrop p k force
    (.error (Disk.canDeleteNvme (q.shared.disk.cells e.id) q.shared.dram.now force)))
  rcases hcases with h | h | h
  · exact absurd h hst
  · rw [h]
    exact .refused _ (refuses_answer Status.noConfusion Status.noConfusion)
  · rw [h]
    exact .refused _ (refuses_answer Status.noConfusion Status.noConfusion)

private theorem Stage.gate {force' : Bool} {f : Except Status BlockRef → Code Unit}
    {x : Except Status BlockRef}
    (hrefuse : ∀ st, st ≠ .ok → st ≠ .notFound → (f (.error st)).Every Refuses)
    (hremove : ∀ b, ∃ g, f (.ok b) = .act (.dram (.remove k)) g)
    (hd : q'.shared.disk.index k = none) (hc : Clear k q')
    (hx : exec p (.dram (.gate k (.delete force'))) env q.shared = some (x, q'.shared)) :
    Stage p k force q' (f x) := by
  obtain ⟨d', hy, hs⟩ := exec_dram hx
  have hdram : q'.shared.dram = d' := by rw [hs]
  unfold Tier.exec at hy
  dsimp only at hy
  split at hy
  · cases hy
  split at hy
  · next hnone =>
    cases hy
    refine .gone _ ⟨?_, hd, hc⟩
    rw [hdram, hnone]
  next b hb =>
  split at hy
  · cases hy
    obtain ⟨g, hg⟩ := hremove b
    rw [hg]
    exact .removing g hd hc
  next hst =>
  have hy1 := congrArg Prod.fst (some.inj hy)
  subst hy1
  refine .refused _ (hrefuse _ hst ?_)
  change Tier.canDelete (q.shared.dram.cells b.id) q.shared.dram.now force' ≠ .notFound
  rcases canDelete_cases (q.shared.dram.cells b.id) q.shared.dram.now force' with
    h | h | h <;> rw [h] <;> exact Status.noConfusion

theorem Deleting.next (h : Deleting p k force i q)
    (hok : (logic p noAudit).Ok q) (hob : q.Obeys (Rule k)) (ho : InOrder k i q e)
    (he : (system p).next q e = some q') : Deleting p k force i q' := by
  apply Pool.Follows.next (T := Stage p k force) (U := Told k) h he
  · intro t a _ _ htold hst
    exact (htold hst).next hok hob ho he
  · intro t hne ht hst
    generalize hc : t.rest = c at hst
    cases hst with
    | start => exact .start
    | dropped c hdrop hd =>
      refine .dropped c hdrop (disk_none_next hd ?_ he)
      rintro j env r loc z rfl hat
      exact calm_of ho hat rfl ⟨t, ht, hc ▸ hdrop.between⟩
    | removing f hd hclear =>
      refine .removing f (disk_none_next hd ?_ he) (clear_next hclear hd hob he)
      rintro j env r loc z rfl
      apply publish_excluded hok _ ⟨t, f, ht, hc⟩
      rintro rfl
      exact hne env rfl
    | gone c hg => exact .gone c (hg.next hok hob ho he)
    | refused c hr => exact .refused c hr
  · rintro env x f y rfl hat hst hx
    have hdisk : (∀ r loc z, x ≠ .publish k r loc z) → q.shared.disk.index k = none →
        q'.shared.disk.index k = none := by
      intro hne hd
      rcases node_disk_index_cases k hx with hi | ⟨g, e', -, -, -, hi⟩ | ⟨r', loc, z, h, -⟩
      · rw [hi, hd]
      · exact hi
      · exact absurd h (hne r' loc z)
    generalize hc : (Prog.act x f : Code Unit) = c at hst
    cases hst with
    | start =>
      rw [delete_eq] at hc
      cases hc
      exact ⟨Stage.dropEntry hx, fun a ha => by cases ha⟩
    | dropped c hdrop hd =>
      cases hdrop with
      | inner x' f' hin hnext =>
        cases hc
        refine ⟨.dropped _ (hnext y) (hdisk ?_ hd), fun a ha => ?_⟩
        · rintro r loc z rfl
          exact hin
        · cases x with
          | answer b => exact hin.elim
          | _ => cases ha
      | gate force' f' hrefuse hremove =>
        cases hc
        have hclear : Clear k q := calm_of ho hat rfl rfl
        refine ⟨?_, fun a ha => by cases ha⟩
        exact Stage.gate hrefuse hremove (hdisk (by rintro r loc z ⟨⟩) hd)
          (clear_next hclear hd hob he) hx
    | removing f' hd hclear =>
      cases hc
      refine ⟨.gone _ ⟨?_, hdisk (by rintro r loc z ⟨⟩) hd, clear_next hclear hd hob he⟩,
        fun a ha => by cases ha⟩
      have hs := congrArg Prod.snd (some.inj hx)
      dsimp only at hs
      rw [← hs]
      exact Function.update_self ..
    | gone c hg =>
      have hg' := hg.next hok hob ho he
      exact ⟨.gone _ hg', fun a _ _ => hg'⟩
    | refused c hr =>
      subst hc
      refine ⟨.refused _ (hr.2 y), fun a ha hst => ?_⟩
      cases x with
      | answer b =>
        cases ha
        exact absurd hst (by rintro (h | h); exacts [hr.1.1 h, hr.1.2 h])
      | _ => cases ha

end Own

/-! ### What comes after -/

def Absent (k : Key) : (x : Act) → x.Resp → Prop
  | .dram (.get k'), o => k' = k → o = none
  | .disk (.get k'), o => k' = k → o = none
  | _, _ => True

theorem Gone.absent {x : Act} {y : x.Resp} {s' : State} (h : Gone k q)
    (hx : exec p x env q.shared = some (y, s')) : Absent k x y := by
  unfold Absent
  split
  · next k' o =>
    rintro rfl
    obtain ⟨-, rfl, -⟩ := exec_get hx
    exact h.dram
  · next k' o =>
    rintro rfl
    cases hx
    exact h.disk
  · trivial

/-- A GET or EXISTS that finds the key. -/
def Finds (k : Key) : Call → Act → Prop
  | .getRef k', .answer a => k' = k ∧ a.status ≠ .notFound
  | .contains k', .answer a => k' = k ∧ a.status ≠ .notFound
  | _, _ => False

theorem body_absent (c : Call) : (body p c).Avoids (Finds k c) (Absent k) := by
  by_cases hfind : ∃ x, Finds k c x
  · obtain ⟨x, hx⟩ := hfind
    unfold Finds at hx
    split at hx
    · obtain ⟨rfl, -⟩ := hx
      change (Calls.getRefTier p _).Avoids _ _
      rw [ReadGap.getRefTier_eq]
      refine ⟨id, fun o ho => ?_⟩
      rw [show o = none from ho rfl]
      refine ⟨id, fun o ho => ?_⟩
      rw [show o = none from ho rfl]
      exact ⟨fun h => h.2 rfl, fun _ _ => trivial⟩
    · obtain ⟨rfl, -⟩ := hx
      refine ⟨id, fun o ho => ?_⟩
      rw [show o = none from ho rfl]
      refine ⟨id, fun o ho => ?_⟩
      rw [show o = none from ho rfl]
      exact ⟨fun h => h.2 rfl, fun _ _ => trivial⟩
    · exact hx.elim
  · exact (Prog.every_of_forall (fun x hx => hfind ⟨x, hx⟩) _).avoids _

/-- What holds once the DELETE has answered. -/
structure After (p : Params) (k : Key) (n : ℕ) (q : NodePool) : Prop where
  ok : (logic p noAudit).Ok q
  obeys : q.Obeys (Rule k)
  gone : Gone k q
  careful : (system p).Careful (Finds k) (Absent k) n q

theorem After.next {n : ℕ} (h : After p k n q)
    (ho : InOrder k i q e) (he : (system p).next q e = some q') : After p k n q' where
  ok := h.ok.next (fun c hc => body_triple c hc) (noAudit_meets q e) he
  obeys := h.obeys.next (body_rule p k) he
  gone := h.gone.next h.ok h.obeys ho he
  careful := by
    apply h.careful.next (fun c => body_absent c) he
    rintro j env x y rfl - hx
    exact h.gone.absent hx

/-- A DELETE starts in any reachable state and answers OK or NOT_FOUND. In every run in
which the key is inserted by its promotions only, no demotion publishes it between the two
steps of the DELETE and none of its promotions is under way when the DELETE comes to the
DRAM block, the key is in no tier from the answer on, and no GET or EXISTS that starts
after it finds the key. -/
theorem delete_complete {v : Recovery} (hv : v.Sound) {now : ℕ} {es₀ es₁ es₂ : List (Event Call)}
    {q₀ q₁ q₂ : NodePool} (h₀ : run (system p).next (Pool.start (v.start now)) es₀ = some q₀)
    (h₁ : run (system p).next q₀ (.spawn (.delete k force) :: es₁) = some q₁)
    {a : Answer} (ha : answerOf q₁ q₀.threads.length = some a)
    (hst : a.status = .ok ∨ a.status = .notFound) (h₂ : run (system p).next q₁ es₂ = some q₂)
    (ho : Along (system p).next (InOrder k q₀.threads.length) q₀
      (.spawn (.delete k force) :: es₁ ++ es₂)) :
    q₂.shared.dram.index k = none ∧ q₂.shared.disk.index k = none ∧
      ∀ j t b, q₁.threads.length ≤ j → q₂.threads[j]? = some t → t.answer = some b →
        t.call = .getRef k ∨ t.call = .contains k → b.status = .notFound := by
  obtain ⟨ho₁, ho₂⟩ := (along_append h₁).mp ho
  obtain ⟨q, hspawn, hrun⟩ := run_cons_eq_some h₁
  have hok : (logic p noAudit).Ok q :=
    (ok_of_run hv h₀).next (fun c hc => body_triple c hc) (noAudit_meets q₀ _) hspawn
  have hob : q.Obeys (Rule k) := (Pool.Obeys.run (body_rule p k) h₀).next (body_rule p k) hspawn
  have hstart : Deleting p k force q₀.threads.length q := by
    cases hspawn
    exact Pool.follows_spawn .start
  obtain ⟨hok₁, hob₁, t, ht, htold, -⟩ : (logic p noAudit).Ok q₁ ∧ q₁.Obeys (Rule k) ∧
      Deleting p k force q₀.threads.length q₁ := by
    apply run_invariant (I := fun q => (logic p noAudit).Ok q ∧ q.Obeys (Rule k) ∧
      Deleting p k force q₀.threads.length q) ?_ ⟨hok, hob, hstart⟩ (ho₁.2 q hspawn) hrun
    rintro q e q' ⟨hok, hob, hdel⟩ hc he
    exact ⟨hok.next (fun c hc => body_triple c hc) (noAudit_meets q e) he,
      hob.next (body_rule p k) he, hdel.next hok hob hc he⟩
  have hta : t.answer = some a := by
    unfold answerOf at ha
    rwa [ht] at ha
  have hafter : After p k q₁.threads.length q₂ :=
    run_invariant (fun _ _ _ h hc he => h.next hc he)
      ⟨hok₁, hob₁, htold a hta hst, System.careful_length q₁⟩ ho₂ h₂
  refine ⟨hafter.gone.dram, hafter.gone.disk, fun j t b hj ht hb hcall => ?_⟩
  obtain ⟨x, hx, hgood⟩ := (hafter.careful j t hj ht).2 b hb
  cases x with
  | answer b' =>
    cases hx
    by_contra hne
    rcases hcall with hcall | hcall <;> rw [hcall] at hgood <;> exact hgood ⟨rfl, hne⟩
  | _ => cases hx

/-- The program has finished or has its lookup still before it. -/
private def settled (k : Key) : Code Unit → Bool
  | .act (.disk (.get k')) _ => decide (k' = k)
  | .act _ _ => false
  | .ret _ => true

private theorem not_inFlight_of_settled {c : Code Unit} (h : settled k c = true) :
    ¬ InFlight k c := by
  unfold settled at h
  split at h
  · rw [of_decide_eq_true h]
    rintro (hins | ⟨hlook, -⟩)
    · exact hins
    · exact hlook rfl
  · cases h
  · exact id

private def promoting (k : Key) : Call → Bool
  | .promoteOne k' _ | .pinOp k' _ => decide (k' = k)
  | _ => false

private theorem promoting_of_promotes {c : Call} (h : Promotes k c) : promoting k c = true := by
  unfold Promotes at h
  split at h
  · exact decide_eq_true h
  · exact decide_eq_true h
  · exact h.elim

private def orderly (k : Key) (q : NodePool) (e : Event Call) : Bool :=
  (q.action e).all fun x => match x with
    | .dram (.insert _ _ _ _) | .publish _ _ _ _ => false
    | .dram (.gate _ _) => q.threads.all fun t => !promoting k t.call || settled k t.rest
    | _ => true

private theorem inOrder_of_orderly (h : orderly k q e = true) : InOrder k i q e := by
  cases e with
  | spawn c => trivial
  | step j env =>
    unfold orderly at h
    rw [all_eq_true] at h
    intro x hx
    have hq := h x hx
    unfold Calm
    split
    · cases hq
    · cases hq
    · intro _ _ t ht hp
      have ht := List.all_eq_true.mp hq t ht
      rw [promoting_of_promotes hp] at ht
      exact not_inFlight_of_settled ht
    · trivial

/-- When the DELETE comes, a demotion of the block has written its record, and a promotion and an
eviction of it have been started. -/
private def inFlight : List (Event Call) :=
  putBlock ++ .spawn (.demoteOne ⟨0, 7⟩) :: take 2 [0, 0, 0, 0, 0, 0] ++
    [.spawn (.promoteOne ⟨0, 7⟩ ⟨0, ⟨0, 7⟩, ⟨0, 0, 1⟩, 1, 11⟩), .spawn (.evictOne ⟨0, 7⟩ false)]

private def deletion : List (Event Call) :=
  .spawn (.delete ⟨0, 7⟩ false) :: take 5 [0, 0, 0, 0, 0, 0]

/-- They go on after it, and an EXISTS comes. -/
private def aftermath : List (Event Call) :=
  take 2 [0, 0, 0, 0] ++ take 4 [0] ++ take 3 [0, 0] ++
    .spawn (.contains ⟨0, 7⟩) :: take 6 [0, 0, 0]

/-- The EXISTS does not find the block, and nothing is left to do. -/
theorem delete_complete_busy : ∃ q₀ q₁ q₂ a b,
    after small inFlight = some q₀ ∧
      run (system small).next q₀ deletion = some q₁ ∧ answerOf q₁ 5 = some a ∧ a.status = .ok ∧
      run (system small).next q₁ aftermath = some q₂ ∧ Quiet q₂ ∧
      q₂.shared.dram.index ⟨0, 7⟩ = none ∧ answerOf q₂ 6 = some b ∧ b.status = .notFound := by
  have hrun : ∃ q₀ ∈ after small inFlight,
      ∃ q₁ ∈ run (system small).next q₀ deletion, ∃ q₂ ∈ run (system small).next q₁ aftermath,
        Along (system small).next (fun q e => orderly ⟨0, 7⟩ q e = true) q₀
          (deletion ++ aftermath) ∧
        q₀.threads.length = 5 ∧ q₁.threads.length = 6 ∧ Quiet q₂ ∧
        (∃ a ∈ answerOf q₁ 5, a.status = .ok) ∧
        ∃ t ∈ q₂.threads[6]?, t.call = .contains ⟨0, 7⟩ ∧ t.answer.isSome := by
    decide +kernel
  obtain ⟨q₀, h₀, q₁, h₁, q₂, h₂, halong, hlen₀, hlen₁, hquiet, ⟨a, ha, hst⟩, t, ht, hcall, hans⟩ :=
    hrun
  obtain ⟨b, hb⟩ := isSome_iff_exists.mp hans
  obtain ⟨hd, -, hafter⟩ := delete_complete Recovery.empty_sound h₀ h₁ (by rw [hlen₀]; exact ha)
    (.inl hst) h₂ (halong.mono fun q e h => inOrder_of_orderly h)
  refine ⟨q₀, q₁, q₂, a, b, h₀, h₁, ha, hst, h₂, hquiet, hd, ?_, ?_⟩
  · exact bind_eq_some_iff.mpr ⟨t, ht, hb⟩
  · exact hafter 6 t b (by omega) ht hb (.inr hcall)

/-- A demotion has written the record when a DELETE finds no entry below DRAM; it publishes
the entry and removes the block before the DELETE comes to DRAM. -/
private def demoteBetween : List (Event Call) :=
  putBlock ++ .spawn (.demoteOne ⟨0, 7⟩) :: take 2 [0, 0, 0, 0, 0, 0] ++
    .spawn (.delete ⟨0, 7⟩ false) :: take 3 [0] ++ take 2 [0, 0, 0, 0, 0, 0, 0] ++ take 3 [0, 0]

/-- The DELETE answers NOT_FOUND, nothing is left to do, and the key is on NVMe. -/
theorem delete_misses_demoted : ∃ q a,
    after small demoteBetween = some q ∧
      Quiet q ∧ answerOf q 3 = some a ∧ a.status = .notFound ∧
      q.shared.disk.index ⟨0, 7⟩ ≠ none := by
  have hrun : ∃ q ∈ after small demoteBetween,
      Quiet q ∧ (q.shared.disk.index ⟨0, 7⟩).isSome ∧ ∃ a ∈ answerOf q 3, a.status = .notFound := by
    decide +kernel
  obtain ⟨q, hq, hquiet, hsome, a, ha, hst⟩ := hrun
  exact ⟨q, a, hq, hquiet, ha, hst, isSome_iff_ne_none.mp hsome⟩

end KVStash.Tiered.DeleteComplete
