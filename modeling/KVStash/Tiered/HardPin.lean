/- GID: KVStash/Tiered/HardPin
   digest: A hard pin keeps its block in DRAM with its bytes, against every removal; GETs serve them
     and DELETEs are refused. -/

import KVStash.Tiered.ExtentSafety
import KVStash.Tiered.Footprint
import KVStash.Tiered.ReadGap

set_option autoImplicit false

namespace KVStash.Tiered.HardPin

open Protocol Dram Tiered Tiered.System Tiered.Logic Option
open Tiered.Node Tiered.Frames Tiered.Footprint
open Foundation.Run Foundation.Threads
open Dram.Tier (BlockRef Key)
open Tiered.Disk (NvmeRef)

variable {p : Params} {k : Key} {r : BlockRef} {data : List UInt8}

/-! ### What the window leaves out -/

def Unpins (k : Key) : Act → Prop
  | .dram (.pinOp k' sub) => k' = k ∧ (sub = .unpin ∨ sub = .pinSoft)
  | _ => False

/-- A DELETE that is not forced comes to an NVMe copy of the key under a lease. -/
def LeasedBelow (k : Key) (s : State) : Act → Prop
  | .disk (.deleteIf k' (.delete false)) => k' = k ∧
      ∃ e, s.disk.index k = some e ∧ (s.disk.cells e.id).leased s.dram.now = true
  | _ => False

/-- The thread at an index has its pin and is about to answer OK, or has done so. -/
def PinTaken (i : ℕ) (q : NodePool) : Prop :=
  ∃ t, q.threads[i]? = some t ∧
    (t.rest.head = some (.answer (.of .ok)) ∨ t.answer = some (.of .ok))

/-- The steps of the window that a hard pin of the thread `i` opens. -/
def Held (k : Key) (i : ℕ) (q : NodePool) (e : Event Call) : Prop :=
  PinTaken i q → ∀ x ∈ q.action e, ¬ Unpins k x ∧ ¬ LeasedBelow k q.shared x

/-! ### The pinned block -/

/-- The block is in DRAM under a hard pin, with its bytes. -/
structure Pinned (k : Key) (r : BlockRef) (data : List UInt8) (s : State) : Prop where
  indexed : s.dram.index k = some r
  unlocked : s.dram.locked k = false
  hard : (s.dram.cells r.id).hardPinned = true
  view : s.dram.view r.offset r.len = data

section Steps

variable {q : NodePool} {j env : ℕ} {x : Act} {y : x.Resp} {s' : State}

theorem Pinned.step (h : Pinned k r data q.shared) (hok : (logic p noAudit).Ok q)
    (hat : q.AtAction j x) (hun : ¬ Unpins k x) (hx : exec p x env q.shared = some (y, s')) :
    Pinned k r data s' := by
  obtain ⟨m, hm, -⟩ := hok.inv
  obtain ⟨hmint, hkey⟩ := hm.indexed k r h.indexed
  have hremove : x ≠ .dram (.remove k) := by
    rintro rfl
    obtain ⟨m', ⟨hd, -⟩, b, hin⟩ := needs_of_ok hok hat
    have hl := (hd.locked k).mpr ⟨b, hin⟩
    rw [h.unlocked] at hl
    cases hl
  constructor
  · rcases node_dram_index_cases k hx with hi | ⟨o, l, z, -, -, hnone, -⟩ | ⟨rfl, -⟩
    · rw [hi, h.indexed]
    · rw [h.indexed] at hnone
      cases hnone
    · exact absurd rfl hremove
  · rcases node_locked_cases k hx with hl | ⟨g, b, rfl, hb, hg⟩ | rfl
    · rw [hl, h.unlocked]
    · rw [h.indexed, some.injEq] at hb
      subst hb
      exact absurd hg (check_hard h.hard g _)
    · exact absurd rfl hremove
  · rcases node_hard_cases hx hmint.1 h.hard with hh | ⟨k', sub, b, rfl, hb, hid, hsub⟩
    · exact hh
    · obtain ⟨hmint', hkey'⟩ := hm.indexed k' b hb
      have hbr : b = r := by rw [← hmint'.2, hid, hmint.2]
      exact absurd ⟨by rw [← hkey', hbr, hkey], hsub⟩ hun
  · obtain ⟨m', hinv, hneeds⟩ := needs_of_ok hok hat
    rw [ExtentSafety.view_kept hinv hneeds hx h.indexed, h.view]

end Steps

/-! ### What the block's readers and its DELETEs are told -/

/-- The responses that a pinned block makes the tiers give. -/
def Answers (k : Key) (r : BlockRef) (data : List UInt8) : (x : Act) → x.Resp → Prop
  | .dram (.get k'), o => k' = k → o = some r
  | .dram (.acquire b), ok => b = r → ok = true
  | .dram (.view o n), v => o = r.offset → n = r.len → v = data
  | .dram (.gate k' (.delete _)), st => k' = k → st = .error .errPinned
  | .disk (.deleteIf k' (.delete _)), st => k' = k → st ≠ .error .errLeased
  | _, _ => True

private theorem canDeleteNvme_leased {c : Disk.NvmeCell} {now : ℕ} {force : Bool}
    (h : Disk.canDeleteNvme c now force = .errLeased) : force = false ∧ c.leased now = true := by
  unfold Disk.canDeleteNvme at h
  split at h
  · cases h
  split at h
  · cases h
  · next hf =>
    split at h
    · next hl => exact ⟨by simpa using hf, hl⟩
    · split at h <;> cases h

theorem Pinned.answers {q : NodePool} {x : Act} {y : x.Resp} {env : ℕ} {s' : State}
    (h : Pinned k r data q.shared) (hok : (logic p noAudit).Ok q)
    (hl : ¬ LeasedBelow k q.shared x) (hx : exec p x env q.shared = some (y, s')) :
    Answers k r data x y := by
  obtain ⟨m, hm, -⟩ := hok.inv
  unfold Answers
  split
  · next k' o =>
    rintro rfl
    obtain ⟨-, rfl, -⟩ := exec_get hx
    exact h.indexed
  · next b ok =>
    rintro rfl
    obtain ⟨hmint, hkey⟩ := hm.indexed k b h.indexed
    have hcount := hm.counted b hmint
    rw [hkey, if_pos h.indexed] at hcount
    change (Tier.exec p.dram (.acquire b) env q.shared.dram).map _ = some (ok, s') at hx
    unfold Tier.exec at hx
    dsimp only at hx
    rw [if_neg (by omega)] at hx
    cases hx
    rfl
  · next o n v =>
    rintro rfl rfl
    cases hx
    exact h.view
  · next k' force st =>
    rintro rfl
    change (Tier.exec p.dram (.gate k' (.delete force)) env q.shared.dram).map _ =
      some (st, s') at hx
    unfold Tier.exec at hx
    dsimp only at hx
    have hcheck : Tier.Gate.check (.delete force) (q.shared.dram.cells r.id) q.shared.dram.now =
        .errPinned := by
      unfold Tier.Gate.check Tier.canDelete
      dsimp only
      rw [if_pos h.hard]
    rw [h.unlocked, if_neg Bool.false_ne_true, h.indexed] at hx
    dsimp only at hx
    rw [hcheck] at hx
    cases hx
    rfl
  · next k' force st =>
    rintro rfl rfl
    change (Disk.exec q.shared.dram.now (.deleteIf k' (.delete force)) env q.shared.disk).map _ =
      some (Except.error Status.errLeased, s') at hx
    unfold Disk.exec at hx
    dsimp only at hx
    split at hx
    · cases hx
    next e he =>
    split at hx
    · cases hx
    have hst' : Disk.canDeleteNvme (q.shared.disk.cells e.id) q.shared.dram.now force =
        .errLeased :=
      Except.error.inj (congrArg Prod.fst (some.inj hx))
    obtain ⟨rfl, hlease⟩ := canDeleteNvme_leased hst'
    exact hl ⟨rfl, e, he, hlease⟩
  · trivial

/-- An answer that the window rules out: a GET without the bytes, a DELETE that is not
refused because of the pin. -/
def Wrong (k : Key) (data : List UInt8) : Call → Act → Prop
  | .delete k' _, .answer a => k' = k ∧ a.status ≠ .errPinned
  | .getRef k', .answer a => k' = k ∧ ¬ (a.status = .ok ∧ a.data = data)
  | _, _ => False

private theorem not_wrong {c : Call} {x : Act} (h : Inner x) : ¬ Wrong k data c x := by
  cases x with
  | answer a => exact h.elim
  | _ =>
    unfold Wrong
    split
    · next heq => cases heq
    · next heq => cases heq
    · exact id

private theorem getRef_avoids (hdata : r.len = 0 → data = []) :
    (Calls.getRefTier p k).Avoids (Wrong k data (.getRef k)) (Answers k r data) := by
  have hserve : ∀ lease, (ReadGap.afterDram p k (some ⟨r, data, lease⟩)).Avoids
      (Wrong k data (.getRef k)) (Answers k r data) := by
    intro lease
    refine ⟨fun h => h.2 ⟨rfl, rfl⟩, fun _ _ => ?_⟩
    exact ((release_inner r).mono fun _ h => not_wrong h).avoids _
  rw [ReadGap.getRefTier_eq]
  refine ⟨id, fun o ho => ?_⟩
  rw [show o = some r from ho rfl]
  refine ⟨id, fun ok hok => ?_⟩
  rw [show ok = true from hok rfl]
  refine ⟨id, fun now _ => ⟨id, fun _ _ => ⟨id, fun _ _ => ⟨id, fun _ _ => ?_⟩⟩⟩⟩
  change (((if 0 < r.len then dram (.view r.offset r.len) else pure []) >>= _) >>= _).Avoids _ _
  split
  · refine ⟨id, fun v hv => ?_⟩
    rw [show v = data from hv rfl rfl]
    exact hserve _
  · next hlen =>
    rw [hdata (by omega)] at hserve ⊢
    exact hserve _

private theorem delete_avoids (force : Bool) : (replying (Calls.delete p k force)).Avoids
    (Wrong k data (.delete k force)) (Answers k r data) := by
  have hpinned : (answer (.of .errPinned) : Code Unit).Avoids (Wrong k data (.delete k force))
      (Answers k r data) := ⟨fun h => h.2 rfl, fun _ _ => trivial⟩
  have hgate : ∀ g : Except Status BlockRef → Code Unit, g (.error .errPinned) =
      answer (.of .errPinned) → (dram (.gate k (.delete force)) >>= g).Avoids
        (Wrong k data (.delete k force)) (Answers k r data) := by
    intro g hg
    refine ⟨id, fun st hst => ?_⟩
    rw [show st = .error .errPinned from hst rfl]
    change (g (.error .errPinned)).Avoids _ _
    rw [hg]
    exact hpinned
  refine ⟨id, fun st hst => ?_⟩
  cases st with
  | error st =>
    cases st with
    | errLeased => exact absurd rfl (hst rfl)
    | errPinned => exact hpinned
    | _ => exact hgate _ rfl
  | ok e =>
    change ((((Calls.refundNvmeQuota p k.ns e >>= fun _ => pure (Except.ok e)) >>= _) >>= _) :
      Code Unit).Avoids _ _
    rw [Prog.bind_assoc, Prog.bind_assoc]
    apply Prog.avoids_bind ((refund_inner _ e).mono fun _ h => not_wrong h)
    intro _
    exact hgate _ rfl

theorem body_avoids (hdata : r.len = 0 → data = []) (c : Call) :
    (body p c).Avoids (Wrong k data c) (Answers k r data) := by
  by_cases hwrong : ∃ x, Wrong k data c x
  · obtain ⟨x, hx⟩ := hwrong
    unfold Wrong at hx
    split at hx
    · obtain ⟨rfl, -⟩ := hx
      exact delete_avoids _
    · obtain ⟨rfl, -⟩ := hx
      exact getRef_avoids hdata
    · exact hx.elim
  · exact (Prog.every_of_forall (fun x hx => hwrong ⟨x, hx⟩) _).avoids _

/-! ### The thread that pins -/

/-- The pin is still to come, and an OK with it. -/
inductive Coming (k : Key) : Code Unit → Prop
  | pin (f : Status → Code Unit) (hok : f .ok = answer (.of .ok))
    (h : ∀ st, st ≠ .ok → Coming k (f st)) : Coming k (.act (.dram (.pinOp k .pinHard)) f)
  | other (x : Act) (f : x.Resp → Code Unit) (hx : ∀ a, x = .answer a → a.status ≠ .ok)
    (h : ∀ y, Coming k (f y)) : Coming k (.act x f)
  | done (u : Unit) : Coming k (.ret u)

private theorem coming_answer {st : Status} (h : st ≠ .ok) : Coming k (answer (.of st)) := by
  refine .other _ _ ?_ fun _ => .done _
  rintro a ⟨⟩
  exact h

private theorem coming_bind {α : Type} {c : Code α} {f : α → Code Unit} (hc : c.Every Inner)
    (hf : ∀ x, Coming k (f x)) : Coming k (c >>= f) := by
  induction c with
  | ret x => exact hf x
  | act a g ih =>
    refine .other a _ ?_ fun y => ih y (hc.2 y)
    rintro b rfl
    exact hc.1.elim

theorem pinOp_coming : Coming k (body p (.pinOp k .pinHard)) := by
  have hpin : Coming k (replying (Tier.pinOp k .pinHard)) :=
    .pin _ rfl fun st hst => coming_answer hst
  refine .pin _ rfl fun st hst => ?_
  cases st with
  | ok => exact absurd rfl hst
  | notFound =>
    refine .other _ _ (by rintro a ⟨⟩) fun o => ?_
    cases o with
    | none => exact coming_answer Status.noConfusion
    | some e =>
      change Coming k ((Calls.promoteSync p k e >>= _) >>= _)
      rw [Prog.bind_assoc]
      apply coming_bind (promoteSync_inner e)
      intro st
      cases st with
      | ok => exact hpin
      | _ => exact coming_answer Status.noConfusion
  | _ => exact coming_answer hst

inductive Stage (k : Key) (s : State) : Code Unit → Prop
  | coming (c : Code Unit) (h : Coming k c) : Stage k s c
  | taken (r : BlockRef) (data : List UInt8) (h : Pinned k r data s) : Stage k s (answer (.of .ok))
  | done (u : Unit) : Stage k s (.ret u)

/-- What an OK tells: the block is pinned. -/
def Told (k : Key) (s : State) (a : Answer) : Prop :=
  a.status = .ok → a = .of .ok ∧ ∃ r data, Pinned k r data s

private theorem pin_made {s s' : State} {env : ℕ}
    (hx : exec p (.dram (.pinOp k .pinHard)) env s = some (Status.ok, s')) :
    ∃ r data, Pinned k r data s' := by
  obtain ⟨d', hy, rfl⟩ := exec_dram hx
  unfold Tier.exec at hy
  dsimp only at hy
  split at hy
  · cases hy
  next hl =>
  have hd := some.inj hy
  unfold Tier.Store.pinOp at hd
  cases hk : s.dram.index k with
  | none =>
    rw [hk] at hd
    cases hd
  | some r =>
    rw [hk] at hd
    unfold Tier.Store.pin at hd
    dsimp only at hd
    rw [if_pos rfl] at hd
    have hmade : ∀ d : Tier.Store, d.index = s.dram.index → d.locked = s.dram.locked →
        ∃ b data, Pinned k b data
          { s with dram := d.onCell r fun c => { c with pinFlags := .hard } } := by
      intro d hi hlock
      refine ⟨r, _, ?_, ?_, ?_, rfl⟩
      · change d.index k = some r
        rw [hi, hk]
      · change d.locked k = false
        rw [hlock]
        simpa using hl
      · change (Function.update d.cells r.id _ r.id).hardPinned = true
        rw [Function.update_self]
        rfl
    split at hd
    · cases hd
      exact hmade s.dram rfl rfl
    split at hd
    · cases hd
    · cases hd
      exact hmade { s.dram with pinned := _ } rfl rfl

section Run

variable {q q' : NodePool} {i : ℕ} {e : Event Call}

def Pinning (k : Key) (i : ℕ) (q : NodePool) : Prop :=
  q.Follows i (Stage k q.shared) (Told k q.shared)

private theorem Pinned.next (h : Pinned k r data q.shared) (hok : (logic p noAudit).Ok q)
    (hh : Held k i q e) (ht : PinTaken i q) (he : (system p).next q e = some q') :
    Pinned k r data q'.shared := by
  cases e with
  | spawn c =>
    cases he
    exact h
  | step j env =>
    obtain ⟨u, x, f, y, s, hu, hr, hx, rfl⟩ := System.next_step he
    have hat : q.AtAction j x := ⟨u, f, hu, hr⟩
    exact h.step hok hat (hh ht x (Pool.action_step_eq_some.mpr hat)).1 hx

theorem Pinning.next (h : Pinning k i q) (hok : (logic p noAudit).Ok q) (hh : Held k i q e)
    (he : (system p).next q e = some q') : Pinning k i q' := by
  apply Pool.Follows.next (T := fun q => Stage k q.shared) (U := fun q => Told k q.shared) h he
  · intro t a ht ha htold hst
    obtain ⟨rfl, r, data, hp⟩ := htold hst
    exact ⟨rfl, r, data, hp.next hok hh ⟨t, ht, .inr ha⟩ he⟩
  · intro t _ ht hst
    generalize hc : t.rest = c at hst
    cases hst with
    | coming c h => exact .coming c h
    | taken r data hp =>
      refine .taken r data (hp.next hok hh ⟨t, ht, .inl ?_⟩ he)
      rw [hc]
      rfl
    | done u => exact .done u
  · rintro env x f y rfl hat hst hx
    generalize hc : (Prog.act x f : Code Unit) = c at hst
    cases hst with
    | coming c hcoming =>
      cases hcoming with
      | pin g hpin hst =>
        cases hc
        refine ⟨?_, fun a ha => by cases ha⟩
        by_cases hy : y = .ok
        · subst hy
          rw [hpin]
          obtain ⟨r, data, hp⟩ : ∃ r data, Pinned k r data q'.shared := pin_made hx
          exact .taken r data hp
        · exact .coming _ (hst y hy)
      | other x' g hx' hg =>
        cases hc
        refine ⟨.coming _ (hg y), fun a ha hst => ?_⟩
        cases x with
        | answer b =>
          cases ha
          exact absurd hst (hx' a rfl)
        | _ => cases ha
      | done u => cases hc
    | taken r data hp =>
      cases hc
      refine ⟨.done _, fun a ha _ => ?_⟩
      cases ha
      have hs : q.shared = q'.shared := congrArg Prod.snd (some.inj hx)
      exact ⟨rfl, r, data, hs ▸ hp⟩
    | done u => cases hc

end Run

section Window

variable {q q' : NodePool} {i : ℕ} {e : Event Call}

private theorem pinTaken_of_answer (h : answerOf q i = some (.of .ok)) : PinTaken i q := by
  obtain ⟨t, ht, ha⟩ := bind_eq_some_iff.mp h
  exact ⟨t, ht, .inr ha⟩

/-- The block is pinned, the pin answered, and the calls from an index on do not go wrong. -/
structure Window (p : Params) (k : Key) (r : BlockRef) (data : List UInt8) (i n : ℕ)
    (q : NodePool) : Prop where
  ok : (logic p noAudit).Ok q
  pinned : Pinned k r data q.shared
  answered : answerOf q i = some (.of .ok)
  careful : (system p).Careful (Wrong k data) (Answers k r data) n q

theorem Window.next {n : ℕ} (h : Window p k r data i n q) (hh : Held k i q e)
    (he : (system p).next q e = some q') : Window p k r data i n q' where
  ok := h.ok.next (fun c hc => body_triple c hc) (noAudit_meets q e) he
  pinned := h.pinned.next h.ok hh (pinTaken_of_answer h.answered) he
  answered := System.next_answer he h.answered
  careful := by
    have hdata : r.len = 0 → data = [] := by
      intro hlen
      rw [← h.pinned.view, hlen]
      rfl
    apply h.careful.next (fun c => body_avoids hdata c) he
    rintro j env x y rfl hat hx
    have hl := hh (pinTaken_of_answer h.answered) x (Pool.action_step_eq_some.mpr hat)
    exact h.pinned.answers h.ok hl.2 hx

end Window

/-- A PIN_HARD starts in any reachable state and answers OK. In every run from there
without an UNPIN or PIN_SOFT of the key, and in which no DELETE that is not forced comes to
an NVMe copy of the key under a lease, the key keeps its block in DRAM with the same bytes;
every DELETE of it that starts answers ERR_PINNED, every GET OK with those bytes. -/
theorem hard_pin_holds {v : Recovery} (hv : v.Sound) {now : ℕ} {es₀ es₁ es₂ : List (Event Call)}
    {q₀ q₁ q₂ : NodePool} (h₀ : run (system p).next (Pool.start (v.start now)) es₀ = some q₀)
    (h₁ : run (system p).next q₀ (.spawn (.pinOp k .pinHard) :: es₁) = some q₁)
    {a : Answer} (ha : answerOf q₁ q₀.threads.length = some a) (hst : a.status = .ok)
    (h₂ : run (system p).next q₁ es₂ = some q₂)
    (hh : Along (system p).next (Held k q₀.threads.length) q₀
      (.spawn (.pinOp k .pinHard) :: es₁ ++ es₂)) :
    ∃ r, q₁.shared.dram.index k = some r ∧ q₂.shared.dram.index k = some r ∧
      q₂.shared.dram.view r.offset r.len = q₁.shared.dram.view r.offset r.len ∧
      ∀ j t b, q₁.threads.length ≤ j → q₂.threads[j]? = some t → t.answer = some b →
        (∀ force, t.call = .delete k force → b.status = .errPinned) ∧
        (t.call = .getRef k → b.status = .ok ∧ b.data = q₁.shared.dram.view r.offset r.len) := by
  obtain ⟨hh₁, hh₂⟩ := (along_append h₁).mp hh
  obtain ⟨q, hspawn, hrun⟩ := run_cons_eq_some h₁
  have hok : (logic p noAudit).Ok q :=
    (ok_of_run hv h₀).next (fun c hc => body_triple c hc) (noAudit_meets q₀ _) hspawn
  have hstart : Pinning k q₀.threads.length q := by
    cases hspawn
    exact Pool.follows_spawn (.coming _ pinOp_coming)
  obtain ⟨hok₁, t, ht, htold, -⟩ : (logic p noAudit).Ok q₁ ∧ Pinning k q₀.threads.length q₁ := by
    apply run_invariant (I := fun q => (logic p noAudit).Ok q ∧ Pinning k q₀.threads.length q) ?_
      ⟨hok, hstart⟩ (hh₁.2 q hspawn) hrun
    rintro q e q' ⟨hok, hpin⟩ hc he
    exact ⟨hok.next (fun c hc => body_triple c hc) (noAudit_meets q e) he, hpin.next hok hc he⟩
  have hta : t.answer = some a := by
    unfold answerOf at ha
    rwa [ht] at ha
  obtain ⟨rfl, r, data, hp⟩ := htold a hta hst
  have hw : Window p k r data q₀.threads.length q₁.threads.length q₂ :=
    run_invariant (fun _ _ _ h hc he => h.next hc he)
      ⟨hok₁, hp, ha, System.careful_length q₁⟩ hh₂ h₂
  refine ⟨r, hp.indexed, hw.pinned.indexed, hw.pinned.view.trans hp.view.symm, ?_⟩
  intro j t b hj ht hb
  obtain ⟨x, hx, hgood⟩ := (hw.careful j t hj ht).2 b hb
  cases x with
  | answer b' =>
    cases hx
    constructor
    · intro force hcall
      rw [hcall] at hgood
      by_contra hne
      exact hgood ⟨rfl, hne⟩
    · intro hcall
      rw [hcall] at hgood
      rw [hp.view]
      by_contra hne
      exact hgood ⟨rfl, hne⟩
  | _ => cases hx

/-- It is pinned where it is. -/
private def pinBlock : List (Event Call) := take 2 [0, 0]

/-- A forced DELETE, a GET and an emergency eviction. -/
private def challenge : List (Event Call) :=
  .spawn (.delete ⟨0, 7⟩ true) :: take 3 [0, 0, 0] ++ .spawn (.getRef ⟨0, 7⟩) ::
    take 4 [0, 0, 0, 0, 0, 0, 0, 0] ++ .spawn (.evictOne ⟨0, 7⟩ true) :: take 5 [0]

private def quietly : Act → Bool
  | .dram (.pinOp _ sub) => decide (sub = .pinHard)
  | .disk (.deleteIf _ (.delete false)) => false
  | _ => true

private theorem held_of_quietly {i : ℕ} {q : NodePool} {e : Event Call}
    (h : (q.action e).all quietly = true) : Held k i q e := by
  intro _ x hx
  have hq := (all_eq_true _ _).mp h x hx
  constructor
  · intro hu
    unfold Unpins at hu
    split at hu
    · rw [of_decide_eq_true hq] at hu
      rcases hu.2 with h | h <;> cases h
    · exact hu
  · intro hl
    unfold LeasedBelow at hl
    split at hl
    · cases hq
    · exact hl

/-- The DELETE is refused, the GET served and the block still there. -/
theorem hard_pin_holds_challenged : ∃ q₀ q₁ q₂ r b c,
    after small putBlock = some q₀ ∧
      run (system small).next q₀ (.spawn (.pinOp ⟨0, 7⟩ .pinHard) :: pinBlock) = some q₁ ∧
      run (system small).next q₁ challenge = some q₂ ∧
      q₂.shared.dram.index ⟨0, 7⟩ = some r ∧ answerOf q₂ 3 = some b ∧ b.status = .errPinned ∧
      answerOf q₂ 4 = some c ∧ c.status = .ok ∧
      c.data = q₁.shared.dram.view r.offset r.len := by
  have hrun : ∃ q₀ ∈ after small putBlock,
      ∃ q₁ ∈ run (system small).next q₀ (.spawn (.pinOp ⟨0, 7⟩ .pinHard) :: pinBlock),
      ∃ q₂ ∈ run (system small).next q₁ challenge,
        Along (system small).next (fun q e => (q.action e).all quietly = true) q₀
          (.spawn (.pinOp ⟨0, 7⟩ .pinHard) :: pinBlock ++ challenge) ∧
        (∃ a ∈ answerOf q₁ q₀.threads.length, a.status = .ok) ∧ q₁.threads.length = 3 ∧
        (∃ t ∈ q₂.threads[3]?, t.call = .delete ⟨0, 7⟩ true ∧ t.answer.isSome) ∧
        ∃ t ∈ q₂.threads[4]?, t.call = .getRef ⟨0, 7⟩ ∧ t.answer.isSome := by
    decide +kernel
  obtain ⟨q₀, h₀, q₁, h₁, q₂, h₂, halong, ⟨a, ha, hst⟩, hlen, ⟨t, ht, htc, hb⟩, u, hu, huc, hc⟩ :=
    hrun
  obtain ⟨b, hb⟩ := isSome_iff_exists.mp hb
  obtain ⟨c, hc⟩ := isSome_iff_exists.mp hc
  obtain ⟨r, -, hr, -, hwatch⟩ := hard_pin_holds Recovery.empty_sound h₀ h₁ ha hst h₂
    (halong.mono fun q e h => held_of_quietly h)
  have hdel := (hwatch 3 t b (by omega) ht hb).1 true htc
  have hget := (hwatch 4 u c (by omega) hu hc).2 huc
  refine ⟨q₀, q₁, q₂, r, b, c, h₀, h₁, h₂, hr, ?_, hdel, ?_, hget.1, hget.2⟩
  · exact bind_eq_some_iff.mpr ⟨t, ht, hb⟩
  · exact bind_eq_some_iff.mpr ⟨u, hu, hc⟩

/-- A block is put, demoted and read from NVMe, where its entry gets a lease. -/
private def readBelow : List (Event Call) :=
  putDemote ++
    .spawn (.getRef ⟨0, 7⟩) :: take 3 [0, 0, 0, 0, 0, 0]

/-- A hard pin promotes it. -/
private def promoteAndPin : List (Event Call) := take 4 [0, 0, 0, 0, 1, 0, 0, 0, 0, 0]

/-- A DELETE of the pinned block answers ERR_LEASED: it asks the NVMe copy first. -/
theorem hard_pin_answers_leased : ∃ q₀ q₁ q₂ a b,
    after leasing readBelow = some q₀ ∧
      run (system leasing).next q₀ (.spawn (.pinOp ⟨0, 7⟩ .pinHard) :: promoteAndPin) = some q₁ ∧
      answerOf q₁ 4 = some a ∧ a.status = .ok ∧
      run (system leasing).next q₁ (.spawn (.delete ⟨0, 7⟩ false) :: take 5 [0, 0]) = some q₂ ∧
      answerOf q₂ 5 = some b ∧ b.status = .errLeased := by
  have hrun : ∃ q₀ ∈ after leasing readBelow,
      ∃ q₁ ∈ run (system leasing).next q₀ (.spawn (.pinOp ⟨0, 7⟩ .pinHard) :: promoteAndPin),
        (∃ a ∈ answerOf q₁ 4, a.status = .ok) ∧
        ∃ q₂ ∈ run (system leasing).next q₁ (.spawn (.delete ⟨0, 7⟩ false) :: take 5 [0, 0]),
          ∃ b ∈ answerOf q₂ 5, b.status = .errLeased := by
    decide +kernel
  obtain ⟨q₀, h₀, q₁, h₁, ⟨a, ha, hst⟩, q₂, h₂, b, hb, hst'⟩ := hrun
  exact ⟨q₀, q₁, q₂, a, b, h₀, h₁, ha, hst, h₂, hb, hst'⟩

end KVStash.Tiered.HardPin
