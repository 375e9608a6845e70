/- GID: KVStash/Tiered/Logic/Node
   digest: Every run of a node keeps its invariant, from every state that a recovery starts. -/

import KVStash.Tiered.Logic.Passes

set_option autoImplicit false

namespace KVStash.Tiered.Logic

open Protocol Dram Tiered.Node Tiered.System
open Foundation.Run Foundation.Threads Foundation.Resource
open Foundation.Resource.Logic (Triple)
open Dram.Tier (Key Audit)
open Tiered.Disk (Tiers)

variable {p : Params} {a : Audit}

/-! ### Calls -/

/-- The calls an audit covers. For the ledger a digest stands for one length, and a
demotion is completed by the pass that began it. -/
def Covered (a : Audit) : Call → Prop
  | .put _ data x => a.ledger → data.length = a.lenOf x
  | .dramPut _ data x => a.ledger → data.length = a.lenOf x
  | .completeDemotion _ _ => a.ledger = false
  | _ => True

private theorem replying_triple {c : Code Status} (h : (logic p a).Triple c 0 fun _ m => m = 0) :
    (logic p a).Triple (replying c) 0 fun _ m => m = 0 := by
  apply Triple.bind
  apply h.mono
  rintro st m rfl
  exact triple_answer (f := .ret) rfl

private theorem replyingLease_triple {c : Code (Status × ℕ)}
    (h : (logic p a).Triple c 0 fun _ m => m = 0) :
    (logic p a).Triple (replyingLease c) 0 fun _ m => m = 0 := by
  apply Triple.bind
  apply h.mono
  rintro st m rfl
  exact triple_answer (f := .ret) rfl

private theorem dramGetRef_triple (k : Key) :
    (logic p a).Triple (System.dramGetRef p k) 0 fun _ m => m = 0 := by
  apply Triple.bind
  apply (getRef_triple k).mono
  rintro o m ⟨hsome, hnone⟩
  cases o with
  | none =>
    rw [hnone rfl]
    exact triple_answer (f := .ret) rfl
  | some h =>
    rw [hsome h rfl]
    apply triple_answer
    exact release_triple h.ref

private theorem refForDemotion_call_triple (k : Key) :
    (logic p a).Triple (System.refForDemotion k) 0 fun _ m => m = 0 := by
  apply Triple.bind
  apply (refForDemotion_triple k).mono
  rintro o m ⟨hsome, hnone⟩
  cases o with
  | none =>
    rw [hnone rfl]
    exact triple_answer (f := .ret) rfl
  | some d =>
    rw [(hsome d rfl).1]
    apply triple_answer
    exact release_triple d.ref

private theorem completeDemotion_call_triple (k : Key) (x : ℕ) (ha : a.ledger = false) :
    (logic p a).Triple (System.completeDemotion k x) 0 fun _ m => m = 0 := by
  apply Triple.bind
  apply (completeDemotion_triple k x).mono
  rintro b m ⟨htrue, hfalse⟩
  have hm : m = 0 := by
    cases b with
    | false => exact hfalse rfl
    | true =>
      obtain ⟨n, rfl, -⟩ := htrue rfl
      simp [Tier.owe, ha]
  rw [hm]
  exact triple_answer (f := .ret) rfl

theorem body_triple (c : Call) (hc : Covered a c) :
    (logic p a).Triple (body p c) 0 fun _ m => m = 0 := by
  cases c with
  | put k data x => exact replying_triple (put_triple k data hc)
  | getRef k => exact getRefTier_triple k
  | contains k => exact contains_triple k
  | delete k force => exact replying_triple (delete_triple k force)
  | touchLease k sub ttlMS => exact replyingLease_triple (touchLease_triple k sub ttlMS)
  | pinOp k sub => exact replying_triple (pinOp_triple k sub)
  | dramPut k data x => exact replying_triple (dramPut_triple k data hc)
  | dramGetRef k => exact dramGetRef_triple k
  | dramDelete k force => exact replying_triple (dramDelete_triple k force)
  | dramTouchLease k sub ttlMS => exact replyingLease_triple (dramTouchLease_triple k sub ttlMS)
  | dramPinOp k sub => exact replying_triple (dramPinOp_triple k sub 0)
  | evictOne k emergency =>
    apply Triple.bind
    apply (dramEvictOne_triple k emergency).mono
    rintro _ m rfl
    exact rfl
  | refForDemotion k => exact refForDemotion_call_triple k
  | completeDemotion k x => exact completeDemotion_call_triple k x hc
  | demoteOne k => exact demoteOne_triple k
  | promoteOne k e => exact replying_triple (promoteOne_triple k e)
  | reclaimSegment from_ => exact reclaimSegment_triple from_
  | spillOne id => exact spillOne_triple id
  | restoreOne k e => exact restoreOne_triple k e
  | lateAdopt id => exact lateAdopt_triple id
  | collectOne => exact collectOne_triple
  | rotate => exact rotate_triple
  | tryRecoverWrites => exact tryRecoverWrites_triple
  | advance d =>
    change (logic p a).Triple (dram (.advance d) >>= .ret) _ _
    apply triple_dram_same (Tier.advance_holds d) trivial
    intro _
    exact rfl

/-! ### Recovery -/

/-- What an audit of the ledger assumes of a recovery: keys are distinct and records
have the length their digest stands for. -/
structure Sized (a : Audit) (v : Recovery) : Prop where
  distinct : a.ledger → (v.entries.map RecoveredEntry.key).Nodup
  sized : a.ledger → ∀ id, ∀ rec ∈ v.log id, rec.data.length = a.lenOf rec.xxh3

variable {v : Recovery}

private theorem volume_inv (hv : v.Sound) (hz : Sized a v) : Disk.Inv a v.volume 0 where
  ids i hi := absurd hi (Nat.not_lt_zero i)
  indexed k r h := by cases h
  recorded k r h := by cases h
  home k r h := by cases h
  cold k r h := by cases h
  spilled k r g h := by cases h
  files id g h := by
    simp only [Recovery.volume] at h
    split at h
    · next hp =>
      cases h
      exact ⟨hv.minted id hp, by simp, by simp⟩
    · cases h
  active id h := by cases h
  latched id := by simp [Recovery.volume]
  stage id st h := by simp at h
  dying id g h hd := by
    simp only [Recovery.volume] at h
    split at h
    · cases h
      cases hd
    · cases h
  footer id ks h := by simp at h
  wrote loc k x h := by simp at h
  writing id := by simp [Recovery.volume]
  gone r b h := by simp at h
  counted id := by simp [Recovery.volume, Disk.total]
  sized hl id rec h := hz.sized hl id rec h
  nvmeLedger hl ns := by simp [Recovery.volume, Disk.total]
  s3Ledger hl ns := by simp [Recovery.volume, Disk.total]

/-- What seeding the index leaves alone. -/
private structure Seeded (v : Recovery) (t : Tiers) : Prop where
  log : t.log = v.log
  segs : t.segs = v.volume.segs
  warm : ∀ i, (t.cells i).s3Only = false

private theorem seed_inv (hv : v.Sound) {t : Tiers} {e : RecoveredEntry}
    (he : e ∈ v.entries) (h : Disk.Inv a t 0) (hs : Seeded v t)
    (hfree : a.ledger → t.index e.key = none) : Disk.Inv a (seed t e) 0 ∧ Seeded v (seed t e) := by
  obtain ⟨hp, hpos, rec, hrec, hkey, hx, hlen⟩ := hv.found e he
  have hdata : t.recordAt e.loc e.key e.xxh3 = some rec.data := by
    unfold Tiers.recordAt
    rw [hs.log, hrec]
    simp [hkey, hx, hlen]
  refine ⟨?_, ?_⟩
  · apply h.putThen (g := ⟨true, false, false⟩) ?_ rfl hpos hdata
    · intro st hst
      simp at hst
    · exact hfree
    · exact fun _ r _ => hs.warm r.id
    · rw [hs.segs]
      simp [Recovery.volume, hp]
  · refine ⟨hs.log, hs.segs, fun i => ?_⟩
    change (Function.update t.cells t.next _ i).s3Only = false
    by_cases hi : i = t.next
    · rw [hi, Function.update_self]
    · rw [Function.update_of_ne hi]
      exact hs.warm i

private theorem seeds_inv (hv : v.Sound) (es : List RecoveredEntry) {t : Tiers}
    (hes : ∀ e ∈ es, e ∈ v.entries) (h : Disk.Inv a t 0) (hs : Seeded v t)
    (hd : a.ledger → (es.map RecoveredEntry.key).Nodup)
    (hfree : a.ledger → ∀ e ∈ es, t.index e.key = none) : Disk.Inv a (es.foldl seed t) 0 := by
  induction es generalizing t with
  | nil => exact h
  | cons e es ih =>
    obtain ⟨h', hs'⟩ := seed_inv hv (hes e (by simp)) h hs fun hl => hfree hl e (by simp)
    apply ih (fun x hx => hes x (List.mem_cons_of_mem _ hx)) h' hs'
    · exact fun hl => (List.nodup_cons.mp (hd hl)).2
    intro hl x hx
    have hne : x.key ≠ e.key := by
      intro hk
      apply (List.nodup_cons.mp (hd hl)).1
      rw [← hk]
      exact List.mem_map_of_mem hx
    rw [seed, Disk.putThen_index_ne hne]
    exact hfree hl x (List.mem_cons_of_mem _ hx)

theorem start_inv (hv : v.Sound) (hz : Sized a v) (now : ℕ) : Inv p a (v.start now) 0 := by
  refine ⟨Tier.start_inv now, ?_⟩
  apply seeds_inv hv v.entries (fun _ he => he) (volume_inv hv hz)
  · exact ⟨rfl, rfl, fun _ => rfl⟩
  · exact hz.distinct
  · exact fun _ _ _ => rfl

/-! ### Runs -/

/-- A run of a node from what a recovery starts, along which every call is covered
and every step is taken under its guard. -/
structure Reaches (p : Params) (a : Audit) (v : Recovery) (now : ℕ) (es : List (Event Call))
    (q : NodePool) : Prop where
  run : run (system p).next (Pool.start (v.start now)) es = some q
  meets : Along (system p).next ((logic p a).Meets (Covered a)) (Pool.start (v.start now)) es

theorem Reaches.ok (hv : v.Sound) (hz : Sized a v) {now : ℕ}
    {es : List (Event Call)} {q : NodePool} (h : Reaches p a v now es q) : (logic p a).Ok q :=
  Logic.Ok.run (fun c hc => body_triple c hc) (Logic.Ok.start (start_inv hv hz now)) h.meets h.run

theorem needs_of_ok {q : NodePool} (h : (logic p a).Ok q) {i : ℕ} {x : Act}
    (hx : q.AtAction i x) : ∃ m, Inv p a q.shared m ∧ Needs x m := by
  obtain ⟨m, f, hi, hn⟩ := h.owns hx
  exact ⟨m + f, hi, Needs.add f hn⟩

/-- The audit that checks neither the ledger nor the counts: it covers every run. -/
def noAudit : Audit := ⟨false, false, fun _ => 0⟩

theorem noAudit_meets (q : NodePool) (e : Event Call) :
    (logic p noAudit).Meets (Covered noAudit) q e := by
  cases e with
  | spawn c =>
    change Covered noAudit c
    cases c <;> first | trivial | exact (nomatch ·)
  | step i env =>
    intro x _
    change Guard noAudit x q.shared
    cases x <;> first | trivial | exact ⟨(nomatch ·), (nomatch ·)⟩

theorem ok_of_run (hv : v.Sound) {now : ℕ} {es : List (Event Call)} {q : NodePool}
    (hr : run (system p).next (Pool.start (v.start now)) es = some q) : (logic p noAudit).Ok q := by
  have hz : Sized noAudit v := ⟨(nomatch ·), (nomatch ·)⟩
  exact Reaches.ok hv hz ⟨hr, along_true.mono fun q e _ => noAudit_meets q e⟩

end KVStash.Tiered.Logic
