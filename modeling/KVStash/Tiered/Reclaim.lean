/- GID: KVStash/Tiered/Reclaim
   digest: A retire spares protected entries, finishes only over S3-only ones and otherwise gives
     the segment back. -/

import KVStash.Tiered.Logic.Node

set_option autoImplicit false

namespace KVStash.Tiered.Reclaim

open Protocol Dram Tiered Tiered.System Tiered.Logic Option
open Tiered.Node Foundation.Run Foundation.Threads
open Dram.Tier (Key)
open Tiered.Disk (Homed NvmeRef Tiers)

/-! ### What a reclaim pass does -/

/-- The actions of a reclaim pass below DRAM. -/
def SweepAct : Disk.Act → Prop
  | .oldestSealed _ | .latch _ | .protectedIn _ _ _ | .retireBegin _ | .isSpilled _
  | .segmentEntryKeys _ | .flipRetired _ _ | .deleteIf _ (.retire _) | .loadS3Only _ | .segSub _
  | .gcMark _ | .gcSend _ | .gcUnmark _ | .refundS3 _ _ | .refundNvme _ _ | .retireAbort _
  | .retireFinish _ | .unlatch _ => True
  | _ => False

/-- An action of a reclaim pass with what follows it: an entry that has to stay makes
the pass abort. -/
def Sweeps : (a : Act) → (a.Resp → Code Unit) → Prop
  | .dram .now, _ => True
  | .disk (.flipRetired _ id), k => (k true).head = some (.disk (.retireAbort id))
  | .disk (.deleteIf _ (.retire id)), k =>
    (k (.error .errLeased)).head = some (.disk (.retireAbort id))
  | .disk a, _ => SweepAct a
  | _, _ => False

section Programs

variable {p : Params} {id : ℕ} {f : Bool → Code Unit}

private theorem enqueueObjectGC_sweeps {f : Unit → Code Unit} (hf : ∀ u, (f u).Always Sweeps) :
    (Calls.enqueueObjectGC p id >>= f).Always Sweeps := by
  unfold Calls.enqueueObjectGC
  split
  · refine ⟨trivial, fun marked => ?_⟩
    cases marked with
    | true => exact hf ()
    | false =>
      refine ⟨trivial, fun sent => ?_⟩
      cases sent with
      | true => exact hf ()
      | false => exact ⟨trivial, hf⟩
  · exact hf ()

private theorem refundNvmeQuota_sweeps {ns : ℕ} {r : NvmeRef} {f : Unit → Code Unit}
    (hf : ∀ u, (f u).Always Sweeps) : (Calls.refundNvmeQuota p ns r >>= f).Always Sweeps := by
  unfold Calls.refundNvmeQuota
  split
  · exact hf ()
  refine ⟨trivial, fun cold => ?_⟩
  cases cold with
  | false => exact ⟨trivial, hf⟩
  | true =>
    refine ⟨trivial, fun last => ?_⟩
    cases last with
    | false => exact ⟨trivial, hf⟩
    | true =>
      change ((Calls.enqueueObjectGC p _ >>= fun _ => disk (.refundS3 ns r.len)) >>= f).Always _
      rw [Prog.bind_assoc]
      exact enqueueObjectGC_sweeps fun _ => ⟨trivial, hf⟩

private theorem s3FlipRetired_sweeps (keys : List Key)
    (hstay : (f true).head = some (.disk (.retireAbort id))) (hf : ∀ b, (f b).Always Sweeps) :
    (Calls.s3FlipRetired id keys >>= f).Always Sweeps := by
  induction keys with
  | nil => exact hf false
  | cons k ks ih =>
    refine ⟨hstay, fun stays => ?_⟩
    cases stays with
    | true => exact hf true
    | false => exact ih

private theorem dropRetired_sweeps (keys : List Key)
    (hstay : (f true).head = some (.disk (.retireAbort id))) (hf : ∀ b, (f b).Always Sweeps) :
    (Calls.dropRetired p id keys >>= f).Always Sweeps := by
  induction keys with
  | nil => exact hf false
  | cons k ks ih =>
    refine ⟨hstay, fun dropped => ?_⟩
    cases dropped with
    | error st =>
      cases st with
      | errLeased => exact hf true
      | _ => exact ih
    | ok r =>
      change (((Calls.refundNvmeQuota p k.ns r >>= fun _ => .ret (Except.ok r)) >>= _) >>= f).Always
        _
      rw [Prog.bind_assoc, Prog.bind_assoc]
      exact refundNvmeQuota_sweeps fun _ => ih

private theorem sweepRetired_sweeps (flip : Bool) (entries : List Key)
    (hstay : (f true).head = some (.disk (.retireAbort id))) (hf : ∀ b, (f b).Always Sweeps) :
    (Calls.sweepRetired p id flip entries >>= f).Always Sweeps := by
  cases flip with
  | false => exact dropRetired_sweeps entries hstay hf
  | true => exact ⟨trivial, fun keys => s3FlipRetired_sweeps keys hstay hf⟩

private theorem retire_sweeps (entries : List Key) {f : Unit → Code Unit}
    (hf : ∀ u, (f u).Always Sweeps) : (Calls.retire p id entries >>= f).Always Sweeps := by
  have hflip : ∀ flip : Bool, ((Calls.sweepRetired p id flip entries >>= fun stranded =>
      if stranded then disk (.retireAbort id)
      else disk (.retireFinish id) >>= fun done =>
        if done then if flip then Calls.enqueueObjectGC p id else pure () else pure ()) >>=
      f).Always Sweeps := by
    intro flip
    rw [Prog.bind_assoc]
    apply sweepRetired_sweeps flip entries
    · rfl
    intro stranded
    cases stranded with
    | true => exact ⟨trivial, hf⟩
    | false =>
      refine ⟨trivial, fun done => ?_⟩
      cases done with
      | false => exact hf ()
      | true =>
        cases flip with
        | false => exact hf ()
        | true => exact enqueueObjectGC_sweeps hf
  unfold Calls.retire Calls.keepsEntries
  rw [Prog.bind_assoc]
  split
  · exact ⟨trivial, hflip⟩
  · exact hflip false

private theorem anyProtected_sweeps (now : ℕ) (entries : List Key)
    (hf : ∀ b, (f b).Always Sweeps) : (Calls.anyProtected id now entries >>= f).Always Sweeps := by
  induction entries with
  | nil => exact hf false
  | cons k ks ih =>
    refine ⟨trivial, fun stays => ?_⟩
    cases stays with
    | true => exact hf true
    | false => exact ih

theorem reclaimSegment_sweeps (from_ : ℕ) : (Calls.reclaimSegment p from_).Always Sweeps := by
  refine ⟨trivial, fun found => ?_⟩
  match found with
  | none => trivial
  | some (id, entries) =>
    refine ⟨trivial, fun latched => ?_⟩
    cases latched with
    | false => trivial
    | true =>
      refine ⟨trivial, fun now => ?_⟩
      apply anyProtected_sweeps now entries
      intro stays
      cases stays with
      | true => exact ⟨trivial, fun _ => trivial⟩
      | false =>
        refine ⟨trivial, fun begun => ?_⟩
        cases begun with
        | false => exact ⟨trivial, fun _ => trivial⟩
        | true => exact retire_sweeps entries fun _ => ⟨trivial, fun _ => trivial⟩

end Programs

/-- What the calls of a node do, as far as reclaim is concerned. -/
def Reclaims : Call → (a : Act) → (a.Resp → Code Unit) → Prop
  | .reclaimSegment _ => Sweeps
  | _ => fun _ _ => True

theorem body_reclaims (p : Params) (c : Call) : (body p c).Always (Reclaims c) := by
  cases c with
  | reclaimSegment from_ => exact reclaimSegment_sweeps from_
  | _ => exact Prog.always_of_forall (fun _ _ => trivial) _

/-! ### Steps -/

def Protected (t : Tiers) (now : ℕ) (e : NvmeRef) : Prop :=
  ((t.cells e.id).leased now || (t.cells e.id).pinned) = true

theorem Sweeps.act {x : Disk.Act} {k : x.Resp → Code Unit} (h : Sweeps (.disk x) k) :
    SweepAct x := by
  cases x with
  | flipRetired k id => trivial
  | deleteIf k g =>
    cases g with
    | retire id => trivial
    | _ => exact h
  | _ => exact h

section Steps

variable {a : Tier.Audit} {t t' : Tiers} {m : Disk.Own} {k k' : Key} {e : NvmeRef} {id now env : ℕ}

private theorem flipRetired_spares (h : Disk.Inv a t m) (hk : t.index k = some e)
    (hp : Protected t now e) : (t.flipRetired k' id now).2.index k = some e ∧
      ((t.flipRetired k' id now).2.cells e.id).s3Only = (t.cells e.id).s3Only := by
  unfold Tiers.flipRetired
  cases hk' : t.index k' with
  | none => exact ⟨hk, rfl⟩
  | some e' =>
    dsimp only
    split
    · exact ⟨hk, rfl⟩
    split
    · exact ⟨hk, rfl⟩
    next hfree =>
    refine ⟨hk, ?_⟩
    have hne : e.id ≠ e'.id := by
      intro hid
      have heq : e = e' := h.ref_eq hk' hk hid
      apply hfree
      rw [← heq, Bool.or_assoc, hp, Bool.or_true]
    change (Function.update t.cells e'.id _ e.id).s3Only = _
    rw [Function.update_of_ne hne]

private theorem retire_check (hp : Protected t now e) :
    (Disk.DropGate.retire id).check e (t.cells e.id) now ≠ .ok := by
  unfold Disk.DropGate.check
  dsimp only
  split
  · exact Status.noConfusion
  · rw [if_pos (show _ = true from hp)]
    exact Status.noConfusion

private theorem deleteIf_spares {r : Except Status NvmeRef}
    (hx : Disk.exec now (.deleteIf k' (.retire id)) env t = some (r, t')) (hk : t.index k = some e)
    (hp : Protected t now e) : t'.index k = some e ∧
      (t'.cells e.id).s3Only = (t.cells e.id).s3Only := by
  unfold Disk.exec at hx
  dsimp only at hx
  split at hx
  · cases hx
    exact ⟨hk, rfl⟩
  next e' hk' =>
  split at hx
  · next hok =>
    cases hx
    have hne : k ≠ k' := by
      rintro rfl
      rw [hk, some.injEq] at hk'
      exact retire_check (hk' ▸ hp) hok
    refine ⟨?_, rfl⟩
    change Function.update t.index k' none k = some e
    rw [Function.update_of_ne hne]
    exact hk
  · cases hx
    exact ⟨hk, rfl⟩

/-- A reclaim pass leaves an entry that is leased or pinned as it is. -/
theorem sweep_spares (h : Disk.Inv a t m) {x : Disk.Act} (hs : SweepAct x) {r : x.Resp}
    (hx : Disk.exec now x env t = some (r, t')) (hk : t.index k = some e)
    (hp : Protected t now e) : t'.index k = some e ∧
      (t'.cells e.id).s3Only = (t.cells e.id).s3Only := by
  cases x with
  | flipRetired k' id =>
    have hx' : t.flipRetired k' id now = (r, t') := some.inj hx
    have hs : (t.flipRetired k' id now).2.index k = some e ∧
        ((t.flipRetired k' id now).2.cells e.id).s3Only = (t.cells e.id).s3Only :=
      flipRetired_spares h hk hp
    rwa [hx'] at hs
  | deleteIf k' g =>
    cases g with
    | retire id => exact deleteIf_spares hx hk hp
    | _ => exact hs.elim
  | latch id | retireBegin id | retireFinish id | gcSend id =>
    unfold Disk.exec at hx
    dsimp only at hx
    repeat' split at hx
    all_goals
      cases hx
      exact ⟨hk, rfl⟩
  | oldestSealed _ | protectedIn _ _ _ | isSpilled _ | segmentEntryKeys _ | loadS3Only _ | segSub _
  | gcMark _ | gcUnmark _ | refundS3 _ _ | refundNvme _ _ | retireAbort _ | unlatch _ =>
    cases hx
    exact ⟨hk, rfl⟩
  | _ => exact hs.elim

/-- Reading an entry back from its file and, when it is S3-only, from its object. -/
def ReadsBack (t : Tiers) (k : Key) (e : NvmeRef) : Prop :=
  ∃ data, t.recordAt e.loc k e.xxh3 = some data ∧ t.read e.loc k e.xxh3 = .ok data ∧
    ((t.cells e.id).s3Only = true → t.readRange e = some data)

theorem aborted_serves (h : Disk.Inv a t m) {flip : Bool} {swept : List Key}
    (hl : .latch id (.retiring flip swept) ∈ m) :
    (∃ g, (t.onSeg id fun g => { g with dying := false }).segs id = some g ∧ g.dying = false) ∧
      ∀ k e, Homed (t.onSeg id fun g => { g with dying := false }) k e id →
        ReadsBack (t.onSeg id fun g => { g with dying := false }) k e := by
  obtain ⟨⟨g, hg, -, -, -⟩, -⟩ := h.stage id _ hl
  have hseg : (t.onSeg id fun g => { g with dying := false }).segs id =
      some { g with dying := false } := by
    rw [Disk.onSeg_of_some hg]
    exact Function.update_self ..
  refine ⟨⟨_, hseg, rfl⟩, ?_⟩
  rintro k e ⟨hk, rfl⟩
  have hk' : t.index k = some e := hk
  obtain ⟨-, -, -, data, hdata⟩ := h.recorded k e hk'
  have hrec : (t.onSeg e.loc.segmentID fun g => { g with dying := false }).recordAt
      e.loc k e.xxh3 = some data := hdata
  refine ⟨data, hrec, ?_, fun hc => ?_⟩
  · unfold Tiers.read
    rw [hseg]
    dsimp only
    rw [hrec]
    rfl
  · have hb : t.bucket e.loc.segmentID = true := (h.cold k e hk' hc).2
    unfold Tiers.readRange
    rw [(h.indexed k e hk').2]
    exact (if_pos hb).trans hrec

theorem finish_cold (h : Disk.Inv a t m) {flip : Bool} {swept ks : List Key}
    (hl : .latch id (.retiring flip swept) ∈ m) (hf : .footer id ks ∈ m) (hks : ∀ k ∈ ks, k ∈ swept)
    (hk : Homed t k e id) : (t.cells e.id).s3Only = true ∧ (t.cells e.id).s3 = true ∧
      t.bucket id = true := by
  have hmem : k ∈ ks := by
    rw [← (h.footer id ks hf).2]
    exact h.homed_mem hk
  have hcold := (h.stage id _ hl).2 k (hks k hmem) e hk
  obtain ⟨hs3, hb⟩ := h.cold k e hk.1 hcold
  exact ⟨hcold, hs3, hk.2 ▸ hb⟩

end Steps

/-! ### Runs -/

def Reclaiming (q : NodePool) (i : ℕ) : Prop :=
  ∃ t from_, q.threads[i]? = some t ∧ t.call = .reclaimSegment from_

/-- An entry that is still in a retiring segment and has to stay there. -/
def Stays (s : State) (k : Key) (id : ℕ) : Prop :=
  ∃ e, Homed s.disk k e id ∧ (s.disk.cells e.id).s3Only = false ∧
    (Protected s.disk s.dram.now e ∨ (s.disk.cells e.id).s3 = false)

variable {p : Params} {q q' : NodePool} {i env : ℕ}

theorem reclaim_step_spares (hok : (logic p noAudit).Ok q) (hob : q.Obeys Reclaims)
    (hi : Reclaiming q i) (hs : (system p).next q (.step i env) = some q') {k : Key} {e : NvmeRef}
    (hk : q.shared.disk.index k = some e) (hp : Protected q.shared.disk q.shared.dram.now e) :
    q'.shared.disk.index k = some e ∧
      (q'.shared.disk.cells e.id).s3Only = (q.shared.disk.cells e.id).s3Only := by
  obtain ⟨t, x, c, r, s, ht, hr, hx, rfl⟩ := System.next_step hs
  obtain ⟨t', from_, ht', hcall⟩ := hi
  rw [ht, some.injEq] at ht'
  subst ht'
  have hsw := hob.at ht hr
  rw [hcall] at hsw
  obtain ⟨m, -, hm⟩ := hok.inv
  cases x with
  | dram y =>
    obtain ⟨d', -, rfl⟩ := exec_dram hx
    exact ⟨hk, rfl⟩
  | disk y =>
    obtain ⟨t', hy, rfl⟩ := exec_disk (p := p) hx
    exact sweep_spares hm (Sweeps.act hsw) hy hk hp
  | _ => exact hsw.elim

private theorem atAction_of_head {t : Thread Act Act.Resp Call Answer} {s : State} {c : Code Unit}
    {o : Option Answer} {x : Act} (ht : q.threads[i]? = some t) (hc : c.head = some x) :
    Pool.AtAction { shared := s, threads := (q.threads.set i { t with
      answer := o, rest := c }) } i x := by
  cases c with
  | ret u => cases hc
  | act y k =>
    cases hc
    refine ⟨{ t with answer := o, rest := .act x k }, k, ?_, rfl⟩
    have hlt := (List.getElem?_eq_some_iff.mp ht).1
    exact List.getElem?_set_self hlt

private theorem aborts_of (x : Disk.Act) (y : x.Resp) {t' : Tiers} {id : ℕ} (hob : q.Obeys Reclaims)
    (hi : Reclaiming q i) (hs : (system p).next q (.step i env) = some q')
    (ha : q.AtAction i (.disk x))
    (hx : Disk.exec q.shared.dram.now x env q.shared.disk = some (y, t'))
    (hrule : ∀ from_ c, Reclaims (.reclaimSegment from_) (.disk x) c →
      (c y).head = some (.disk (.retireAbort id))) :
    q'.AtAction i (.disk (.retireAbort id)) := by
  obtain ⟨t, x, c, r, s, ht, hr, hx', rfl⟩ := System.next_step hs
  obtain ⟨t', from_, ht', hcall⟩ := hi
  obtain ⟨t'', c', ht'', hr'⟩ := ha
  rw [ht, some.injEq] at ht' ht''
  subst ht' ht''
  rw [hr] at hr'
  cases hr'
  have hsw := hob.at ht hr
  rw [hcall] at hsw
  change (Disk.exec _ _ _ _).map _ = _ at hx'
  rw [hx] at hx'
  cases hx'
  exact atAction_of_head ht (hrule _ _ hsw)

theorem flip_aborts (hob : q.Obeys Reclaims) (hi : Reclaiming q i)
    (hs : (system p).next q (.step i env) = some q') {k : Key} {id : ℕ}
    (ha : q.AtAction i (.disk (.flipRetired k id))) (hk : Stays q.shared k id) :
    q'.AtAction i (.disk (.retireAbort id)) := by
  obtain ⟨e, ⟨hk, hseg⟩, hcold, hstay⟩ := hk
  refine aborts_of (.flipRetired k id) true hob hi hs ha
    (congrArg some (?_ : _ = (true, q.shared.disk))) fun _ _ h => h
  unfold Tiers.flipRetired
  rw [hk]
  dsimp only
  rw [if_neg (by simp [hseg, hcold])]
  apply if_pos
  rcases hstay with hp | hs3
  · rw [Bool.or_assoc, show _ = true from hp, Bool.or_true]
  · rw [hs3]
    rfl

theorem drop_aborts (hob : q.Obeys Reclaims) (hi : Reclaiming q i)
    (hs : (system p).next q (.step i env) = some q') {k : Key} {id : ℕ} {e : NvmeRef}
    (ha : q.AtAction i (.disk (.deleteIf k (.retire id)))) (hk : Homed q.shared.disk k e id)
    (hp : Protected q.shared.disk q.shared.dram.now e) :
    q'.AtAction i (.disk (.retireAbort id)) := by
  refine aborts_of (.deleteIf k (.retire id)) (.error .errLeased) hob hi hs ha
    (?_ : _ = some (_, q.shared.disk))
    fun _ _ h => h
  have hcheck : (Disk.DropGate.retire id).check e (q.shared.disk.cells e.id)
      q.shared.dram.now = .errLeased := by
    unfold Disk.DropGate.check
    dsimp only
    rw [if_neg (not_not.mpr hk.2)]
    exact if_pos hp
  unfold Disk.exec
  dsimp only
  rw [hk.1]
  dsimp only
  rw [hcheck]

/-- In every run of a node: a reclaim pass neither removes nor turns S3-only an entry
that is leased or pinned; where it finishes a retire, every entry that still lives in
the segment is S3-only, flagged and has its object; an entry that has to stay aborts the
retire at its gate; and an aborted retire leaves a segment that serves local reads, from
which every entry reads back its own bytes. -/
theorem reclaim_protects {v : Recovery} (hv : v.Sound) {now : ℕ} {es : List (Event Call)}
    (hr : run (system p).next (Pool.start (v.start now)) es = some q) :
    (∀ i env q', Reclaiming q i → (system p).next q (.step i env) = some q' →
      ∀ k e, q.shared.disk.index k = some e → Protected q.shared.disk q.shared.dram.now e →
        q'.shared.disk.index k = some e ∧
          (q'.shared.disk.cells e.id).s3Only = (q.shared.disk.cells e.id).s3Only) ∧
    (∀ i id, q.AtAction i (.disk (.retireFinish id)) → ∀ k e, Homed q.shared.disk k e id →
      (q.shared.disk.cells e.id).s3Only = true ∧ (q.shared.disk.cells e.id).s3 = true ∧
        q.shared.disk.bucket id = true) ∧
    (∀ i env q' k id, Reclaiming q i → (system p).next q (.step i env) = some q' →
      (q.AtAction i (.disk (.flipRetired k id)) ∧ Stays q.shared k id ∨
        q.AtAction i (.disk (.deleteIf k (.retire id))) ∧
          ∃ e, Homed q.shared.disk k e id ∧ Protected q.shared.disk q.shared.dram.now e) →
      q'.AtAction i (.disk (.retireAbort id))) ∧
    (∀ i env q' id, (system p).next q (.step i env) = some q' →
      q.AtAction i (.disk (.retireAbort id)) →
      (∃ g, q'.shared.disk.segs id = some g ∧ g.dying = false) ∧
        ∀ k e, Homed q'.shared.disk k e id → ReadsBack q'.shared.disk k e) := by
  have hok := ok_of_run hv hr
  have hob : q.Obeys Reclaims := Pool.Obeys.run (body_reclaims p) hr
  refine ⟨?_, ?_, ?_, ?_⟩
  · intro i env q' hi hs k e hk hp
    exact reclaim_step_spares hok hob hi hs hk hp
  · intro i id ha k e hk
    obtain ⟨m, ⟨-, hm⟩, flip, sw, ks, hl, hf, hks⟩ := needs_of_ok hok ha
    exact finish_cold hm hl hf hks hk
  · intro i env q' k id hi hs hstay
    rcases hstay with ⟨ha, hk⟩ | ⟨ha, e, hk, hp⟩
    · exact flip_aborts hob hi hs ha hk
    · exact drop_aborts hob hi hs ha hk hp
  intro i env q' id hs ha
  obtain ⟨m, ⟨-, hm⟩, flip, sw, hl⟩ := needs_of_ok hok ha
  obtain ⟨t, x, c, r, s, ht, hr, hx, rfl⟩ := System.next_step hs
  obtain ⟨t', c', ht', hr'⟩ := ha
  rw [ht, some.injEq] at ht'
  subst ht'
  rw [hr] at hr'
  cases hr'
  cases hx
  exact aborted_serves hm hl

/-- A block is put and demoted, its segment is sealed and spilled, and a reclaim pass has
swept it. -/
def swept : List (Event Call) :=
  putSpill ++ .spawn (.reclaimSegment 0) :: take 5 [0, 0, 0, 0, 0, 0, 0, 0]

private def finishes : Act → Bool
  | .disk (.retireFinish 0) => true
  | _ => false

theorem reclaim_protects_swept : ∃ q r,
    after small swept = some q ∧
      q.AtAction 5 (.disk (.retireFinish 0)) ∧ Homed q.shared.disk ⟨0, 7⟩ r 0 ∧
      (q.shared.disk.cells r.id).s3Only = true ∧ q.shared.disk.bucket 0 = true := by
  have hrun : ∃ q ∈ after small swept,
      (∃ x ∈ q.action (.step 5 0), finishes x = true) ∧
      ∃ r ∈ q.shared.disk.index ⟨0, 7⟩, r.loc.segmentID = 0 := by
    decide +kernel
  obtain ⟨q, hq, ⟨x, hx, hfin⟩, r, hr, hseg⟩ := hrun
  have hx0 : x = .disk (.retireFinish 0) := by
    unfold finishes at hfin
    split at hfin
    · rfl
    · cases hfin
  subst hx0
  have ha := Pool.action_step_eq_some.mp hx
  have hhome : Homed q.shared.disk ⟨0, 7⟩ r 0 := ⟨hr, hseg⟩
  obtain ⟨hcold, -, hb⟩ :=
    (reclaim_protects Recovery.empty_sound hq).2.1 5 0 ha ⟨0, 7⟩ r hhome
  exact ⟨q, r, hq, ha, hhome, hcold, hb⟩

end KVStash.Tiered.Reclaim
