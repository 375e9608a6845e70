/- GID: KVStash/Tiered/Logic/Passes
   digest: The background passes over segments and objects keep the invariant. -/

import KVStash.Tiered.Logic.Calls

set_option autoImplicit false

namespace KVStash.Tiered.Logic

open Protocol Dram Tiered.Node Tiered.System Disk Calls
open Foundation.Threads Foundation.Resource
open Foundation.Resource.Logic (Triple)
open Dram.Tier (Key Audit)
open Tiered.Disk (NvmeRef Stage)

variable {p : Params} {a : Audit}

theorem unlatch_triple (id : ℕ) {st : Stage} (hst : ∀ fl sw, st ≠ .retiring fl sw) :
    (logic p a).Triple (disk (.unlatch id)) (0, {.latch id st}) fun _ m => m = 0 := by
  change (logic p a).Triple (disk (.unlatch id) >>= .ret) _ _
  apply triple_disk (l := 0) (unlatch_holds id hst) (add_zero _).symm trivial
  rintro _ n' rfl
  exact rfl

theorem unlatch_forget_triple (id : ℕ) (ks : List Key) :
    (logic p a).Triple (disk (.unlatch id)) (0, {.latch id .held} + {.footer id ks})
      fun _ m => m = 0 := by
  change (logic p a).Triple (disk (.unlatch id) >>= .ret) _ _
  exact triple_forget (unlatch_triple id (by simp))

/-! ### Reclaim -/

theorem anyProtected_triple (id now : ℕ) (ks : List Key) (m : Own) :
    (logic p a).Triple (anyProtected id now ks) m fun _ m' => m' = m := by
  induction ks with
  | nil => exact rfl
  | cons k ks ih =>
    apply triple_quiet rfl
    intro b
    cases b with
    | true => exact rfl
    | false => exact ih

theorem s3FlipRetired_triple (id : ℕ) (ks sw : List Key) :
    (logic p a).Triple (s3FlipRetired id ks) (0, {.latch id (.retiring true sw)}) fun b m =>
      ∃ sw', m = (0, {.latch id (.retiring true sw')}) ∧
        (b = false → ∀ k, k ∈ ks ∨ k ∈ sw → k ∈ sw') := by
  induction ks generalizing sw with
  | nil => exact ⟨sw, rfl, fun _ k hk => hk.resolve_left (by simp)⟩
  | cons k ks ih =>
    apply triple_disk (l := 0) (flipRetired_holds k id sw) (add_zero _).symm ⟨sw, by simp⟩
    rintro b n' rfl
    cases b with
    | true => exact ⟨sw, by simp, by simp⟩
    | false =>
      apply (ih (k :: sw)).mono
      rintro b m ⟨sw', rfl, hsw⟩
      refine ⟨sw', rfl, fun hb k' hk' => hsw hb k' ?_⟩
      simp only [List.mem_cons] at hk' ⊢
      tauto

theorem dropRetired_triple (id : ℕ) (ks sw : List Key) :
    (logic p a).Triple (dropRetired p id ks) (0, {.latch id (.retiring false sw)}) fun b m =>
      ∃ sw', m = (0, {.latch id (.retiring false sw')}) ∧
        (b = false → ∀ k, k ∈ ks ∨ k ∈ sw → k ∈ sw') := by
  induction ks generalizing sw with
  | nil => exact ⟨sw, rfl, fun _ k hk => hk.resolve_left (by simp)⟩
  | cons k ks ih =>
    have next : (logic p a).Triple (dropRetired p id ks)
        (0, {.latch id (.retiring false (k :: sw))}) fun b m =>
          ∃ sw', m = (0, {.latch id (.retiring false sw')}) ∧
            (b = false → ∀ k', k' ∈ k :: ks ∨ k' ∈ sw → k' ∈ sw') := by
      apply (ih (k :: sw)).mono
      rintro b m ⟨sw', rfl, hsw⟩
      refine ⟨sw', rfl, fun hb k' hk' => hsw hb k' ?_⟩
      simp only [List.mem_cons] at hk' ⊢
      tauto
    change (logic p a).Triple ((disk (.deleteIf k (.retire id)) >>= _) >>= _) _ _
    rw [Prog.bind_assoc]
    apply triple_disk (l := 0) (deleteIf_retire_holds k id sw) (add_zero _).symm ⟨sw, by simp⟩
    rintro o n' ⟨hok, hleased, herr⟩
    rw [add_zero]
    cases o with
    | ok r =>
      obtain ⟨rfl, hlen, b, rfl⟩ := hok r rfl
      change (logic p a).Triple ((refundNvmeQuota p r.key.ns r >>= _) >>= _) _ _
      rw [Prog.bind_assoc]
      apply Triple.seq (l := (0, {.latch id (.retiring false (r.key :: sw))}))
        (refundNvmeQuota_triple hlen b)
      rintro _ m rfl
      rw [zero_add]
      exact next
    | error st =>
      cases st with
      | errLeased =>
        rw [hleased rfl]
        exact ⟨sw, rfl, by simp⟩
      | _ =>
        rw [herr _ rfl (by simp)]
        exact next

theorem keepsEntries_triple (id : ℕ) :
    (logic p a).Triple (keepsEntries p id) (0, {.latch id (.retiring false [])}) fun b m =>
      m = (0, {.latch id (.retiring b [])}) := by
  unfold keepsEntries
  split
  · change (logic p a).Triple (disk (.isSpilled id) >>= .ret) _ _
    apply triple_disk (l := 0) (isSpilled_retiring_holds id) (add_zero _).symm trivial
    rintro flip n' rfl
    rw [add_zero]
    exact rfl
  · exact rfl

theorem sweepRetired_triple (id : ℕ) (ks : List Key) (flip : Bool) :
    (logic p a).Triple (sweepRetired p id flip ks)
      (0, {.latch id (.retiring flip [])} + {.footer id ks}) fun b m =>
        ∃ sw, m = (0, {.latch id (.retiring flip sw)} + {.footer id ks}) ∧
          (b = false → ∀ k ∈ ks, k ∈ sw) := by
  cases flip with
  | true =>
    apply triple_disk (l := 0) (segmentEntryKeys_holds id ks ?_) (add_zero _).symm trivial
    · rintro keys n' ⟨rfl, rfl⟩
      rw [add_zero]
      apply ((s3FlipRetired_triple id keys []).frame (n := (0, {.footer id keys}))).mono
      rintro b _ ⟨_, rfl, sw, rfl, hsw⟩
      exact ⟨sw, rfl, fun hb k hk => hsw hb k (.inl hk)⟩
    · rintro t ⟨⟨g, hg, -⟩, -⟩
      rw [hg]
      rfl
  | false =>
    apply ((dropRetired_triple id ks []).frame (n := (0, {.footer id ks}))).mono
    rintro b _ ⟨_, rfl, sw, rfl, hsw⟩
    exact ⟨sw, rfl, fun hb k hk => hsw hb k (.inl hk)⟩

theorem retire_triple (id : ℕ) (ks : List Key) :
    (logic p a).Triple (retire p id ks)
      (0, {.latch id (.retiring false [])} + {.footer id ks}) fun _ m =>
        m = (0, {.latch id .held} + {.footer id ks}) := by
  apply Triple.seq (l := (0, {.footer id ks})) (keepsEntries_triple id)
  rintro flip m rfl
  apply Triple.bind
  apply (sweepRetired_triple id ks flip).mono
  rintro stranded m ⟨sw, rfl, hsw⟩
  cases stranded with
  | true =>
    change (logic p a).Triple (disk (.retireAbort id) >>= .ret) _ _
    apply triple_disk (retireAbort_holds id flip sw) rfl ⟨flip, sw, by simp⟩
    rintro _ n' rfl
    exact rfl
  | false =>
    apply triple_disk (l := 0) (retireFinish_holds id flip (hsw rfl)) (add_zero _).symm
      ⟨flip, sw, ks, by simp, by simp, hsw rfl⟩
    rintro b n' rfl
    rw [add_zero]
    cases b with
    | false => exact rfl
    | true =>
      cases flip with
      | false => exact rfl
      | true => exact enqueueObjectGC_triple id _

theorem reclaimSegment_triple (from_ : ℕ) :
    (logic p a).Triple (reclaimSegment p from_) 0 fun _ m => m = 0 := by
  apply triple_disk (l := 0) (oldestSealed_holds from_) rfl trivial
  rintro o n' ⟨hsome, hnone⟩
  rw [add_zero]
  cases o with
  | none =>
    rw [hnone rfl]
    exact rfl
  | some x =>
    obtain ⟨id, ks⟩ := x
    rw [hsome id ks rfl]
    apply triple_disk (l := 0) (latch_footer_holds id ks) (add_zero _).symm trivial
    rintro b n' rfl
    rw [add_zero]
    cases b with
    | false => exact rfl
    | true =>
      apply triple_dram_same Tier.now_holds trivial
      intro now
      apply Triple.bind
      apply (anyProtected_triple id now ks _).mono
      rintro b m rfl
      cases b with
      | true => exact unlatch_forget_triple id ks
      | false =>
        apply triple_disk (retireBegin_holds id) rfl trivial
        rintro b n' rfl
        cases b with
        | false => exact unlatch_forget_triple id ks
        | true =>
          apply Triple.bind
          apply (retire_triple id ks).mono
          rintro _ m rfl
          exact unlatch_forget_triple id ks

/-! ### Segment objects -/

theorem flagEntries_triple (id : ℕ) (ks fl : List Key) :
    (logic p a).Triple (flagEntries id ks) (0, {.latch id (.uploaded fl)}) fun _ m =>
      ∃ fl', m = (0, {.latch id (.uploaded fl')}) ∧ ∀ k, k ∈ ks ∨ k ∈ fl → k ∈ fl' := by
  induction ks generalizing fl with
  | nil => exact ⟨fl, rfl, fun k hk => hk.resolve_left (by simp)⟩
  | cons k ks ih =>
    have next : (logic p a).Triple (flagEntries id ks)
        (0, {.latch id (.uploaded (k :: fl))}) fun _ m =>
          ∃ fl', m = (0, {.latch id (.uploaded fl')}) ∧ ∀ k', k' ∈ k :: ks ∨ k' ∈ fl →
            k' ∈ fl' := by
      apply (ih (k :: fl)).mono
      rintro _ m ⟨fl', rfl, hfl⟩
      refine ⟨fl', rfl, fun k' hk' => hfl k' ?_⟩
      simp only [List.mem_cons] at hk' ⊢
      tauto
    apply triple_disk (l := 0) (get_flag_holds k id fl) (add_zero _).symm trivial
    rintro o n' ⟨hhome, helse⟩
    rw [add_zero]
    cases o with
    | none =>
      rw [helse (by simp)]
      exact next
    | some r =>
      dsimp only
      split
      · next hid =>
        rw [hhome r rfl hid]
        apply triple_disk (l := 0) (storeS3_holds k r id fl) (add_zero _).symm trivial
        rintro _ n' rfl
        exact next
      · next hid =>
        rw [helse (by rintro r' ⟨⟩; exact hid)]
        exact next

theorem spillOne_triple (id : ℕ) : (logic p a).Triple (spillOne p id) 0 fun _ m => m = 0 := by
  unfold spillOne
  split
  · apply triple_disk (l := 0) (sealedUnspilled_holds id) rfl trivial
    rintro ids n' ⟨hin, hout⟩
    rw [add_zero]
    split
    · next hid =>
      obtain ⟨ks, rfl⟩ := hin hid
      apply triple_disk (l := 0) (latch_footer_holds id ks) (add_zero _).symm trivial
      rintro b n' rfl
      rw [add_zero]
      cases b with
      | false => exact rfl
      | true =>
        apply triple_disk (l := 0) (upload_holds id ks) (add_zero _).symm trivial
        rintro b n' rfl
        rw [add_zero]
        cases b with
        | false => exact unlatch_forget_triple id ks
        | true =>
          apply triple_disk (l := 0) (segmentEntryKeys_holds id ks ?_) (add_zero _).symm trivial
          · rintro keys n' ⟨rfl, rfl⟩
            rw [add_zero]
            apply Triple.seq (l := (0, {.footer id keys})) (flagEntries_triple id keys [])
            rintro _ m ⟨fl, rfl, hfl⟩
            have hall : ∀ k ∈ keys, k ∈ fl := fun k hk => hfl k (.inl hk)
            apply triple_disk (l := 0) (markSpilled_holds id hall) (add_zero _).symm trivial
            rintro _ n' rfl
            exact unlatch_triple id (by simp)
          · rintro t ⟨⟨g, hg, -⟩, -⟩
            rw [hg]
            rfl
    · next hid =>
      rw [hout hid]
      exact rfl
  · exact rfl

theorem s3FlipRestored_triple (id : ℕ) (ks : List Key) :
    (logic p a).Triple (s3FlipRestored id ks) (0, {.latch id .present}) fun _ m =>
      m = (0, {.latch id .present}) := by
  induction ks with
  | nil => exact rfl
  | cons k ks ih =>
    apply triple_disk (l := 0) (flipRestored_holds k id) (add_zero _).symm trivial
    rintro _ n' rfl
    rw [add_zero]
    exact ih

theorem bringHome_triple (id : ℕ) :
    (logic p a).Triple (bringHome id) (0, {.latch id .held}) fun b m =>
      m = (0, {.latch id (if b then .present else .held)}) := by
  apply triple_disk (l := 0) (hasSegment_holds id) (add_zero _).symm trivial
  rintro b n' rfl
  rw [add_zero]
  cases b with
  | true => exact rfl
  | false =>
    apply triple_quiet rfl
    intro b
    cases b with
    | false => exact rfl
    | true =>
      apply triple_quiet rfl
      intro b
      cases b with
      | false => exact rfl
      | true =>
        change (logic p a).Triple (disk (.adoptSegment id) >>= .ret) _ _
        apply triple_disk (l := 0) (adoptSegment_held_holds id) (add_zero _).symm trivial
        rintro b n' rfl
        rw [add_zero]
        exact rfl

theorem restoreOne_triple (k : Key) (e : NvmeRef) :
    (logic p a).Triple (restoreOne p k e) 0 fun _ m => m = 0 := by
  unfold restoreOne
  split
  · apply triple_quiet rfl
    intro o
    cases o with
    | none => exact rfl
    | some cur =>
      dsimp only
      split
      · apply triple_quiet rfl
        intro b
        cases b with
        | false => exact rfl
        | true =>
          apply triple_disk (l := 0) (latch_holds e.loc.segmentID) rfl trivial
          rintro b n' rfl
          rw [add_zero]
          cases b with
          | false => exact rfl
          | true =>
            apply Triple.bind
            apply (bringHome_triple e.loc.segmentID).mono
            rintro home m rfl
            cases home with
            | false => exact unlatch_triple _ (by simp)
            | true =>
              apply triple_quiet rfl
              intro keys
              apply Triple.bind
              apply (s3FlipRestored_triple _ keys).mono
              rintro _ m rfl
              exact unlatch_triple _ (by simp)
      · exact rfl
  · exact rfl

theorem lateAdopt_triple (id : ℕ) : (logic p a).Triple (lateAdopt id) 0 fun _ m => m = 0 := by
  apply triple_quiet rfl
  intro b
  cases b with
  | false => exact rfl
  | true =>
    apply triple_disk (l := 0) (adoptSegment_holds id 0) rfl trivial
    rintro _ n' rfl
    exact rfl

theorem collectOne_triple : (logic p a).Triple (collectOne p) 0 fun _ m => m = 0 := by
  apply triple_quiet rfl
  intro id
  apply triple_quiet rfl
  intro _
  apply triple_disk (l := 0) (latch_holds id) rfl trivial
  rintro b n' rfl
  rw [add_zero]
  cases b with
  | false => exact rfl
  | true =>
    change (logic p a).Triple (if p.spill = true then _ else _) _ _
    cases p.spill with
    | false => exact unlatch_triple id (by simp)
    | true =>
      apply triple_disk (l := 0) (segLive_holds id) (add_zero _).symm trivial
      rintro live n' rfl
      rw [add_zero]
      cases live with
      | true => exact unlatch_triple id (by simp)
      | false =>
        apply triple_disk (l := 0) (isSpilled_drained_holds id) (add_zero _).symm trivial
        rintro spilled n' rfl
        rw [add_zero]
        cases spilled with
        | true => exact unlatch_triple id (by simp)
        | false =>
          apply triple_disk (l := 0) (drop_holds id) (add_zero _).symm (by simp [Needs])
          rintro _ n' rfl
          rw [add_zero]
          exact unlatch_triple id (by simp)

/-! ### The writer -/

theorem tryRecoverWrites_triple : (logic p a).Triple tryRecoverWrites 0 fun _ m => m = 0 := by
  apply triple_disk (l := 0) openActive_holds rfl trivial
  rintro _ n' rfl
  exact rfl

theorem rotate_triple : (logic p a).Triple rotate 0 fun _ m => m = 0 := by
  apply triple_disk (l := 0) sealActive_holds rfl trivial
  rintro b n' rfl
  cases b with
  | false => exact rfl
  | true => exact tryRecoverWrites_triple

end KVStash.Tiered.Logic
