/- GID: KVStash/Tiered/Logic/Calls
   digest: The calls and background passes of the tiered store take nothing and leave nothing
     behind. -/

import KVStash.Tiered.Logic.DramCalls

set_option autoImplicit false

namespace KVStash.Tiered.Logic

open Protocol Dram Tiered.Node Tiered.System Calls
open Foundation.Threads Foundation.Resource
open Foundation.Resource.Logic (Triple)
open Dram.Tier (Key BlockRef Audit owe)
open Tiered.Disk (NvmeRef dues)

variable {p : Params} {a : Audit}

/-! ### The removal funnel -/

theorem enqueueObjectGC_triple (id : ℕ) (m : Own) :
    (logic p a).Triple (enqueueObjectGC p id) m fun _ m' => m' = m := by
  unfold enqueueObjectGC
  split
  · apply triple_quiet rfl
    intro b
    cases b with
    | true => exact rfl
    | false =>
      apply triple_quiet rfl
      intro b
      cases b with
      | true => exact rfl
      | false =>
        change (logic p a).Triple (disk (.gcUnmark id) >>= .ret) _ _
        apply triple_quiet rfl
        intro _
        exact rfl
  · exact rfl

theorem refundNvmeQuota_triple {r : NvmeRef} (hlen : 0 < r.len) (b : Bool) :
    (logic p a).Triple (refundNvmeQuota p r.key.ns r) (0, {.gone r b} + dues a r b)
      fun _ m => m = 0 := by
  unfold refundNvmeQuota
  rw [if_neg (by omega)]
  apply triple_disk (Disk.loadS3Only_gone_holds r b) rfl trivial
  rintro b' n' ⟨rfl, rfl⟩
  rw [zero_add]
  cases b' with
  | false =>
    change (logic p a).Triple (disk (.refundNvme r.key.ns r.len) >>= .ret) _ _
    apply triple_disk (l := 0) (Disk.refundNvme_holds r.key.ns r.len) (add_zero _).symm trivial
    rintro _ n' rfl
    exact rfl
  | true =>
    apply triple_disk (Disk.segSub_holds r.loc.segmentID) rfl trivial
    rintro last n' rfl
    have tail : (logic p a).Triple (disk (.refundS3 r.key.ns r.len))
        (0, if a.ledger then {.s3Debt r.key.ns r.len} else 0) fun _ m => m = 0 := by
      change (logic p a).Triple (disk (.refundS3 r.key.ns r.len) >>= .ret) _ _
      apply triple_disk (l := 0) (Disk.refundS3_holds r.key.ns r.len) (add_zero _).symm trivial
      rintro _ n' rfl
      exact rfl
    rw [zero_add]
    cases last with
    | false => exact tail
    | true =>
      apply Triple.bind
      apply (enqueueObjectGC_triple r.loc.segmentID _).mono
      rintro _ m rfl
      exact tail

theorem dropEntry_triple (k : Key) {g : Disk.DropGate} (hg : ∀ id, g ≠ .retire id) :
    (logic p a).Triple (dropEntry p k g) 0 fun _ m => m = 0 := by
  have hn : Needs (.disk (.deleteIf k g)) 0 := by
    cases g with
    | retire id => exact absurd rfl (hg id)
    | _ => trivial
  apply triple_disk (l := 0) (Disk.deleteIf_holds k g) rfl hn
  rintro o n' ⟨hok, herr⟩
  cases o with
  | error st =>
    rw [herr st rfl]
    exact rfl
  | ok r =>
    obtain ⟨rfl, hlen, b, rfl⟩ := hok r rfl
    rw [add_zero]
    apply Triple.bind
    apply (refundNvmeQuota_triple hlen b).mono
    rintro _ m rfl
    exact rfl

/-! ### Reads -/

theorem readS3_triple (r : NvmeRef) (m : Own) :
    (logic p a).Triple (readS3 p r) m fun o m' =>
      m' = m ∧ ∀ data, o = .ok data → a.ledger → data.length = a.lenOf r.xxh3 := by
  unfold readS3
  split
  · apply triple_quiet rfl
    intro b
    cases b with
    | false => exact ⟨rfl, by simp⟩
    | true =>
      change (logic p a).Triple (disk (.readRange r) >>= .ret) _ _
      apply triple_disk (l := 0) (Disk.readRange_holds r m.2) (add_zero _).symm trivial
      rintro o n' ⟨rfl, hd⟩
      rw [add_zero]
      exact ⟨rfl, hd⟩
  · exact ⟨rfl, by simp⟩

theorem serve_triple (k : Key) (e : NvmeRef) (data : List UInt8) :
    (logic p a).Triple (serve p k e data) 0 fun _ m => m = 0 := by
  apply triple_dram_same Tier.now_holds trivial
  intro now
  apply triple_quiet rfl
  intro o
  cases o <;> exact triple_answer (f := .ret) rfl

theorem getRefTier_triple (k : Key) : (logic p a).Triple (getRefTier p k) 0 fun _ m => m = 0 := by
  apply Triple.bind
  apply (getRef_triple k).mono
  rintro o m ⟨hsome, hnone⟩
  cases o with
  | some h =>
    rw [hsome h rfl]
    apply triple_answer
    exact release_triple h.ref
  | none =>
    rw [hnone rfl]
    apply triple_quiet rfl
    intro o
    cases o with
    | none => exact triple_answer (f := .ret) rfl
    | some e =>
      apply triple_quiet rfl
      intro o
      cases o with
      | ok data => exact serve_triple k e data
      | gone =>
        apply Triple.bind
        apply (readS3_triple e 0).mono
        rintro o m ⟨rfl, -⟩
        cases o with
        | ok data => exact serve_triple k e data
        | error st => cases st <;> exact triple_answer (f := .ret) rfl
      | corrupt =>
        apply Triple.bind
        apply (dropEntry_triple k (by simp)).mono
        rintro _ m rfl
        exact triple_answer (f := .ret) rfl
      | _ => exact triple_answer (f := .ret) rfl

theorem contains_triple (k : Key) : (logic p a).Triple (contains k) 0 fun _ m => m = 0 := by
  apply triple_dram (l := 0) (Tier.get_holds k fun _ => false) rfl trivial
  rintro o m' ⟨hsome, hnone⟩
  cases o with
  | some r =>
    rw [(hsome r rfl).1]
    exact triple_answer (f := .ret) rfl
  | none =>
    rw [hnone rfl]
    apply triple_quiet rfl
    intro o
    cases o <;> exact triple_answer (f := .ret) rfl

/-! ### PUT and DELETE -/

theorem put_triple (k : Key) (data : List UInt8) {x : ℕ}
    (hsz : a.ledger → data.length = a.lenOf x) :
    (logic p a).Triple (put p k data x) 0 fun _ m => m = 0 := by
  apply triple_quiet rfl
  intro o
  cases o with
  | some e => exact rfl
  | none =>
    apply Triple.bind
    apply (dramPut_triple k data hsz).mono
    rintro st m rfl
    cases st with
    | ok =>
      apply triple_quiet rfl
      intro o
      cases o with
      | none => exact rfl
      | some e =>
        dsimp only
        split
        · exact rfl
        apply Triple.bind
        apply (dramDelete_triple k true).mono
        rintro _ m rfl
        exact rfl
    | _ => exact rfl

theorem delete_triple (k : Key) (force : Bool) :
    (logic p a).Triple (delete p k force) 0 fun _ m => m = 0 := by
  apply Triple.bind
  apply (dropEntry_triple k (by simp)).mono
  rintro o m rfl
  cases o with
  | error st =>
    cases st with
    | errLeased => exact rfl
    | errPinned => exact rfl
    | _ => exact dramDelete_triple k force
  | ok r =>
    apply Triple.bind
    apply (dramDelete_triple k force).mono
    rintro st m rfl
    cases st <;> exact rfl

/-! ### Promotion, leases and pins -/

theorem promoteInsert_triple (k : Key) {e : NvmeRef} {data : List UInt8}
    (hsz : a.ledger → data.length = a.lenOf e.xxh3) :
    (logic p a).Triple (promoteInsert p k e data) 0 fun _ m => m = 0 := by
  apply Triple.bind
  apply (dramPut_triple k data hsz).mono
  rintro st m rfl
  cases st <;> exact rfl

theorem promoteCold_triple (k : Key) (e : NvmeRef) :
    (logic p a).Triple (promoteCold p k e) 0 fun _ m => m = 0 := by
  have tail : (logic p a).Triple (do
      if ← disk .breakerOpen then pure Status.errBusy else pure .notFound) 0 fun _ m => m = 0 := by
    apply triple_quiet rfl
    intro b
    cases b <;> exact rfl
  apply Triple.bind
  apply (readS3_triple e 0).mono
  rintro o m ⟨rfl, hd⟩
  cases o with
  | ok data => exact promoteInsert_triple k (hd data rfl)
  | error st =>
    cases st with
    | errBusy => exact rfl
    | _ => exact tail

theorem promoteSync_triple (k : Key) (e : NvmeRef) :
    (logic p a).Triple (promoteSync p k e) 0 fun _ m => m = 0 := by
  apply triple_disk (l := 0) (Disk.read_holds e.loc k e.xxh3 0) rfl trivial
  rintro o n' ⟨rfl, hd⟩
  cases o with
  | ok data => exact promoteInsert_triple k (hd data rfl)
  | busy => exact rfl
  | corrupt => exact rfl
  | _ => exact promoteCold_triple k e

theorem promoteOne_triple (k : Key) (e : NvmeRef) :
    (logic p a).Triple (promoteOne p k e) 0 fun _ m => m = 0 := by
  apply triple_quiet rfl
  intro o
  cases o with
  | none => exact rfl
  | some cur =>
    dsimp only
    split
    · exact promoteSync_triple k e
    · exact rfl

theorem touchLease_triple (k : Key) (sub : TouchSub) (ttlMS : ℕ) :
    (logic p a).Triple (touchLease p k sub ttlMS) 0 fun _ m => m = 0 := by
  apply Triple.bind
  apply (dramTouchLease_triple k sub ttlMS).mono
  rintro ⟨st, lease⟩ m rfl
  cases st with
  | notFound =>
    apply triple_dram_same Tier.now_holds trivial
    intro now
    apply triple_quiet rfl
    intro st
    exact rfl
  | _ => exact rfl

theorem pinOp_triple (k : Key) (sub : PinSub) :
    (logic p a).Triple (pinOp p k sub) 0 fun _ m => m = 0 := by
  apply Triple.bind
  apply (dramPinOp_triple k sub 0).mono
  rintro st m rfl
  cases st with
  | notFound =>
    apply triple_quiet rfl
    intro o
    cases o with
    | none => exact rfl
    | some e =>
      cases sub with
      | pinSoft =>
        change (logic p a).Triple (disk (.setPin k .soft) >>= .ret) _ _
        apply triple_quiet rfl
        intro _
        exact rfl
      | unpin =>
        change (logic p a).Triple (disk (.setPin k .none) >>= .ret) _ _
        apply triple_quiet rfl
        intro _
        exact rfl
      | pinHard =>
        apply Triple.bind
        apply (promoteSync_triple k e).mono
        rintro st m rfl
        cases st with
        | ok => exact dramPinOp_triple k .pinHard 0
        | _ => exact rfl
      | other => exact rfl
  | _ => exact rfl

/-! ### Demotion -/

theorem onWritten_triple (k : Key) (d : Tier.Demotee) (loc : Disk.Loc) :
    (logic p a).Triple (onWritten k d loc) ({.hold d.ref}, {.wrote loc k d.ref.xxh3})
      fun _ m => m = 0 := by
  apply Triple.seq (l := (0, {.wrote loc k d.ref.xxh3})) (release_triple d.ref)
  rintro _ m rfl
  rw [zero_add]
  apply Triple.bind
  apply (completeDemotion_publish_triple k d.ref.xxh3 loc).mono
  rintro _ m rfl
  change (logic p a).Triple (disk (.written loc.segmentID) >>= .ret) _ _
  apply triple_disk (l := 0) (Disk.written_holds loc k d.ref.xxh3) (add_zero _).symm trivial
  rintro _ n' rfl
  exact rfl

theorem completeHere_triple (k : Key) {d : Tier.Demotee} (hlen : d.data.length = d.ref.len)
    (hsz : a.ledger → d.ref.len = a.lenOf d.ref.xxh3) :
    (logic p a).Triple (completeHere k d) ({.hold d.ref}, 0) fun _ m => m = 0 := by
  apply Triple.bind
  apply (release_triple d.ref).mono
  rintro _ m rfl
  apply Triple.bind
  apply (completeDemotion_triple k d.ref.xxh3).mono
  rintro b m ⟨htrue, hfalse⟩
  cases b with
  | false =>
    rw [hfalse rfl]
    exact rfl
  | true =>
    obtain ⟨n, rfl, hn⟩ := htrue rfl
    have howe : owe a k.ns n = owe a k.ns d.data.length := by
      by_cases hl : a.ledger = true
      · rw [hn hl, hlen, hsz hl]
      · simp [owe, hl]
    rw [howe]
    change (logic p a).Triple (dram (.refund k.ns d.data.length) >>= .ret) _ _
    apply triple_dram (l := 0) Tier.refund_holds (add_zero _).symm trivial
    rintro _ m' rfl
    exact rfl

theorem demoteWrite_triple (k : Key) {d : Tier.Demotee} (hlen : d.data.length = d.ref.len)
    (hpos : d.ref.len ≠ 0) (hsz : a.ledger → d.ref.len = a.lenOf d.ref.xxh3) :
    (logic p a).Triple (demoteWrite p k d) ({.hold d.ref}, 0) fun _ m => m = 0 := by
  unfold demoteWrite
  split
  · exact completeHere_triple k hlen hsz
  apply triple_disk (l := 0)
    (Disk.append_holds k d.ref.xxh3 (by omega) fun hl => hlen.trans (hsz hl)) rfl trivial
  rintro o n' ⟨hw, hno⟩
  cases o with
  | written loc =>
    rw [(hw loc rfl).1]
    exact onWritten_triple k d loc
  | _ =>
    rw [hno (by simp)]
    exact release_triple d.ref

theorem demoteOne_triple (k : Key) : (logic p a).Triple (demoteOne p k) 0 fun _ m => m = 0 := by
  apply Triple.bind
  apply (refForDemotion_triple k).mono
  rintro o m ⟨hsome, hnone⟩
  cases o with
  | none =>
    rw [hnone rfl]
    exact rfl
  | some d =>
    obtain ⟨rfl, hlen, hpos, hsz⟩ := hsome d rfl
    apply triple_quiet rfl
    intro o
    cases o with
    | none => exact demoteWrite_triple k hlen hpos hsz
    | some e =>
      dsimp only
      split
      · exact completeHere_triple k hlen hsz
      · exact demoteWrite_triple k hlen hpos hsz

end KVStash.Tiered.Logic
