/- GID: KVStash/Tiered/Logic/DramCalls
   digest: The calls of the DRAM tier take nothing and leave nothing behind. -/

import KVStash.Tiered.Logic.Rules

set_option autoImplicit false

namespace KVStash.Tiered.Logic

open Protocol Dram Tiered.Node Tiered.System
open Foundation.Threads Foundation.Resource
open Foundation.Resource.Logic (Triple)
open Dram.Tier (Key BlockRef Audit bytesToUnits owe stake)

variable {p : Params} {a : Audit}

/-! ### References -/

theorem release_triple (r : BlockRef) :
    (logic p a).Triple (Tier.release r) ({.hold r}, 0) fun _ m => m = 0 := by
  apply triple_dram (l := 0) (Tier.release_holds r) (add_zero _).symm (by simp [Needs])
  rintro b m' rfl
  rw [add_zero]
  cases b with
  | false => exact rfl
  | true =>
    change (logic p a).Triple (Tier.free r) _ _
    unfold Tier.free
    by_cases hlen : r.len = 0
    · rw [if_pos hlen, if_neg (by simp [hlen])]
      exact rfl
    rw [if_neg hlen, if_pos ⟨rfl, hlen⟩]
    change (logic p a).Triple (dram (.free r.extent) >>= .ret) _ _
    apply triple_dram (l := 0) (Tier.free_spent_holds hlen) (add_zero _).symm
    · exact .inr ⟨r, by simp, rfl, hlen⟩
    · rintro _ m' rfl
      exact rfl

theorem refundQuota_triple (r : BlockRef) :
    (logic p a).Triple (Tier.refundQuota r) (owe a r.key.ns r.len, 0) fun _ m => m = 0 := by
  unfold Tier.refundQuota
  by_cases hlen : r.len = 0
  · rw [if_pos hlen]
    change (owe a r.key.ns r.len, 0) = (0 : Own)
    rw [owe, if_neg (by simp [hlen])]
    rfl
  · rw [if_neg hlen]
    change (logic p a).Triple (dram (.refund r.key.ns r.len) >>= .ret) _ _
    apply triple_dram (l := 0) Tier.refund_holds (add_zero _).symm trivial
    rintro _ m' rfl
    exact rfl

/-! ### GET -/

theorem getRef_triple (k : Key) : (logic p a).Triple (Tier.getRef p.dram k) 0 fun o m =>
    (∀ h, o = some h → m = ({.hold h.ref}, 0)) ∧ (o = none → m = 0) := by
  apply triple_dram (l := 0) (Tier.get_holds k fun _ => true) rfl trivial
  rintro o m' ⟨hsome, hnone⟩
  cases o with
  | none =>
    rw [hnone rfl]
    exact ⟨by simp, fun _ => rfl⟩
  | some r =>
    obtain ⟨rfl, -, -⟩ := hsome r rfl
    apply triple_dram (l := 0) (Tier.acquire_holds r) rfl trivial
    rintro b m' rfl
    cases b with
    | false => exact ⟨by simp, fun _ => rfl⟩
    | true =>
      apply triple_dram_same Tier.now_holds trivial
      intro now
      apply triple_dram_same (Tier.extendLease_holds r _) trivial
      intro _
      apply triple_dram_same (Tier.touch_holds r _ _) trivial
      intro _
      apply triple_dram_same (Tier.hit_holds r) trivial
      intro _
      by_cases hlen : 0 < r.len
      · rw [if_pos hlen]
        apply triple_dram (Tier.view_holds _ _ _) (add_zero _).symm ⟨r, by simp, rfl, rfl⟩
        rintro data m' ⟨rfl, -⟩
        refine ⟨?_, by simp⟩
        rintro h ⟨⟩
        simp
      · rw [if_neg hlen]
        refine ⟨?_, by simp⟩
        rintro h ⟨⟩
        simp

/-! ### PUT -/

theorem allocate_triple {n : ℕ} (hn : 0 < n) :
    (logic p a).Triple (Tier.allocate p.dram n) 0 fun o m =>
      (∀ x, o = some x → m = ({.raw ⟨x, n⟩}, 0)) ∧ (o = none → m = 0) := by
  have last : ∀ o m', (∀ x, o = some x → m' = {.raw ⟨x, n⟩}) ∧ (o = none → m' = 0) →
      (∀ x, o = some x → ((m' + 0, 0) : Own) = ({.raw ⟨x, n⟩}, 0)) ∧
        (o = none → ((m' + 0, 0) : Own) = 0) := by
    rintro o m' ⟨hsome, hnone⟩
    rw [add_zero]
    exact ⟨fun x hx => by rw [hsome x hx], fun hx => by rw [hnone hx]; rfl⟩
  apply triple_dram (l := 0) (Tier.alloc_holds hn) rfl trivial
  intro o m' hq
  cases o with
  | some x => exact last (some x) m' hq
  | none =>
    rw [hq.2 rfl]
    dsimp only
    split
    · change (logic p a).Triple (dram (.alloc n) >>= .ret) _ _
      apply triple_dram (l := 0) (Tier.alloc_holds hn) rfl trivial
      exact last
    · exact ⟨by simp, fun _ => rfl⟩

private theorem stake_zero (k : Key) (offset : ℕ) : stake a k offset 0 = 0 := by
  simp [stake, Tier.rawOf, owe]

private theorem stake_pos (k : Key) (offset : ℕ) {len : ℕ} (hlen : 0 < len) :
    stake a k offset len = {.raw ⟨offset, bytesToUnits len⟩} + owe a k.ns len := by
  rw [stake, Tier.rawOf, if_neg (by omega)]

theorem publishBlock_triple (k : Key) (offset len : ℕ) {x : ℕ} (hsz : a.ledger → len = a.lenOf x) :
    (logic p a).Triple (Tier.publishBlock k offset len x) (stake a k offset len, 0)
      fun _ m => m = 0 := by
  apply triple_dram (l := 0) (Tier.insert_holds hsz) (add_zero _).symm trivial
  rintro ⟨r, b⟩ m' rfl
  rw [add_zero]
  cases b with
  | true => exact rfl
  | false =>
    simp only [Bool.false_eq_true, if_false]
    split
    · next hlen =>
      rw [stake_pos k offset hlen]
      apply triple_dram (Tier.free_raw_holds _) rfl (.inl (by simp))
      rintro _ m' rfl
      apply triple_dram (l := 0) Tier.refund_holds (by simp) trivial
      rintro _ m' rfl
      exact rfl
    · next hlen =>
      obtain rfl : len = 0 := by omega
      rw [stake_zero]
      exact rfl

theorem bytesToUnits_pos {n : ℕ} (hn : n ≠ 0) : 0 < bytesToUnits n := by
  unfold bytesToUnits
  simp only [Tier.AllocUnit]
  omega

theorem dramPut_triple (k : Key) (data : List UInt8) {x : ℕ}
    (hsz : a.ledger → data.length = a.lenOf x) :
    (logic p a).Triple (Tier.put p.dram k data x) 0 fun _ m => m = 0 := by
  apply triple_dram (l := 0) (Tier.get_holds k fun _ => false) rfl trivial
  rintro o m' ⟨hsome, hnone⟩
  cases o with
  | some r =>
    rw [(hsome r rfl).1]
    exact rfl
  | none =>
    rw [hnone rfl]
    dsimp only
    split
    · next hlen =>
      have h := publishBlock_triple (p := p) k 0 0 (hlen ▸ hsz)
      rwa [stake_zero] at h
    next hlen =>
    apply Triple.bind
    apply (allocate_triple (bytesToUnits_pos hlen)).mono
    rintro o m ⟨hsome, hnone⟩
    cases o with
    | none =>
      rw [hnone rfl]
      exact rfl
    | some o =>
      rw [hsome o rfl]
      apply triple_dram_same (Tier.write_holds o data) (by simp [Needs])
      intro _
      apply triple_dram (Tier.charge_holds k.ns data.length) (zero_add _).symm trivial
      rintro b m' rfl
      cases b with
      | true =>
        have h := publishBlock_triple (p := p) k o data.length hsz
        rw [stake_pos k o (by omega), add_comm] at h
        exact h
      | false =>
        apply triple_dram (l := 0) (Tier.free_raw_holds _) (add_comm _ _) (.inl (by simp))
        rintro _ m' rfl
        exact rfl

/-! ### Removals -/

private theorem drop_triple (k : Key) (r : BlockRef) (hk : r.key = k) {β : Type} (y : β) :
    (logic p a).Triple (do
      dram (.remove k)
      Tier.refundQuota r
      Tier.release r
      pure y) ({.inside k r}, 0) fun _ m => m = 0 := by
  apply triple_dram (l := 0) (Tier.remove_holds k r) (add_zero _).symm ⟨r, .inl (by simp)⟩
  rintro _ m' rfl
  rw [add_zero, add_comm, ← hk]
  apply Triple.seq (l := ({.hold r}, 0)) (refundQuota_triple r)
  rintro _ m rfl
  rw [zero_add]
  apply Triple.bind
  apply (release_triple r).mono
  rintro _ m rfl
  exact rfl

theorem dramDelete_triple (k : Key) (force : Bool) :
    (logic p a).Triple (Tier.delete k force) 0 fun _ m => m = 0 := by
  apply triple_dram (l := 0) (Tier.gate_holds k _) rfl trivial
  rintro x m' ⟨hok, herr⟩
  cases x with
  | error st =>
    rw [herr st rfl]
    exact rfl
  | ok r =>
    obtain ⟨rfl, hk, -⟩ := hok r rfl
    exact drop_triple k r hk _

theorem dramEvictOne_triple (k : Key) (emergency : Bool) :
    (logic p a).Triple (Tier.evictOne k emergency) 0 fun _ m => m = 0 := by
  apply triple_dram (l := 0) (Tier.gate_holds k _) rfl trivial
  rintro x m' ⟨hok, herr⟩
  cases x with
  | error st =>
    rw [herr st rfl]
    exact rfl
  | ok r =>
    obtain ⟨rfl, hk, -⟩ := hok r rfl
    exact drop_triple k r hk _

/-! ### The demotion seam -/

theorem refForDemotion_triple (k : Key) : (logic p a).Triple (Tier.refForDemotion k) 0 fun o m =>
    (∀ d, o = some d → m = ({.hold d.ref}, 0) ∧ d.data.length = d.ref.len ∧ d.ref.len ≠ 0 ∧
      (a.ledger → d.ref.len = a.lenOf d.ref.xxh3)) ∧ (o = none → m = 0) := by
  apply triple_dram (l := 0) (Tier.get_holds k fun r => r.len ≠ 0) rfl trivial
  rintro o m' ⟨hsome, hnone⟩
  cases o with
  | none =>
    rw [hnone rfl]
    exact ⟨by simp, fun _ => rfl⟩
  | some r =>
    obtain ⟨rfl, -, hsz⟩ := hsome r rfl
    dsimp only
    split
    · next hlen =>
      rw [if_neg (by simp [hlen])]
      exact ⟨by simp, fun _ => rfl⟩
    next hlen =>
    rw [if_pos (by simp [hlen])]
    apply triple_dram (l := 0) (Tier.acquire_holds r) rfl trivial
    rintro b m' rfl
    cases b with
    | false => exact ⟨by simp, fun _ => rfl⟩
    | true =>
      apply triple_dram (Tier.view_holds _ _ _) (add_zero _).symm ⟨r, by simp, rfl, rfl⟩
      rintro data m' ⟨rfl, hd⟩
      apply triple_dram_same (Tier.hits_holds r) trivial
      intro hits
      refine ⟨?_, by simp⟩
      rintro d ⟨⟩
      exact ⟨by simp, hd, hlen, hsz⟩

theorem completeDemotion_triple (k : Key) (x : ℕ) :
    (logic p a).Triple (Tier.completeDemotion k x fun _ => pure ()) 0 fun b m =>
      (b = true → ∃ n, m = (owe a k.ns n, 0) ∧ (a.ledger → n = a.lenOf x)) ∧
        (b = false → m = 0) := by
  apply triple_dram (l := 0) (Tier.gate_holds k _) rfl trivial
  rintro o m' ⟨hok, herr⟩
  cases o with
  | error st =>
    rw [herr st rfl]
    exact ⟨by simp, fun _ => rfl⟩
  | ok r =>
    obtain ⟨rfl, -, hsz, hx⟩ := hok r rfl
    apply triple_dram (l := 0) (Tier.remove_holds k r) (add_zero _).symm ⟨r, .inl (by simp)⟩
    rintro _ m' rfl
    rw [add_zero]
    apply Triple.seq (l := (owe a k.ns r.len, 0)) (release_triple r)
    rintro _ m rfl
    refine ⟨fun _ => ⟨r.len, by simp, fun hl => ?_⟩, by simp⟩
    rw [hsz hl, hx x rfl]

theorem completeDemotion_publish_triple (k : Key) (x : ℕ) (loc : Disk.Loc) :
    (logic p a).Triple (Tier.completeDemotion k x fun r => publish k r loc x) (0, {.wrote loc k x})
      fun _ m => m = (0, {.wrote loc k x}) := by
  apply triple_dram (l := 0) (Tier.gate_holds k _) rfl trivial
  rintro o m' ⟨hok, herr⟩
  cases o with
  | error st =>
    rw [herr st rfl]
    exact rfl
  | ok r =>
    obtain ⟨rfl, -, hsz, hx⟩ := hok r rfl
    obtain rfl := hx x rfl
    apply triple_publish hsz
    apply triple_dram (l := 0) (Tier.remove_moved_holds k r) (add_zero _).symm ⟨r, .inr (by simp)⟩
    rintro _ m' rfl
    apply Triple.seq (l := (0, {.wrote loc k r.xxh3})) (release_triple r)
    rintro _ m rfl
    exact rfl

/-! ### Leases and pins -/

theorem dramTouchLease_triple (k : Key) (sub : TouchSub) (ttlMS : ℕ) :
    (logic p a).Triple (Tier.touchLease p.dram k sub ttlMS) 0 fun _ m => m = 0 := by
  apply triple_dram (l := 0) (Tier.get_holds k fun _ => false) rfl trivial
  rintro o m' ⟨hsome, hnone⟩
  cases o with
  | none =>
    rw [hnone rfl]
    exact rfl
  | some r =>
    rw [(hsome r rfl).1]
    cases sub with
    | touchRecency =>
      apply triple_dram_same Tier.now_holds trivial
      intro now
      apply triple_dram_same (Tier.touch_holds r _ _) trivial
      intro _
      exact rfl
    | leaseGrant =>
      apply triple_dram_same Tier.now_holds trivial
      intro now
      apply triple_dram_same (Tier.extendLease_holds r _) trivial
      intro _
      apply triple_dram_same (Tier.touch_holds r _ _) trivial
      intro _
      exact rfl
    | leaseRelease =>
      apply triple_dram_same (Tier.releaseLease_holds r) trivial
      intro _
      exact rfl
    | other => exact rfl

theorem dramPinOp_triple (k : Key) (sub : PinSub) (m : Own) :
    (logic p a).Triple (Tier.pinOp k sub) m fun _ m' => m' = m := by
  change (logic p a).Triple (dram (.pinOp k sub) >>= .ret) _ _
  apply triple_dram_same (Tier.pinOp_holds k sub) trivial
  intro _
  exact rfl

end KVStash.Tiered.Logic
