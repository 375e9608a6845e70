/- GID: KVStash/Tiered/Disk/Segments
   digest: What latches, segment files and segment objects take from and give to the thread that
     uses them. -/

import KVStash.Tiered.Disk.Stages

set_option autoImplicit false

namespace KVStash.Tiered.Disk

open Protocol Foundation.Tally Function Multiset Option
open Dram.Tier (Key Audit PinFlags)

variable {a : Audit} {t t' : Tiers} {m m' f : Own} {k : Key} {r : NvmeRef} {id : ℕ}

/-! ### The entries of a segment -/

theorem Inv.homed_mem (h : Inv a t m) (hr : Homed t k r id) : k ∈ t.entryKeys id := by
  obtain ⟨-, -, -, data, hd⟩ := h.recorded k r hr.1
  rw [← hr.2]
  unfold Tiers.recordAt at hd
  split at hd
  · cases hd
  next rec hrec =>
  split at hd
  · next hk =>
    exact List.mem_map.mpr ⟨rec, List.mem_of_getElem? hrec, hk.1⟩
  · cases hd

theorem Inv.live (h : Inv a t m) (hk : t.index k = some r) : Live t r.id := by
  obtain ⟨⟨-, href⟩, hkey⟩ := h.indexed k r hk
  rw [Live, href, hkey]
  exact hk

theorem Inv.cold_counted (h : Inv a t m) (hr : Homed t k r id)
    (hc : (t.cells r.id).s3Only = true) : 0 < t.segRefs id := by
  have hm := (h.indexed k r hr.1).1
  obtain ⟨x, hx⟩ := exists_tally_eq_add hm.1
    (fun i => if Live t i then (t.cells i).coldIn id else 0)
  have hone : (t.cells r.id).coldIn id = 1 := by
    unfold NvmeCell.coldIn
    rw [hm.2, if_pos ⟨hr.2, hc⟩]
  rw [if_pos (h.live hr.1), hone] at hx
  have := (h.counted id).1
  unfold total at this
  omega

theorem Inv.homed_cold (h : Inv a t m) (hs : t.segs id = none) (hr : Homed t k r id) :
    (t.cells r.id).s3Only = true ∧ (t.cells r.id).s3 = true ∧ t.bucket id = true := by
  have hcold : (t.cells r.id).s3Only = true := by
    by_contra hc
    rw [Bool.not_eq_true] at hc
    have := h.home k r hr.1 hc
    rw [hr.2, hs] at this
    cases this
  have := h.cold k r hr.1 hcold
  rw [hr.2] at this
  exact ⟨hcold, this⟩

theorem Inv.sealed_closed (h : Inv a t m) (hs : SealedFile t id) : Closed t id := by
  obtain ⟨g, hg, hg'⟩ := hs
  refine ⟨(h.files id g hg).1, fun g' h' => ?_⟩
  rw [hg, some.injEq] at h'
  exact h' ▸ hg'

/-! ### Actions that the invariant does not see -/

private theorem Inv.recell {c : ℕ → NvmeCell} (h : Inv a t m)
    (hc : ∀ i, (c i).ref = (t.cells i).ref ∧ ((t.cells i).s3 = true → (c i).s3 = true) ∧
      (c i).s3Only = (t.cells i).s3Only) : Inv a { t with cells := c } m := by
  have href := fun i => (hc i).1
  have hs3 := fun i => (hc i).2.1
  have honly := fun i => (hc i).2.2
  have hlive : ∀ i, Live { t with cells := c } i ↔ Live t i := by
    intro i
    simp only [Live, href]
  have hmint : ∀ r, Minted { t with cells := c } r ↔ Minted t r := by
    intro r
    simp only [Minted, href]
  have htotal : ∀ {N : Type} [AddCommMonoid N] {w : NvmeCell → N},
      (∀ i, w (c i) = w (t.cells i)) → total { t with cells := c } w = total t w := by
    intro N _ w hw
    simp only [total, hlive, hw]
  refine { h with
    ids := ?_, indexed := ?_, home := ?_, cold := ?_, spilled := ?_, stage := ?_
    gone := ?_, counted := ?_, nvmeLedger := ?_, s3Ledger := ?_ }
  · intro i hi
    exact (congrArg NvmeRef.id (href i)).trans (h.ids i hi)
  · intro k r hk
    rw [hmint]
    exact h.indexed k r hk
  · intro k r hk hcold
    exact h.home k r hk ((honly r.id).symm.trans hcold)
  · intro k r hk hcold
    obtain ⟨h1, h2⟩ := h.cold k r hk ((honly r.id).symm.trans hcold)
    exact ⟨hs3 r.id h1, h2⟩
  · intro k r g hk hg hsp
    obtain ⟨h1, h2⟩ := h.spilled k r g hk hg hsp
    exact ⟨hs3 r.id h1, h2⟩
  · intro id st hx
    exact (h.stage id st hx).mono (fun _ _ hr => hr) (fun _ r _ => honly r.id)
      (fun _ r _ => hs3 r.id) rfl (fun hb => hb)
  · intro r b hx
    obtain ⟨h1, h2, h3⟩ := h.gone r b hx
    exact ⟨(hmint r).mpr h1, (honly r.id).trans h2, h3⟩
  · intro id
    rw [htotal fun i => by simp only [NvmeCell.coldIn, href, honly]]
    exact h.counted id
  · intro hl ns
    rw [htotal fun i => by simp only [NvmeCell.warmBytes, href, honly]]
    exact h.nvmeLedger hl ns
  · intro hl ns
    rw [htotal fun i => by simp only [NvmeCell.coldBytes, href, honly]]
    exact h.s3Ledger hl ns

@[simp] theorem onCell_cells_self (g : NvmeCell → NvmeCell) :
    (t.onCell r g).cells r.id = g (t.cells r.id) :=
  update_self _ _ _

theorem onCell_cells_ne (g : NvmeCell → NvmeCell) {i : ℕ} (hi : i ≠ r.id) :
    (t.onCell r g).cells i = t.cells i :=
  update_of_ne hi _ _

theorem Inv.onCell (h : Inv a t m) {g : NvmeCell → NvmeCell}
    (hg : ∀ c, (g c).ref = c.ref ∧ (c.s3 = true → (g c).s3 = true) ∧ (g c).s3Only = c.s3Only) :
    Inv a (t.onCell r g) m := by
  apply h.recell
  intro i
  by_cases hi : i = r.id
  · rw [hi, update_self]
    exact hg _
  · rw [update_of_ne hi]
    exact ⟨rfl, fun hs => hs, rfl⟩

/-- The actions that change nothing the invariant reads. -/
def Act.quiet : Act → Bool
  | .get _ => true
  | .leaseRead _ _ _ _ => true
  | .touchLease _ _ _ _ => true
  | .setPin _ _ => true
  | .protectedIn _ _ _ => true
  | .loadS3 _ => true
  | .loadS3Only _ => true
  | .read _ _ _ => true
  | .readRange _ => true
  | .breakerOpen => true
  | .oldestSealed _ => true
  | .sealedUnspilled => true
  | .segmentEntryKeys _ => true
  | .isSpilled _ => true
  | .hasSegment _ => true
  | .headroom => true
  | .segLive _ => true
  | .download _ => true
  | .gcMark _ => true
  | .gcUnmark _ => true
  | .gcSend _ => true
  | .gcReceive => true
  | _ => false

private theorem leaseRead_inv (h : Inv a t m) (e : NvmeRef) (now until_ : ℕ) :
    Inv a (t.leaseRead k e now until_).2 m := by
  unfold Tiers.leaseRead
  split
  · dsimp only
    apply h.onCell
    exact fun _ => ⟨rfl, fun hs => hs, rfl⟩
  · exact h

private theorem touchLease_inv (h : Inv a t m) (sub : TouchSub) (ttl until_ : ℕ) :
    Inv a (t.touchLease k sub ttl until_).2 m := by
  unfold Tiers.touchLease
  split
  · exact h
  cases sub with
  | touchRecency =>
    dsimp only
    split
    · apply h.onCell
      exact fun _ => ⟨rfl, fun hs => hs, rfl⟩
    · exact h
  | leaseGrant | leaseRelease =>
    dsimp only
    apply h.onCell
    exact fun _ => ⟨rfl, fun hs => hs, rfl⟩
  | other => exact h

private theorem setPin_inv (h : Inv a t m) (fl : PinFlags) : Inv a (t.setPin k fl).2 m := by
  unfold Tiers.setPin
  split
  · exact h
  · dsimp only
    apply h.onCell
    exact fun _ => ⟨rfl, fun hs => hs, rfl⟩

private theorem read_state {now env : ℕ} {loc : Loc} {x : ℕ} {o : ReadResult}
    (he : exec now (.read loc k x) env t = some (o, t')) : t' = t := by
  simp only [exec] at he
  split at he <;> (cases he; rfl)

private theorem readRange_state {now env : ℕ} {o : Except Status (List UInt8)}
    (he : exec now (.readRange r) env t = some (o, t')) : t' = t := by
  simp only [exec] at he
  split at he
  · split at he <;> (cases he; rfl)
  · cases he; rfl
  · cases he; rfl

theorem Inv.quiet_step {x : Act} (hx : x.quiet = true) (h : Inv a t m) {now env : ℕ} {o : x.Resp}
    (he : exec now x env t = some (o, t')) : Inv a t' m := by
  cases x with
  | leaseRead k e now until_ =>
    have ht : t' = (t.leaseRead k e now until_).2 := (congrArg Prod.snd (some.inj he)).symm
    rw [ht]
    exact leaseRead_inv h e now until_
  | touchLease k sub ttl until_ =>
    have ht : t' = (t.touchLease k sub ttl until_).2 :=
      (congrArg Prod.snd (some.inj he)).symm
    rw [ht]
    exact touchLease_inv h sub ttl until_
  | setPin k fl =>
    have ht : t' = (t.setPin k fl).2 := (congrArg Prod.snd (some.inj he)).symm
    rw [ht]
    exact setPin_inv h fl
  | read loc k x => exact read_state he ▸ h
  | readRange r => exact readRange_state he ▸ h
  | gcMark _ | gcUnmark _ =>
    cases he
    exact { h with }
  | gcSend id =>
    simp only [exec] at he
    split at he
    · cases he
      exact { h with }
    · cases he
      exact h
  | gcReceive =>
    simp only [exec] at he
    split at he
    · cases he
    · cases he
      exact { h with }
  | get _ | protectedIn _ _ _ | loadS3 _ | loadS3Only _ | breakerOpen | oldestSealed _
  | sealedUnspilled
  | segmentEntryKeys _ | isSpilled _ | hasSegment _ | headroom | segLive _ | download _ =>
    cases he
    exact h
  | _ => cases hx

theorem quiet_holds {x : Act} (hx : x.quiet = true) (m : Own) : Holds a x m fun _ m' => m' = m :=
  fun _ _ _ h _ _ _ he => ⟨m, h.quiet_step hx he, rfl⟩

/-! ### The latch -/

theorem latch_holds (id : ℕ) : Holds a (.latch id) 0 fun b m' =>
    m' = if b then {.latch id .held} else 0 := by
  intro now t f h env b t' he
  rw [zero_add] at h
  simp only [exec] at he
  split at he
  · cases he
    exact ⟨0, by rwa [zero_add], rfl⟩
  next hfree =>
  cases he
  refine ⟨{.latch id .held}, ?_, rfl⟩
  rw [← zero_add f] at h
  refine h.exchange { latched := ?_, stage := ?_ }
  · intro id'
    by_cases hid : id' = id
    · subst hid
      simp [Tok.latches, hfree]
    · simp [Tok.latches, update_of_ne hid, Ne.symm hid]
  · intro id' st hx
    rw [mem_singleton, Tok.latch.injEq] at hx
    rw [hx.2]
    trivial

theorem latch_footer_holds (id : ℕ) (ks : List Key) :
    Holds a (.latch id) {.footer id ks} fun b m' =>
      m' = if b then {.latch id .held} + {.footer id ks} else 0 := by
  intro now t f h env b t' he
  obtain ⟨m', h', hm'⟩ := latch_holds id now t ({.footer id ks} + f) (by rwa [zero_add]) env b t' he
  cases b with
  | true =>
    refine ⟨_, ?_, rfl⟩
    rwa [hm', ← add_assoc] at h'
  | false =>
    refine ⟨_, ?_, rfl⟩
    rw [hm', if_neg (by simp), zero_add] at h'
    rw [if_neg (by simp), zero_add]
    exact h'.forget

theorem unlatch_holds (id : ℕ) {st : Stage} (hst : ∀ fl sw, st ≠ .retiring fl sw) :
    Holds a (.unlatch id) {.latch id st} fun _ m' => m' = 0 := by
  intro now t f h env b t' he
  cases he
  refine ⟨0, h.exchange { latched := ?_, dying := ?_ }, rfl⟩
  · intro id'
    have hl := h.latched id
    rw [weigh_add, weigh_singleton, Tok.latches, if_pos rfl] at hl
    have hheld : t.inflight id = true := by
      by_contra hfree
      rw [if_neg hfree] at hl
      omega
    by_cases hid : id' = id
    · subst hid
      simp [Tok.latches, hheld]
    · simp [Tok.latches, update_of_ne hid, Ne.symm hid]
  · intro id' fl sw hx
    rw [mem_singleton, Tok.latch.injEq] at hx
    exact absurd hx.2.symm (hst fl sw)

/-! ### Looking at a segment -/

theorem oldestSealed_holds (from_ : ℕ) : Holds a (.oldestSealed from_) 0 fun o m' =>
    (∀ id ks, o = some (id, ks) → m' = {.footer id ks}) ∧ (o = none → m' = 0) := by
  intro now t f h env o t' he
  rw [zero_add] at h
  cases he
  cases ho : t.oldestSealed from_ with
  | none => exact ⟨0, by rwa [zero_add], by simp, fun _ => rfl⟩
  | some id =>
    have hsealed : SealedFile t id := by
      have hfind := List.find?_some ho
      simp only [Bool.and_eq_true, any_eq_true] at hfind
      obtain ⟨-, g, hg, hgs⟩ := hfind
      exact ⟨g, hg, hgs.1⟩
    refine ⟨{.footer id (t.entryKeys id)}, h.know (h.sealed_closed hsealed), ?_, by simp⟩
    intro id' ks hx
    simp only [map_some, some.injEq, Prod.mk.injEq] at hx
    rw [← hx.1, ← hx.2]

theorem sealedUnspilled_holds (id : ℕ) : Holds a .sealedUnspilled 0 fun ids m' =>
    (id ∈ ids → ∃ ks, m' = {.footer id ks}) ∧ (id ∉ ids → m' = 0) := by
  intro now t f h env ids t' he
  rw [zero_add] at h
  cases he
  by_cases hid : id ∈ t.sealedUnspilled
  · have hsealed : SealedFile t id := by
      have hany := (List.mem_filter.mp hid).2
      simp only [any_eq_true, Bool.and_eq_true] at hany
      obtain ⟨g, hg, hgs⟩ := hany
      exact ⟨g, hg, hgs.1.1⟩
    exact ⟨_, h.know (h.sealed_closed hsealed), fun _ => ⟨_, rfl⟩, fun hn => absurd hid hn⟩
  · exact ⟨0, by rwa [zero_add], fun hn => absurd hn hid, fun _ => rfl⟩

theorem segmentEntryKeys_holds (id : ℕ) {st : Stage} (ks : List Key)
    (hst : ∀ t : Tiers, st.Ok t id → (t.segs id).isSome) :
    Holds a (.segmentEntryKeys id) ({.latch id st} + {.footer id ks}) fun o m' =>
      o = ks ∧ m' = {.latch id st} + {.footer id ks} := by
  intro now t f h env o t' he
  cases he
  have hsome := hst t (h.stage id st (by simp))
  have hks := (h.footer id ks (by simp)).2
  refine ⟨_, h, ?_, rfl⟩
  rw [if_pos hsome, hks]

theorem hasSegment_holds (id : ℕ) : Holds a (.hasSegment id) {.latch id .held} fun b m' =>
    m' = if b then {.latch id .present} else {.latch id .held} := by
  intro now t f h env b t' he
  cases he
  dsimp only
  split
  · next hb =>
    refine ⟨{.latch id .present}, h.restage ?_ (by simp), rfl⟩
    exact hb
  · exact ⟨_, h, rfl⟩

theorem segLive_holds (id : ℕ) : Holds a (.segLive id) {.latch id .held} fun b m' =>
    m' = if b then {.latch id .held} else {.latch id .drained} := by
  intro now t f h env b t' he
  cases he
  dsimp only
  split
  · exact ⟨_, h, rfl⟩
  next hb =>
  refine ⟨_, h.restage ?_ (by simp), rfl⟩
  intro k r hr
  by_contra hc
  rw [Bool.not_eq_false] at hc
  have := h.cold_counted hr hc
  simp only [decide_eq_true_eq] at hb
  omega

theorem isSpilled_drained_holds (id : ℕ) : Holds a (.isSpilled id) {.latch id .drained}
    fun b m' => m' = if b then {.latch id .drained} else {.latch id .dead} := by
  intro now t f h env b t' he
  cases he
  dsimp only
  split
  · exact ⟨_, h, rfl⟩
  next hb =>
  refine ⟨_, h.restage ?_ (by simp), rfl⟩
  intro k r hr
  have hwarm := h.stage id .drained (by simp) k r hr
  have hhome := h.home k r hr.1 hwarm
  rw [hr.2] at hhome
  obtain ⟨g, hg⟩ := isSome_iff_exists.mp hhome
  refine ⟨hwarm, g, hg, ?_⟩
  simpa [Tiers.isSpilled, hg] using hb

theorem isSpilled_retiring_holds (id : ℕ) : Holds a (.isSpilled id) {.latch id (.retiring false [])}
    fun b m' => m' = {.latch id (.retiring b [])} := by
  intro now t f h env b t' he
  cases he
  refine ⟨_, h.restage ?_ fun _ => ⟨_, _, rfl⟩, rfl⟩
  obtain ⟨⟨g, hg, h1, h2, -⟩, hsw⟩ := h.stage id (.retiring false []) (by simp)
  refine ⟨⟨g, hg, h1, h2, fun hb => ?_⟩, hsw⟩
  simpa [Tiers.isSpilled, hg] using hb

/-! ### Retiring a segment file -/

theorem onSeg_of_some {g : Segment} (hg : t.segs id = some g) (u : Segment → Segment) :
    t.onSeg id u = { t with segs := update t.segs id (some (u g)) } := by
  simp [Tiers.onSeg, hg]

theorem retireBegin_holds (id : ℕ) : Holds a (.retireBegin id) {.latch id .held} fun b m' =>
    m' = if b then {.latch id (.retiring false [])} else {.latch id .held} := by
  intro now t f h env b t' he
  simp only [exec] at he
  split at he
  · cases he
    exact ⟨_, h, rfl⟩
  next g hg =>
  split at he
  · next hgs =>
    rw [Bool.and_eq_true, Bool.not_eq_true'] at hgs
    rw [onSeg_of_some hg] at he
    cases he
    have hself : (update t.segs id (some { g with dying := true })) id =
        some { g with dying := true } := update_self _ _ _
    refine ⟨_, h.reseg (h.sealed_closed ⟨g, hg, hgs.1⟩) (Restaged.latch id .held _ f)
      (by simp) ?_ ?_ ?_ ?_, rfl⟩
    · rintro g' ⟨⟩
      exact hgs.1
    · rintro g' ⟨⟩ hsp k r hr
      have := h.spilled k r g hr.1 (hr.2.symm ▸ hg) hsp
      rwa [hr.2] at this
    · intro st hx
      rw [mem_add, mem_singleton, Tok.latch.injEq] at hx
      rcases hx with ⟨-, rfl⟩ | hx
      · exact ⟨⟨_, hself, hgs.1, rfl, by simp⟩, by simp⟩
      · exact absurd hx (h.latch_notMem st)
    · exact fun _ _ _ => ⟨false, [], by simp⟩
  · cases he
    exact ⟨_, h, rfl⟩

theorem retireAbort_holds (id : ℕ) (fl : Bool) (sw : List Key) :
    Holds a (.retireAbort id) {.latch id (.retiring fl sw)} fun _ m' => m' = {.latch id .held} := by
  intro now t f h env b t' he
  obtain ⟨⟨g, hg, h1, -, -⟩, -⟩ := h.stage id (.retiring fl sw) (by simp)
  simp only [exec] at he
  rw [onSeg_of_some hg] at he
  cases he
  refine ⟨_, h.reseg (h.sealed_closed ⟨g, hg, h1⟩) (Restaged.latch id _ .held f)
    (by simp) ?_ ?_ ?_ ?_, rfl⟩
  · rintro g' ⟨⟩
    exact h1
  · rintro g' ⟨⟩ hsp k r hr
    have := h.spilled k r g hr.1 (hr.2.symm ▸ hg) hsp
    rwa [hr.2] at this
  · intro st hx
    rw [mem_add, mem_singleton, Tok.latch.injEq] at hx
    rcases hx with ⟨-, rfl⟩ | hx
    · trivial
    · exact absurd hx (h.latch_notMem st)
  · rintro g' ⟨⟩ hd
    cases hd

theorem retireFinish_holds (id : ℕ) (fl : Bool) {sw ks : List Key} (hks : ∀ k ∈ ks, k ∈ sw) :
    Holds a (.retireFinish id) ({.latch id (.retiring fl sw)} + {.footer id ks})
      fun _ m' => m' = {.latch id .held} + {.footer id ks} := by
  intro now t f h env b t' he
  obtain ⟨⟨g, hg, h1, h2, -⟩, hsw⟩ := h.stage id (.retiring fl sw) (by simp)
  have hfoot := h.footer id ks (by simp)
  rw [add_assoc] at h
  simp only [exec, hg, h2, if_true] at he
  cases he
  refine ⟨_, ?_, rfl⟩
  rw [add_assoc]
  apply h.reseg hfoot.1 (Restaged.latch id _ .held _) ?_ (by simp) (by simp) ?_ (by simp)
  · intro _ k r hr
    exact hsw k (hks k (hfoot.2 ▸ h.homed_mem hr)) r hr
  intro st hx
  rw [mem_add, mem_singleton, Tok.latch.injEq] at hx
  rcases hx with ⟨-, rfl⟩ | hx
  · trivial
  · exact absurd hx (h.latch_notMem st)

/-! ### Segment objects -/

theorem upload_holds (id : ℕ) (ks : List Key) :
    Holds a (.upload id) ({.latch id .held} + {.footer id ks}) fun b m' =>
      m' = {.latch id (if b then .uploaded [] else .held)} + {.footer id ks} := by
  intro now t f h env b t' he
  -- an object that appears takes nothing away from anybody
  have hput : Inv a { t with bucket := update t.bucket id true }
      ({.latch id .held} + {.footer id ks} + f) := by
    have hb : ∀ id', t.bucket id' = true → update t.bucket id true id' = true := by
      intro id' hx
      by_cases hid : id' = id
      · rw [hid, update_self]
      · rwa [update_of_ne hid]
    refine { h with cold := ?_, spilled := ?_, stage := ?_ }
    · exact fun k r hk hc => ⟨(h.cold k r hk hc).1, hb _ (h.cold k r hk hc).2⟩
    · exact fun k r g hk hg hs => ⟨(h.spilled k r g hk hg hs).1, hb _ (h.spilled k r g hk hg hs).2⟩
    · exact fun id' st hx => (h.stage id' st hx).mono (fun _ _ hr => hr) (fun _ _ _ => rfl)
        (fun _ _ _ hr => hr) rfl (hb id')
  simp only [exec] at he
  split at he
  · next g hg =>
    cases he
    refine ⟨_, ?_, rfl⟩
    rw [add_assoc] at hput ⊢
    apply hput.restage ?_ (by simp)
    have hc := (h.footer id ks (by simp)).1
    exact ⟨⟨g, hg, hc.2 g hg⟩, update_self _ _ _, by simp⟩
  · cases he
    exact ⟨_, hput, rfl⟩
  · cases he
    exact ⟨_, h, rfl⟩

theorem markSpilled_holds (id : ℕ) {fl ks : List Key} (hks : ∀ k ∈ ks, k ∈ fl) :
    Holds a (.markSpilled id) ({.latch id (.uploaded fl)} + {.footer id ks})
      fun _ m' => m' = {.latch id .held} := by
  intro now t f h env b t' he
  obtain ⟨⟨g, hg, hgs⟩, hb, hfl⟩ := h.stage id (.uploaded fl) (by simp)
  have hfoot := h.footer id ks (by simp)
  have h' : Inv a t ({.latch id (.uploaded fl)} + f) := by
    rw [add_assoc, add_left_comm] at h
    exact h.forget
  simp only [exec] at he
  rw [onSeg_of_some hg] at he
  cases he
  refine ⟨_, h'.reseg hfoot.1 (Restaged.latch id _ .held f) (by simp) ?_ ?_ ?_ ?_, rfl⟩
  · rintro g' ⟨⟩
    exact hgs
  · rintro g' ⟨⟩ - k r hr
    exact ⟨hfl k (hks k (hfoot.2 ▸ h.homed_mem hr)) r hr, hb⟩
  · intro st hx
    rw [mem_add, mem_singleton, Tok.latch.injEq] at hx
    rcases hx with ⟨-, rfl⟩ | hx
    · trivial
    · exact absurd hx (h'.latch_notMem st)
  · rintro g' ⟨⟩ hd
    obtain ⟨fl', sw, hx⟩ := h'.dying id g hg hd
    rw [mem_add, mem_singleton] at hx
    rcases hx with hx | hx
    · cases hx
    · exact absurd hx (h'.latch_notMem _)

private theorem Inv.adopt (h : Inv a t m) (hs : t.segs id = none) (hid : id < t.nextSeg) :
    Inv a { t with segs := update t.segs id (some ⟨true, true, false⟩) } m := by
  have hself : (update t.segs id (some ⟨true, true, false⟩)) id =
      some ⟨true, true, false⟩ := update_self _ _ _
  have hclosed : Closed t id := ⟨hid, fun g hg => by rw [hs] at hg; cases hg⟩
  apply h.reseg hclosed (Restaged.refl id m) (by simp) (by simp)
  · intro g _ _ k r hr
    exact (h.homed_cold hs hr).2
  · intro st hx
    have hok := h.stage id st hx
    apply hok.of_unsealed
    · rintro ⟨g, hg, -⟩
      rw [hs] at hg
      cases hg
    · exact congrArg isSome hself
    · rintro rfl
      exact hok
    · rintro rfl k r hr
      have hcold := (h.homed_cold hs hr).1
      rw [(hok k r hr).1] at hcold
      cases hcold
  · rintro g ⟨⟩ hd
    cases hd

theorem adoptSegment_holds (id : ℕ) (m : Own) :
    Holds a (.adoptSegment id) m fun _ m' => m' = m := by
  intro now t f h env b t' he
  simp only [exec] at he
  split at he
  · next hs =>
    split at he
    · next hid =>
      cases he
      exact ⟨m, h.adopt hs hid, rfl⟩
    · cases he
      exact ⟨m, h, rfl⟩
  · cases he
    exact ⟨m, h, rfl⟩

theorem adoptSegment_held_holds (id : ℕ) : Holds a (.adoptSegment id) {.latch id .held}
    fun b m' => m' = {.latch id (if b then .present else .held)} := by
  intro now t f h env b t' he
  simp only [exec] at he
  split at he
  · next hs =>
    split at he
    · next hid =>
      cases he
      refine ⟨{.latch id .present}, (h.adopt hs hid).restage ?_ (by simp), rfl⟩
      change (update t.segs id _ id).isSome = true
      rw [update_self]
      rfl
    · cases he
      exact ⟨_, h, rfl⟩
  · cases he
    exact ⟨_, h, rfl⟩

theorem drop_holds (id : ℕ) :
    Holds a (.drop id) {.latch id .dead} fun _ m' => m' = {.latch id .dead} := by
  intro now t f h env b t' he
  simp only [exec] at he
  split at he
  · cases he
    refine ⟨_, ?_, rfl⟩
    have hdead := h.stage id .dead (by simp)
    have hb : ∀ {id'}, id' ≠ id → t.bucket id' = true →
        update t.bucket id false id' = true := by
      intro id' hid hx
      rwa [update_of_ne hid]
    refine { h with cold := ?_, spilled := ?_, stage := ?_ }
    · intro k r hk hc
      obtain ⟨h1, h2⟩ := h.cold k r hk hc
      refine ⟨h1, hb ?_ h2⟩
      intro hid
      have hwarm := (hdead k r ⟨hk, hid⟩).1
      rw [show (t.cells r.id).s3Only = true from hc] at hwarm
      cases hwarm
    · intro k r g hk hg hs
      obtain ⟨h1, h2⟩ := h.spilled k r g hk hg hs
      refine ⟨h1, hb ?_ h2⟩
      intro hid
      obtain ⟨-, g', hg', hs'⟩ := hdead k r ⟨hk, hid⟩
      rw [← hid, show t.segs r.loc.segmentID = some g from hg, some.injEq] at hg'
      rw [← hg', hs] at hs'
      cases hs'
    · intro id' st hx
      by_cases hid : id' = id
      · rw [mem_add, mem_singleton, Tok.latch.injEq] at hx
        rcases hx with ⟨-, rfl⟩ | hx
        · rw [hid]
          exact hdead
        · exact absurd (hid ▸ hx) (h.latch_notMem st)
      · exact (h.stage id' st hx).mono (fun _ _ hr => hr) (fun _ _ _ => rfl)
          (fun _ _ _ hr => hr) rfl (hb hid)
  · cases he
    exact ⟨_, h, rfl⟩

end KVStash.Tiered.Disk
