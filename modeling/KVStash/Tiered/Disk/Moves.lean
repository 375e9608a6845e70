/- GID: KVStash/Tiered/Disk/Moves
   digest: What an entry's change of home takes and gives: flags, flips both ways and publication.
     -/

import KVStash.Tiered.Disk.Entries

set_option autoImplicit false

namespace KVStash.Tiered.Disk

open Protocol Foundation.Tally NvmeCell Function Option
open Dram.Tier (Key Audit)

variable {a : Audit} {t t' : Tiers} {m m' f : Own} {k : Key} {r : NvmeRef} {id : ℕ}

/-! ### Flags -/

theorem get_flag_holds (k : Key) (id : ℕ) (fl : List Key) :
    Holds a (.get k) {.latch id (.uploaded fl)} fun o m' =>
      (∀ r, o = some r → r.loc.segmentID = id → m' = {.latch id (.flagging fl k r)}) ∧
      ((∀ r, o = some r → r.loc.segmentID ≠ id) → m' = {.latch id (.uploaded (k :: fl))}) := by
  intro now t f h env o t' he
  cases he
  obtain ⟨h1, h2, h3⟩ := h.stage id (.uploaded fl) (by simp)
  by_cases hr : ∃ r, t.index k = some r ∧ r.loc.segmentID = id
  · obtain ⟨r, hk, hid⟩ := hr
    have hok : Stage.Ok t id (.flagging fl k r) := by
      refine ⟨h1, h2, h3, fun r' hr' => ?_⟩
      have := hr'.1
      rw [hk, some.injEq] at this
      exact this.symm
    refine ⟨_, h.restage hok (by simp), ?_, ?_⟩
    · intro r' hr' _
      rw [hk, some.injEq] at hr'
      rw [hr']
    · exact fun hno => absurd hid (hno r hk)
  · have hok : Stage.Ok t id (.uploaded (k :: fl)) := by
      refine ⟨h1, h2, fun k' hk' r hr' => ?_⟩
      rcases List.mem_cons.mp hk' with rfl | hk'
      · exact absurd ⟨r, hr'⟩ hr
      · exact h3 k' hk' r hr'
    refine ⟨_, h.restage hok (by simp), ?_, fun _ => rfl⟩
    exact fun r hk hid => absurd ⟨r, hk, hid⟩ hr

theorem storeS3_holds (k : Key) (r : NvmeRef) (id : ℕ) (fl : List Key) :
    Holds a (.storeS3 r) {.latch id (.flagging fl k r)}
      fun _ m' => m' = {.latch id (.uploaded (k :: fl))} := by
  intro now t f h env o t' he
  cases he
  have h' := h.onCell (r := r) (g := fun c => { c with s3 := true }) fun _ =>
    ⟨rfl, fun _ => rfl, rfl⟩
  obtain ⟨h1, h2, h3, h4⟩ := h'.stage id (.flagging fl k r) (by simp)
  have hok : Stage.Ok (t.onCell r fun c => { c with s3 := true }) id (.uploaded (k :: fl)) := by
    refine ⟨h1, h2, fun k' hk' r' hr' => ?_⟩
    rcases List.mem_cons.mp hk' with rfl | hk'
    · rw [h4 r' hr']
      simp [Tiers.onCell]
    · exact h3 k' hk' r' hr'
  exact ⟨_, h'.restage hok (by simp), rfl⟩

/-! ### Flips -/

/-- A cell that changes its home takes its weight in each total over. -/
private theorem Inv.total_flip {b : Bool} (h : Inv a t m) (hr : Homed t k r id)
    (hb : (t.cells r.id).s3Only = !b) :
    (∀ id', (bif b then (if id = id' then 1 else 0) else 0) + total t (coldIn id') =
      (bif b then 0 else if id = id' then 1 else 0) +
        total (t.onCell r fun c => { c with s3Only := b }) (coldIn id')) ∧
    ∀ ns, ((bif b then 0 else if k.ns = ns then (r.len : ℤ) else 0) + total t (warmBytes ns) =
      (bif b then (if k.ns = ns then (r.len : ℤ) else 0) else 0) +
        total (t.onCell r fun c => { c with s3Only := b }) (warmBytes ns)) ∧
      (bif b then (if k.ns = ns then (r.len : ℤ) else 0) else 0) + total t (coldBytes ns) =
      (bif b then 0 else if k.ns = ns then (r.len : ℤ) else 0) +
        total (t.onCell r fun c => { c with s3Only := b }) (coldBytes ns) := by
  obtain ⟨⟨-, hmint⟩, hkey⟩ := h.indexed k r hr.1
  have htotal {N : Type} [AddCommMonoid N] (w : NvmeCell → N) :=
    h.total_onCell hr.1 (g := fun c => { c with s3Only := b }) (fun _ => rfl) w
  refine ⟨fun id' => ?_, fun ns => ⟨?_, ?_⟩⟩
  · have ht := htotal (coldIn id')
    cases b <;> simpa [coldIn, hmint, hb, hr.2] using ht
  · have ht := htotal (warmBytes ns)
    cases b <;> simpa [warmBytes, hmint, hb, hkey] using ht
  · have ht := htotal (coldBytes ns)
    cases b <;> simpa [coldBytes, hmint, hb, hkey] using ht

private theorem Inv.flip {b : Bool} {st : Stage} {c : ℕ → ℕ} {u v : ℕ → ℤ}
    (h : Inv a t ({.latch id st} + f)) (hr : Homed t k r id) (hb : (t.cells r.id).s3Only = !b)
    (hflag : b = true → (t.cells r.id).s3 = true ∧ t.bucket id = true)
    (hfile : b = false → (t.segs id).isSome)
    (hst : st.Ok { t.onCell r fun c => { c with s3Only := b } with
      segRefs := c, usedNvme := u, usedS3 := v } id)
    (hc : c = update t.segRefs id (bif b then t.segRefs id + 1 else t.segRefs id - 1))
    (hu : a.ledger → ∀ ns, u ns = weigh (Tok.nvmeOwed ns) ({.latch id st} + f) +
      total (t.onCell r fun c => { c with s3Only := b }) (warmBytes ns))
    (hv : a.ledger → ∀ ns, v ns = weigh (Tok.s3Owed ns) ({.latch id st} + f) +
      total (t.onCell r fun c => { c with s3Only := b }) (coldBytes ns)) :
    Inv a { t.onCell r fun c => { c with s3Only := b } with
      segRefs := c, usedNvme := u, usedS3 := v } ({.latch id st} + f) := by
  have hcounted : ∀ id', total (t.onCell r fun c => { c with s3Only := b }) (coldIn id') +
      weigh (Tok.segs id') ({.latch id st} + f) ≤ c id' ∧
      (a.liveness → total (t.onCell r fun c => { c with s3Only := b }) (coldIn id') +
        weigh (Tok.segs id') ({.latch id st} + f) = c id') := by
    intro id'
    have hcount := h.counted id'
    have ht := (h.total_flip hr hb).1 id'
    rw [hc]
    by_cases hid : id' = id
    · subst hid
      cases b <;> simp only [cond_true, cond_false, if_true, update_self] at ht ⊢
      all_goals exact ⟨by omega, fun hl => by have := hcount.2 hl; omega⟩
    · cases b <;> simp only [cond_true, cond_false, if_neg (Ne.symm hid), update_of_ne hid] at ht ⊢
      all_goals exact ⟨by omega, fun hl => by have := hcount.2 hl; omega⟩
  have hself : update t.cells r.id { t.cells r.id with s3Only := b } r.id =
      { t.cells r.id with s3Only := b } := update_self _ _ _
  have hne : ∀ {i}, i ≠ r.id →
      update t.cells r.id { t.cells r.id with s3Only := b } i = t.cells i :=
    fun hi => update_of_ne hi _ _
  have hcell : ∀ i, (update t.cells r.id { t.cells r.id with s3Only := b } i).ref =
      (t.cells i).ref ∧ (update t.cells r.id { t.cells r.id with s3Only := b } i).s3 =
      (t.cells i).s3 := by
    intro i
    by_cases hi : i = r.id
    · rw [hi, hself]
      exact ⟨rfl, rfl⟩
    · rw [hne hi]
      exact ⟨rfl, rfl⟩
  have hdiff : ∀ {k' r'}, t.index k' = some r' → r'.id = r.id → r' = r :=
    fun hk' hid => h.ref_eq hr.1 hk' hid
  refine { h with
    ids := ?_, indexed := ?_, home := ?_, cold := ?_, spilled := ?_, stage := ?_
    gone := ?_, counted := hcounted, nvmeLedger := hu, s3Ledger := hv }
  · intro i hi
    exact (congrArg NvmeRef.id (hcell i).1).trans (h.ids i hi)
  · intro k' r' hk'
    obtain ⟨⟨h1, h2⟩, h3⟩ := h.indexed k' r' hk'
    exact ⟨⟨h1, (hcell r'.id).1.trans h2⟩, h3⟩
  · intro k' r' hk' hcold
    by_cases hid : r'.id = r.id
    · rw [hdiff hk' hid, hr.2]
      apply hfile
      have hx : (update t.cells r.id { t.cells r.id with s3Only := b } r'.id).s3Only =
        false := hcold
      rwa [hid, hself] at hx
    · have hx : (update t.cells r.id { t.cells r.id with s3Only := b } r'.id).s3Only =
        false := hcold
      rw [hne hid] at hx
      exact h.home k' r' hk' hx
  · intro k' r' hk' hcold
    have hx : (update t.cells r.id { t.cells r.id with s3Only := b } r'.id).s3Only =
      true := hcold
    refine ⟨(hcell r'.id).2.trans ?_, ?_⟩
    · by_cases hid : r'.id = r.id
      · rw [hid, hself] at hx
        rw [hid]
        exact (hflag hx).1
      · rw [hne hid] at hx
        exact (h.cold k' r' hk' hx).1
    · by_cases hid : r'.id = r.id
      · rw [hid, hself] at hx
        rw [hdiff hk' hid, hr.2]
        exact (hflag hx).2
      · rw [hne hid] at hx
        exact (h.cold k' r' hk' hx).2
  · intro k' r' g hk' hg hs
    obtain ⟨h1, h2⟩ := h.spilled k' r' g hk' hg hs
    exact ⟨(hcell r'.id).2.trans h1, h2⟩
  · intro id' st' hx
    by_cases hid : id' = id
    · rw [Multiset.mem_add, Multiset.mem_singleton, Tok.latch.injEq] at hx
      rcases hx with ⟨-, rfl⟩ | hx
      · rw [hid]
        exact hst
      · exact absurd (hid ▸ hx) (h.latch_notMem st')
    · refine (h.stage id' st' hx).mono (fun _ _ hr' => hr') ?_ ?_ rfl (fun hb => hb)
      · intro k' r' hr'
        have : r'.id ≠ r.id := by
          intro hx
          rw [← hr.2, ← hr'.2, hdiff hr'.1 hx] at hid
          exact hid rfl
        exact congrArg s3Only (hne this)
      · exact fun k' r' _ hs => (hcell r'.id).2.trans hs
  · intro r' b' hx
    obtain ⟨⟨h1, h2⟩, h3, h4⟩ := h.gone r' b' hx
    refine ⟨⟨h1, (hcell r'.id).1.trans h2⟩, ?_, h4⟩
    have : r'.id ≠ r.id := by
      intro hid
      apply h4
      have hrr : r' = r := by rw [← h2, hid, (h.indexed k r hr.1).1.2]
      rw [hrr, (h.indexed k r hr.1).2]
      exact hr.1
    exact (congrArg s3Only (hne this)).trans h3

private theorem Inv.flipCold {sw : List Key} (h : Inv a t ({.latch id (.retiring true sw)} + f))
    (hr : Homed t k r id) (hwarm : (t.cells r.id).s3Only = false)
    (hfile : ∃ g, t.segs id = some g ∧ g.spilled = true) :
    Inv a { ((t.addS3 k.ns r.len).refundNvme k.ns r.len).onCell r
        fun c => { c with s3Only := true } with
      segRefs := update t.segRefs id (t.segRefs id + 1) }
      ({.latch id (.retiring true (k :: sw))} + f) := by
  obtain ⟨g, hg, hsp⟩ := hfile
  obtain ⟨hold, hsw⟩ := h.stage id (.retiring true sw) (by simp)
  have hobj := h.spilled k r g hr.1 (hr.2.symm ▸ hg) hsp
  rw [hr.2] at hobj
  have hself : ((t.onCell r fun c => { c with s3Only := true }).cells r.id).s3Only = true := by
    rw [onCell_cells_self]
  have hcells : ∀ k' r', Homed t k' r' id → (t.cells r'.id).s3Only = true →
      ((t.onCell r fun c => { c with s3Only := true }).cells r'.id).s3Only = true := by
    intro k' r' _ hs
    by_cases hid : r'.id = r.id
    · rw [hid]
      exact hself
    · rwa [onCell_cells_ne _ hid]
  have hflip := h.flip (b := true) (c := update t.segRefs id (t.segRefs id + 1))
    (u := update t.usedNvme k.ns (max 0 (t.usedNvme k.ns - r.len)))
    (v := update t.usedS3 k.ns (t.usedS3 k.ns + r.len)) hr hwarm (fun _ => hobj) (by simp)
    ⟨hold, fun k' hk' r' hr' => hcells k' r' hr' (hsw k' hk' r' hr')⟩ rfl ?_ ?_
  · refine hflip.restage ⟨hold, fun k' hk' r' hr' => ?_⟩ fun _ => ⟨_, _, rfl⟩
    rcases List.mem_cons.mp hk' with rfl | hk'
    · have hrr : r' = r := some.inj (hr'.1.symm.trans hr.1)
      rw [hrr]
      exact hself
    · exact hcells k' r' hr' (hsw k' hk' r' hr')
  · refine fun hl => update_refund (h.nvmeLedger hl) (fun ns => ?_)
      fun ns => add_nonneg (nvmeOwed_nonneg ns _) (total_warmBytes_nonneg ns)
    have ht := ((h.total_flip (b := true) hr hwarm).2 ns).1
    rw [cond_true, cond_true] at ht
    omega
  · refine fun hl => update_charge (h.s3Ledger hl) fun ns => ?_
    have ht := ((h.total_flip (b := true) hr hwarm).2 ns).2
    rw [cond_true, cond_true] at ht
    omega

private theorem Inv.flipHome (h : Inv a t ({.latch id .present} + f))
    (hr : Homed t k r id) (hcold : (t.cells r.id).s3Only = true) :
    Inv a { ((t.addNvme k.ns r.len).refundS3 k.ns r.len).onCell r
        fun c => { c with s3Only := false } with
      segRefs := update t.segRefs id (t.segRefs id - 1) } ({.latch id .present} + f) := by
  have hfile : (t.segs id).isSome := h.stage id .present (by simp)
  apply h.flip (b := false) (u := update t.usedNvme k.ns (t.usedNvme k.ns + r.len))
    (v := update t.usedS3 k.ns (max 0 (t.usedS3 k.ns - r.len))) hr hcold (by simp)
    (fun _ => hfile) hfile rfl
  · refine fun hl => update_charge (h.nvmeLedger hl) fun ns => ?_
    have ht := ((h.total_flip (b := false) hr hcold).2 ns).1
    rw [cond_false, cond_false] at ht
    omega
  · refine fun hl => update_refund (h.s3Ledger hl) (fun ns => ?_)
      fun ns => add_nonneg (s3Owed_nonneg ns _) (total_coldBytes_nonneg ns)
    have ht := ((h.total_flip (b := false) hr hcold).2 ns).2
    rw [cond_false, cond_false] at ht
    omega

theorem flipRetired_holds (k : Key) (id : ℕ) (sw : List Key) :
    Holds a (.flipRetired k id) {.latch id (.retiring true sw)} fun b m' =>
      m' = {.latch id (.retiring true (if b then sw else k :: sw))} := by
  intro now t f h env b t' he
  obtain ⟨⟨g, hg, h1, h2, hsp⟩, hsw⟩ := h.stage id (.retiring true sw) (by simp)
  have sweep : (∀ r, Homed t k r id → (t.cells r.id).s3Only = true) →
      Inv a t ({.latch id (.retiring true (k :: sw))} + f) := by
    intro hall
    have hok : Stage.Ok t id (.retiring true (k :: sw)) := by
      refine ⟨⟨g, hg, h1, h2, hsp⟩, fun k' hk' r hr => ?_⟩
      rcases List.mem_cons.mp hk' with rfl | hk'
      · exact hall r hr
      · exact hsw k' hk' r hr
    exact h.restage hok fun _ => ⟨_, _, rfl⟩
  simp only [exec, Tiers.flipRetired] at he
  split at he
  · next hk =>
    cases he
    refine ⟨_, sweep fun r hr => ?_, rfl⟩
    rw [hr.1] at hk
    cases hk
  · next e hk =>
    split at he
    · next hout =>
      cases he
      refine ⟨_, sweep fun r hr => ?_, rfl⟩
      have hre : r = e := by
        have := hr.1
        rw [hk, some.injEq] at this
        exact this.symm
      simp only [Bool.or_eq_true, decide_eq_true_eq] at hout
      rcases hout with hout | hout
      · exact absurd (hre ▸ hr.2) hout
      · rw [hre]
        exact hout
    · next hin =>
      split at he
      · cases he
        exact ⟨_, h, rfl⟩
      cases he
      simp only [Bool.or_eq_true, decide_eq_true_eq, not_or, not_not, Bool.not_eq_true] at hin
      have hr : Homed t k e id := ⟨hk, hin.1⟩
      exact ⟨_, h.flipCold hr hin.2 ⟨g, hg, hsp rfl⟩, rfl⟩

theorem flipRestored_holds (k : Key) (id : ℕ) :
    Holds a (.flipRestored k id) {.latch id .present} fun _ m' => m' = {.latch id .present} := by
  intro now t f h env b t' he
  cases he
  refine ⟨_, ?_, rfl⟩
  unfold Tiers.flipRestored
  split
  · exact h
  next e hk =>
  split
  · exact h
  next hin =>
  simp only [Bool.or_eq_true, decide_eq_true_eq, not_or, not_not, Bool.not_eq_true',
    Bool.not_eq_false] at hin
  exact h.flipHome ⟨hk, hin.1⟩ hin.2

/-! ### Publication -/

section Publish

variable {loc : Loc} {x ttl : ℕ}

@[simp] theorem putThen_index_self :
    (t.putThen k loc x ttl).index k = some ⟨t.next, k, loc, loc.len, x⟩ :=
  update_self _ _ _

theorem putThen_index_ne {k' : Key} (hk : k' ≠ k) : (t.putThen k loc x ttl).index k' = t.index k' :=
  update_of_ne hk _ _

theorem putThen_cells_lt {i : ℕ} (hi : i < t.next) : (t.putThen k loc x ttl).cells i = t.cells i :=
  update_of_ne (Nat.ne_of_lt hi) _ _

private theorem Inv.putThen_index (h : Inv a t m) {k' : Key} {r' : NvmeRef}
    (hk : (t.putThen k loc x ttl).index k' = some r') :
    (k' = k ∧ r' = ⟨t.next, k, loc, loc.len, x⟩ ∧
        (t.putThen k loc x ttl).cells r'.id = ⟨r', false, false, 0, ttl, 0, .none⟩) ∨
      (t.index k' = some r' ∧ (t.putThen k loc x ttl).cells r'.id = t.cells r'.id) := by
  by_cases hkk : k' = k
  · rw [hkk, putThen_index_self, some.injEq] at hk
    refine .inl ⟨hkk, hk.symm, ?_⟩
    rw [← hk]
    exact update_self _ _ _
  · rw [putThen_index_ne hkk] at hk
    exact .inr ⟨hk, putThen_cells_lt (h.indexed k' r' hk).1.1⟩

/-- A nonempty record of a segment without a mark becomes the home of its key, in
place of the entry that was there. -/
theorem Inv.putThen {g : Segment} {data : List UInt8} (h : Inv a t m)
    (hg : t.segs loc.segmentID = some g) (hclean : g.spilled = false) (hpos : 0 < loc.len)
    (hdata : t.recordAt loc k x = some data)
    (hst : ∀ st, .latch loc.segmentID st ∈ m → st.Ok (t.putThen k loc x ttl) loc.segmentID)
    (hl : a.ledger → t.index k = none)
    (hv : a.liveness → ∀ r, t.index k = some r → (t.cells r.id).s3Only = false) :
    Inv a (t.putThen k loc x ttl) m := by
  have htotal : ∀ {N : Type} [AddCommMonoid N] (w : NvmeCell → N),
      total t w + w ⟨⟨t.next, k, loc, loc.len, x⟩, false, false, 0, ttl, 0, .none⟩ =
        total (t.putThen k loc x ttl) w + (t.index k).elim 0 fun r => w (t.cells r.id) := by
    intro N _ w
    have := h.total_putThen (k := k) loc x ttl w
    rwa [show (t.putThen k loc x ttl).cells t.next =
      ⟨⟨t.next, k, loc, loc.len, x⟩, false, false, 0, ttl, 0, .none⟩ from
      update_self _ _ _] at this
  refine { h with
    ids := ?_, indexed := ?_, recorded := ?_, home := ?_, cold := ?_, spilled := ?_, stage := ?_
    gone := ?_, counted := ?_, nvmeLedger := ?_, s3Ledger := ?_ }
  · intro i hi
    rcases Nat.lt_succ_iff_lt_or_eq.mp hi with hi | rfl
    · rw [putThen_cells_lt hi]
      exact h.ids i hi
    · simp [Tiers.putThen]
  · intro k' r' hk
    rcases h.putThen_index hk with ⟨rfl, rfl, hc⟩ | ⟨hk, hc⟩
    · exact ⟨⟨Nat.lt_succ_self _, congrArg ref hc⟩, rfl⟩
    · obtain ⟨⟨h1, h2⟩, h3⟩ := h.indexed k' r' hk
      exact ⟨⟨Nat.lt_succ_of_lt h1, (congrArg ref hc).trans h2⟩, h3⟩
  · intro k' r' hk
    rcases h.putThen_index hk with ⟨rfl, rfl, -⟩ | ⟨hk, -⟩
    · exact ⟨rfl, hpos, (h.files _ g hg).1, data, hdata⟩
    · exact h.recorded k' r' hk
  · intro k' r' hk hcold
    rcases h.putThen_index hk with ⟨rfl, rfl, -⟩ | ⟨hk, hc⟩
    · exact isSome_iff_exists.mpr ⟨g, hg⟩
    · rw [hc] at hcold
      exact h.home k' r' hk hcold
  · intro k' r' hk hcold
    rcases h.putThen_index hk with ⟨rfl, rfl, hc⟩ | ⟨hk, hc⟩
    · rw [hc] at hcold
      cases hcold
    · rw [hc] at hcold ⊢
      exact h.cold k' r' hk hcold
  · intro k' r' g' hk hg' hs
    rcases h.putThen_index hk with ⟨rfl, rfl, -⟩ | ⟨hk, hc⟩
    · have : g' = g := some.inj (hg'.symm.trans hg)
      rw [this, hclean] at hs
      cases hs
    · rw [hc]
      exact h.spilled k' r' g' hk hg' hs
  · intro id st hx
    by_cases hid : id = loc.segmentID
    · subst hid
      exact hst st hx
    have hback : ∀ k' r', Homed (t.putThen k loc x ttl) k' r' id →
        Homed t k' r' id ∧ (t.putThen k loc x ttl).cells r'.id = t.cells r'.id := by
      intro k' r' hr
      rcases h.putThen_index hr.1 with ⟨rfl, rfl, -⟩ | ⟨hk, hc⟩
      · exact absurd hr.2.symm hid
      · exact ⟨⟨hk, hr.2⟩, hc⟩
    apply (h.stage id st hx).mono (fun k' r' hr => (hback k' r' hr).1)
    · exact fun k' r' hr => congrArg s3Only (hback k' r' hr).2
    · exact fun k' r' hr hs => (congrArg s3 (hback k' r' hr).2).trans hs
    · rfl
    · exact fun hb => hb
  · intro r' b hx
    obtain ⟨⟨h1, h2⟩, h3, h4⟩ := h.gone r' b hx
    rw [putThen_cells_lt h1]
    refine ⟨⟨Nat.lt_succ_of_lt h1, by rw [putThen_cells_lt h1]; exact h2⟩, h3, fun hk => ?_⟩
    rcases h.putThen_index hk with ⟨-, hr, -⟩ | ⟨hk, -⟩
    · rw [hr] at h1
      exact Nat.lt_irrefl _ h1
    · exact h4 hk
  · intro id
    have hc := h.counted id
    have ht := htotal (coldIn id)
    have hnew : coldIn id ⟨⟨t.next, k, loc, loc.len, x⟩, false, false, 0, ttl, 0, .none⟩ =
        0 := by simp [coldIn]
    rw [hnew, add_zero] at ht
    refine ⟨le_trans (by omega) hc.1, fun hlv => ?_⟩
    have hold : ((t.index k).elim 0 fun r => (t.cells r.id).coldIn id) = 0 := by
      cases hk : t.index k with
      | none => rfl
      | some r => simp [coldIn, hv hlv r hk]
    rw [hold, add_zero] at ht
    rw [← ht]
    exact hc.2 hlv
  · refine fun hled => update_charge (h.nvmeLedger hled) fun ns => ?_
    have ht := htotal (warmBytes ns)
    rw [hl hled, elim_none, add_zero] at ht
    rw [← ht]
    simp only [warmBytes, and_true]
    omega
  · intro hled ns
    have hc := h.s3Ledger hled ns
    have ht := htotal (coldBytes ns)
    rw [hl hled, elim_none, add_zero] at ht
    rw [← ht]
    change t.usedS3 ns = _
    simpa [coldBytes] using hc

theorem Inv.publish (h : Inv a t ({.wrote loc k x} + f)) (hl : a.ledger → t.index k = none)
    (hv : a.liveness → ∀ r, t.index k = some r → (t.cells r.id).s3Only = false) :
    Inv a (t.putThen k loc x ttl) ({.wrote loc k x} + f) := by
  obtain ⟨⟨g, hg, hgs⟩, hpos, data, hdata⟩ := h.wrote loc k x (by simp)
  have hclean : g.spilled = false := by
    by_contra hs
    rw [Bool.not_eq_false] at hs
    rw [(h.files loc.segmentID g hg).2.1 hs] at hgs
    cases hgs
  apply h.putThen hg hclean hpos hdata ?_ hl hv
  intro st hx
  have hok := h.stage loc.segmentID st hx
  -- the new entry lives in a segment that is not sealed
  apply hok.of_unsealed
  · rintro ⟨g', hg', hs'⟩
    rw [hg, some.injEq] at hg'
    rw [← hg', hgs] at hs'
    cases hs'
  · exact isSome_iff_exists.mpr ⟨g, hg⟩
  · rintro rfl k' r' hr
    rcases h.putThen_index hr.1 with ⟨rfl, rfl, hc⟩ | ⟨hk, hc⟩
    · rw [hc]
    · rw [hc]
      exact hok k' r' ⟨hk, hr.2⟩
  · rintro rfl k' r' hr
    rcases h.putThen_index hr.1 with ⟨rfl, rfl, hc⟩ | ⟨hk, hc⟩
    · exact ⟨by rw [hc], g, hg, hclean⟩
    · rw [hc]
      exact hok k' r' ⟨hk, hr.2⟩

end Publish

/-! ### Reads -/

private theorem Inv.recordAt_length (h : Inv a t m) (hl : a.ledger = true) {loc : Loc} {x : ℕ}
    {data : List UInt8} (hd : t.recordAt loc k x = some data) : data.length = a.lenOf x := by
  unfold Tiers.recordAt at hd
  split at hd
  · cases hd
  next rec hrec =>
  split at hd
  · next hok =>
    rw [some.injEq] at hd
    rw [← hd, ← hok.2.1]
    exact h.sized hl _ rec (List.mem_of_getElem? hrec)
  · cases hd

theorem Inv.wrote_len (h : Inv a t m) (hl : a.ledger = true) {loc : Loc} {x : ℕ}
    (hw : .wrote loc k x ∈ m) : loc.len = a.lenOf x := by
  obtain ⟨-, -, data, hd⟩ := h.wrote loc k x hw
  rw [← h.recordAt_length hl hd]
  unfold Tiers.recordAt at hd
  split at hd
  · cases hd
  split at hd
  · next hok =>
    rw [some.injEq] at hd
    rw [← hd]
    exact hok.2.2.symm
  · cases hd

theorem read_holds (loc : Loc) (k : Key) (x : ℕ) (m : Own) :
    Holds a (.read loc k x) m fun o m' =>
      m' = m ∧ ∀ data, o = .ok data → a.ledger → data.length = a.lenOf x := by
  intro now t f h env o t' he
  refine ⟨m, h.quiet_step rfl he, rfl, ?_⟩
  rintro data rfl hl
  simp only [exec] at he
  split at he
  · simp only [some.injEq, Prod.mk.injEq, Tiers.read] at he
    obtain ⟨hread, -⟩ := he
    split at hread
    · cases hread
    split at hread
    · cases hread
    · split at hread
      · cases hread
      · next hrec =>
        cases hread
        exact h.recordAt_length hl hrec
  · cases he
  · cases he
  · cases he

theorem readRange_holds (r : NvmeRef) (m : Own) :
    Holds a (.readRange r) m fun o m' =>
      m' = m ∧ ∀ data, o = .ok data → a.ledger → data.length = a.lenOf r.xxh3 := by
  intro now t f h env o t' he
  refine ⟨m, h.quiet_step rfl he, rfl, ?_⟩
  rintro data rfl hl
  simp only [exec] at he
  split at he
  · split at he
    · next hrange =>
      cases he
      unfold Tiers.readRange at hrange
      split at hrange
      · exact h.recordAt_length hl hrange
      · cases hrange
    · cases he
  · cases he
  · cases he

end KVStash.Tiered.Disk
