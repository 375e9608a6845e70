/- GID: KVStash/Tiered/Disk/Entries
   digest: What removals, flips and publications of NVMe entries take and give. -/

import KVStash.Tiered.Disk.Segments

set_option autoImplicit false

namespace KVStash.Tiered.Disk

open Protocol Foundation.Tally Function Multiset
open Dram.Tier (Key Audit)

variable {a : Audit} {t t' : Tiers} {m m' f : Own} {k : Key} {r : NvmeRef} {id : ℕ}

/-! ### Sums over the index -/

section Totals

variable {N : Type} [AddCommMonoid N]

theorem Inv.ref_eq (h : Inv a t m) {k' : Key} {r' : NvmeRef} (hk : t.index k = some r)
    (hk' : t.index k' = some r') (hid : r'.id = r.id) : r' = r := by
  rw [← (h.indexed k r hk).1.2, ← (h.indexed k' r' hk').1.2, hid]

private theorem live_update_none (hids : ∀ i < t.next, (t.cells i).ref.id = i) {i : ℕ}
    (hi : i < t.next) (hne : ∀ r, t.index k = some r → i ≠ r.id) :
    Live { t with index := update t.index k none } i ↔ Live t i := by
  change update t.index k none (t.cells i).ref.key = _ ↔ _
  by_cases hkey : (t.cells i).ref.key = k
  · have hdead : ¬ Live t i := by
      intro hl
      rw [Live, hkey] at hl
      exact hne _ hl (hids i hi).symm
    simp [hkey, hdead]
  · rw [update_of_ne hkey]
    rfl

theorem Inv.total_eq_finsum (h : Inv a t m) (w : NvmeCell → N) :
    total t w = ∑ᶠ k, (t.index k).elim 0 fun r => w (t.cells r.id) := by
  have hlive : ∀ {i}, i < t.next → Live t i →
      ((t.index (t.cells i).ref.key).elim 0 fun r => w (t.cells r.id)) = w (t.cells i) := by
    intro i hi hl
    rw [hl, Option.elim_some, h.ids i hi]
  rw [← tally_eq_finsum (P := Live t) (g := fun i => (t.cells i).ref.key) (n := t.next)]
  · apply tally_congr
    intro i hi
    split
    · next hl => exact (hlive hi hl).symm
    · rfl
  · intro i hi j hj hli hlj hij
    rw [Live, hij, hlj, Option.some.injEq] at hli
    rw [← h.ids i hi, ← h.ids j hj, hli]
  · intro k hk
    cases hx : t.index k with
    | none => simp [hx] at hk
    | some r =>
      obtain ⟨⟨hlt, href⟩, hkey⟩ := h.indexed k r hx
      exact ⟨r.id, hlt, h.live hx, by rw [href, hkey]⟩

theorem Inv.total_delete (h : Inv a t m) (hk : t.index k = some r) (w : NvmeCell → N) :
    total t w = w (t.cells r.id) + total { t with index := update t.index k none } w := by
  obtain ⟨⟨hlt, href⟩, hkey⟩ := h.indexed k r hk
  have hex := tally_exchange hlt
    (f := fun i => if Live { t with index := update t.index k none } i then w (t.cells i) else 0)
    (g := fun i => if Live t i then w (t.cells i) else 0) (by
      intro i hi hne
      refine if_congr (live_update_none h.ids hi fun r' hr' => ?_) rfl rfl
      rw [hk, Option.some.injEq] at hr'
      exact hr' ▸ hne)
  have hdead : ¬ Live { t with index := update t.index k none } r.id := by
    simp [Live, href, hkey]
  rw [if_pos (h.live hk), if_neg hdead, zero_add] at hex
  exact hex.symm

theorem Inv.total_onCell (h : Inv a t m) (hk : t.index k = some r)
    {g : NvmeCell → NvmeCell} (hg : ∀ c, (g c).ref = c.ref) (w : NvmeCell → N) :
    w (g (t.cells r.id)) + total t w = w (t.cells r.id) + total (t.onCell r g) w := by
  have hlt := (h.indexed k r hk).1.1
  have hlive : ∀ i, Live (t.onCell r g) i ↔ Live t i := by
    intro i
    by_cases hi : i = r.id
    · simp only [Live, hi, onCell_cells_self, hg]
      rfl
    · simp only [Live, onCell_cells_ne g hi]
      rfl
  have hex := tally_exchange hlt
    (f := fun i => if Live t i then w (t.cells i) else 0)
    (g := fun i => if Live (t.onCell r g) i then w ((t.onCell r g).cells i) else 0) (by
      intro i _ hi
      exact if_congr (hlive i).symm (by rw [onCell_cells_ne g hi]) rfl)
  beta_reduce at hex
  rw [if_pos ((hlive _).mpr (h.live hk)), if_pos (h.live hk), onCell_cells_self] at hex
  exact hex

private theorem total_fresh (hids : ∀ i < t.next, (t.cells i).ref.id = i) (hk : t.index k = none)
    (loc : Loc) (x ttl : ℕ) (w : NvmeCell → N) :
    total (t.putThen k loc x ttl) w = total t w + w ((t.putThen k loc x ttl).cells t.next) := by
  have hnew : Live (t.putThen k loc x ttl) t.next := by
    simp [Live, Tiers.putThen]
  change tally (t.next + 1) _ = _
  rw [tally_succ, if_pos hnew]
  refine congrArg (· + _) (tally_congr fun i hi => ?_)
  have hold : (t.putThen k loc x ttl).cells i = t.cells i := update_of_ne (Nat.ne_of_lt hi) _ _
  rw [hold]
  refine if_congr ?_ rfl rfl
  rw [Live, hold]
  change update t.index k _ _ = _ ↔ _
  by_cases hkey : (t.cells i).ref.key = k
  · rw [hkey, update_self, Live, hkey, hk, Option.some.injEq]
    have hid := hids i hi
    constructor
    · intro hr
      rw [← hr] at hid
      exact absurd hid (Nat.ne_of_gt hi)
    · intro hr
      cases hr
  · rw [update_of_ne hkey]
    rfl

theorem Inv.total_putThen (h : Inv a t m) (loc : Loc) (x ttl : ℕ) (w : NvmeCell → N) :
    total t w + w ((t.putThen k loc x ttl).cells t.next) =
      total (t.putThen k loc x ttl) w + (t.index k).elim 0 fun r => w (t.cells r.id) := by
  cases hk : t.index k with
  | none => rw [total_fresh h.ids hk, Option.elim_none, add_zero]
  | some r =>
    have hput : t.putThen k loc x ttl =
        Tiers.putThen { t with index := update t.index k none } k loc x ttl := by
      simp [Tiers.putThen]
    have hfresh := total_fresh (t := { t with index := update t.index k none }) h.ids
      (update_self k none t.index) loc x ttl w
    rw [← hput] at hfresh
    rw [h.total_delete hk, hfresh, Option.elim_some, add_assoc, add_comm]

end Totals

/-! ### Removals -/

/-- What whoever removed an entry has to give back: the count of its object if it is
S3-only, and its bytes on the tier that holds the charge. -/
def dues (a : Audit) (r : NvmeRef) (cold : Bool) : Own :=
  if cold then {.segDebt r.loc.segmentID} + (if a.ledger then {.s3Debt r.key.ns r.len} else 0)
  else if a.ledger then {.nvmeDebt r.key.ns r.len} else 0

private theorem not_mem_dues {x : Tok} {b : Bool} (h1 : ∀ id, x ≠ .segDebt id)
    (h2 : ∀ ns n, x ≠ .s3Debt ns n) (h3 : ∀ ns n, x ≠ .nvmeDebt ns n) : x ∉ dues a r b := by
  unfold dues
  split
  · split <;> simp [h1, h2]
  · split <;> simp [h3]

private theorem weigh_dues_eq_zero {N : Type} [AddCommMonoid N] {w : Tok → N} {b : Bool}
    (h1 : ∀ id, w (.segDebt id) = 0) (h2 : ∀ ns n, w (.s3Debt ns n) = 0)
    (h3 : ∀ ns n, w (.nvmeDebt ns n) = 0) : weigh w (dues a r b) = 0 := by
  unfold dues
  split
  · split <;> simp [h1, h2]
  · split <;> simp [h3]

private theorem segs_dues (hr : (t.cells r.id).ref = r) :
    weigh (Tok.segs id) (dues a r (t.cells r.id).s3Only) = (t.cells r.id).coldIn id := by
  unfold dues NvmeCell.coldIn
  rw [hr]
  cases (t.cells r.id).s3Only <;> cases a.ledger <;> simp [Tok.segs]

private theorem nvmeOwed_dues (hr : (t.cells r.id).ref = r) (hl : a.ledger = true) (ns : ℕ) :
    weigh (Tok.nvmeOwed ns) (dues a r (t.cells r.id).s3Only) = (t.cells r.id).warmBytes ns := by
  unfold dues NvmeCell.warmBytes
  rw [hr, hl]
  cases (t.cells r.id).s3Only <;> simp [Tok.nvmeOwed]

private theorem s3Owed_dues (hr : (t.cells r.id).ref = r) (hl : a.ledger = true) (ns : ℕ) :
    weigh (Tok.s3Owed ns) (dues a r (t.cells r.id).s3Only) = (t.cells r.id).coldBytes ns := by
  unfold dues NvmeCell.coldBytes
  rw [hr, hl]
  cases (t.cells r.id).s3Only <;> simp [Tok.s3Owed]

private theorem Inv.delete (h : Inv a t f) (hk : t.index k = some r) :
    Inv a { t with index := update t.index k none }
      (({.gone r (t.cells r.id).s3Only} + dues a r (t.cells r.id).s3Only) + f) := by
  obtain ⟨hmint, hkey⟩ := h.indexed k r hk
  set b := (t.cells r.id).s3Only with hb
  have hsub : ∀ {k' r'}, update t.index k none k' = some r' → t.index k' = some r' := by
    intro k' r' hx
    by_cases hkk : k' = k
    · rw [hkk, update_self] at hx
      cases hx
    · rwa [update_of_ne hkk] at hx
  have hmem : ∀ {x : Tok}, (∀ r b, x ≠ .gone r b) → (∀ id, x ≠ .segDebt id) →
      (∀ ns n, x ≠ .s3Debt ns n) → (∀ ns n, x ≠ .nvmeDebt ns n) →
      x ∈ ({.gone r b} + dues a r b) + f → x ∈ f := by
    intro x h0 h1 h2 h3 hx
    rw [mem_add, mem_add, mem_singleton] at hx
    rcases hx with (hx | hx) | hx
    · exact absurd hx (h0 r b)
    · exact absurd hx (not_mem_dues h1 h2 h3)
    · exact hx
  have hweigh : ∀ {N : Type} [AddCommMonoid N] {w : Tok → N}, w (.gone r b) = 0 →
      weigh w (({.gone r b} + dues a r b) + f) = weigh w (dues a r b) + weigh w f := by
    intro N _ w hw
    rw [weigh_add, weigh_skip hw]
  refine { h with
    indexed := ?_, recorded := ?_, home := ?_, cold := ?_, spilled := ?_, latched := ?_, stage := ?_
    dying := ?_, footer := ?_, wrote := ?_, writing := ?_, gone := ?_, counted := ?_
    nvmeLedger := ?_, s3Ledger := ?_ }
  · exact fun k' r' hx => h.indexed k' r' (hsub hx)
  · exact fun k' r' hx => h.recorded k' r' (hsub hx)
  · exact fun k' r' hx => h.home k' r' (hsub hx)
  · exact fun k' r' hx => h.cold k' r' (hsub hx)
  · exact fun k' r' g hx => h.spilled k' r' g (hsub hx)
  · intro id
    rw [hweigh rfl, weigh_dues_eq_zero (fun _ => rfl) (fun _ _ => rfl) (fun _ _ => rfl), zero_add]
    exact h.latched id
  · intro id st hx
    refine (h.stage id st (hmem (by simp) (by simp) (by simp) (by simp) hx)).mono ?_
      (fun _ _ _ => rfl) (fun _ _ _ hr => hr) rfl (fun hb => hb)
    exact fun k' r' hr => ⟨hsub hr.1, hr.2⟩
  · intro id g hg hd
    obtain ⟨fl, sw, hx⟩ := h.dying id g hg hd
    exact ⟨fl, sw, mem_add.mpr (.inr hx)⟩
  · exact fun id ks hx => h.footer id ks (hmem (by simp) (by simp) (by simp) (by simp) hx)
  · exact fun loc k' x hx => h.wrote loc k' x (hmem (by simp) (by simp) (by simp) (by simp) hx)
  · intro id
    rw [hweigh rfl, weigh_dues_eq_zero (fun _ => rfl) (fun _ _ => rfl) (fun _ _ => rfl), zero_add]
    exact h.writing id
  · intro r' b' hx
    rw [mem_add, mem_add, mem_singleton, Tok.gone.injEq] at hx
    rcases hx with (⟨rfl, rfl⟩ | hx) | hx
    · refine ⟨hmint, rfl, ?_⟩
      change update t.index k none r'.key ≠ _
      rw [hkey, update_self]
      simp
    · exact absurd hx (not_mem_dues (by simp) (by simp) (by simp))
    · obtain ⟨h1, h2, h3⟩ := h.gone r' b' hx
      exact ⟨h1, h2, fun hx => h3 (hsub hx)⟩
  · intro id
    have hc := h.counted id
    rw [h.total_delete hk, ← segs_dues hmint.2 (a := a), ← hb] at hc
    rw [hweigh rfl]
    refine ⟨?_, fun hl => ?_⟩
    · have := hc.1
      change _ ≤ t.segRefs id
      omega
    · have := hc.2 hl
      change _ = t.segRefs id
      omega
  · intro hl ns
    have hc := h.nvmeLedger hl ns
    rw [h.total_delete hk, ← nvmeOwed_dues hmint.2 hl, ← hb] at hc
    rw [hweigh rfl]
    change t.usedNvme ns = _
    omega
  · intro hl ns
    have hc := h.s3Ledger hl ns
    rw [h.total_delete hk, ← s3Owed_dues hmint.2 hl, ← hb] at hc
    rw [hweigh rfl]
    change t.usedS3 ns = _
    omega

private theorem deleteIf_cases {now env : ℕ} {g : DropGate} {o : Except Status NvmeRef}
    (he : exec now (.deleteIf k g) env t = some (o, t')) :
    (t.index k = none ∧ o = .error .notFound ∧ t' = t) ∨
    ∃ r, t.index k = some r ∧
      ((g.check r (t.cells r.id) now = .ok ∧ o = .ok r ∧
          t' = { t with index := update t.index k none }) ∨
        (g.check r (t.cells r.id) now ≠ .ok ∧ o = .error (g.check r (t.cells r.id) now) ∧
          t' = t)) := by
  simp only [exec] at he
  split at he
  · next hk =>
    cases he
    exact .inl ⟨hk, rfl, rfl⟩
  next r hk =>
  refine .inr ⟨r, hk, ?_⟩
  split at he
  · next hc =>
    cases he
    exact .inl ⟨hc, rfl, rfl⟩
  · next hc =>
    cases he
    exact .inr ⟨fun hx => hc hx, rfl, rfl⟩

theorem deleteIf_holds (k : Key) (g : DropGate) : Holds a (.deleteIf k g) 0 fun o m' =>
    (∀ r, o = .ok r → r.key = k ∧ 0 < r.len ∧ ∃ b, m' = {.gone r b} + dues a r b) ∧
      (∀ st, o = .error st → m' = 0) := by
  intro now t f h env o t' he
  rw [zero_add] at h
  rcases deleteIf_cases he with ⟨-, rfl, rfl⟩ | ⟨r, hk, ⟨-, rfl, rfl⟩ | ⟨-, rfl, rfl⟩⟩
  · exact ⟨0, by rwa [zero_add], by simp, fun _ _ => rfl⟩
  · refine ⟨_, h.delete hk, ?_, by simp⟩
    rintro r' ⟨⟩
    exact ⟨(h.indexed k r hk).2, (h.recorded k r hk).2.1, _, rfl⟩
  · exact ⟨0, by rwa [zero_add], by simp, fun _ _ => rfl⟩

theorem deleteIf_retire_holds (k : Key) (id : ℕ) (sw : List Key) :
    Holds a (.deleteIf k (.retire id)) {.latch id (.retiring false sw)} fun o m' =>
      (∀ r, o = .ok r → r.key = k ∧ 0 < r.len ∧ ∃ b,
        m' = ({.gone r b} + dues a r b) + {.latch id (.retiring false (k :: sw))}) ∧
      (o = .error .errLeased → m' = {.latch id (.retiring false sw)}) ∧
      (∀ st, o = .error st → st ≠ .errLeased → m' = {.latch id (.retiring false (k :: sw))}) := by
  intro now t f h env o t' he
  have sweep : ∀ {t' : Tiers} {n : Own}, Inv a t' ({.latch id (.retiring false sw)} + n) →
      (∀ r, ¬ Homed t' k r id) → Inv a t' ({.latch id (.retiring false (k :: sw))} + n) := by
    intro t' n h' hno
    obtain ⟨hfile, hsw⟩ := h'.stage id (.retiring false sw) (by simp)
    refine h'.restage ⟨hfile, fun k' hk' r hr => ?_⟩ fun _ => ⟨_, _, rfl⟩
    rcases List.mem_cons.mp hk' with rfl | hk'
    · exact absurd hr (hno r)
    · exact hsw k' hk' r hr
  rcases deleteIf_cases he with ⟨hk, rfl, rfl⟩ | ⟨r, hk, ⟨-, rfl, rfl⟩ | ⟨hc, rfl, rfl⟩⟩
  · refine ⟨_, sweep h ?_, by simp, by simp, fun _ _ _ => rfl⟩
    intro r hr
    rw [hr.1] at hk
    cases hk
  · have h' := h.delete hk
    rw [add_left_comm] at h'
    refine ⟨({.gone r (t.cells r.id).s3Only} + dues a r (t.cells r.id).s3Only) +
      {.latch id (.retiring false (k :: sw))}, ?_, ?_, by simp, by simp⟩
    · rw [add_assoc, add_left_comm]
      apply sweep h'
      intro r' hr
      have := hr.1
      simp at this
    · rintro r' ⟨⟩
      exact ⟨(h.indexed k r hk).2, (h.recorded k r hk).2.1, _, rfl⟩
  · by_cases hleased : (DropGate.retire id).check r (t'.cells r.id) now = .errLeased
    · exact ⟨_, h, by simp, fun _ => rfl, fun st hst hne => absurd (by
        rw [← hleased]; exact (Except.error.inj hst).symm) hne⟩
    · refine ⟨_, sweep h ?_, by simp, fun hx => absurd (Except.error.inj hx) hleased,
        fun _ _ _ => rfl⟩
      -- the gate answers neither OK nor LEASED only for an entry that lives elsewhere
      intro r' hr
      have hrr : r' = r := by
        have := hr.1
        rw [hk, Option.some.injEq] at this
        exact this.symm
      simp only [DropGate.check, hrr ▸ hr.2, ne_eq, not_true_eq_false, if_false] at hc hleased
      split at hc
      · exact hleased (if_pos ‹_›)
      · exact hc rfl

/-! ### Giving back what a removal owes -/

theorem loadS3Only_gone_holds (r : NvmeRef) (b : Bool) :
    Holds a (.loadS3Only r) {.gone r b} fun o m' => o = b ∧ m' = 0 := by
  intro now t f h env o t' he
  cases he
  exact ⟨0, h.exchange {}, (h.gone r b (by simp)).2.1, rfl⟩

theorem segSub_holds (id : ℕ) : Holds a (.segSub id) {.segDebt id} fun _ m' => m' = 0 := by
  intro now t f h env o t' he
  cases he
  refine ⟨0, h.exchange { counted := ?_ }, rfl⟩
  intro id'
  have hc := (h.counted id).1
  rw [weigh_add, weigh_singleton, Tok.segs, if_pos rfl] at hc
  rw [weigh_zero, weigh_singleton, add_zero, Tok.segs]
  dsimp only
  by_cases hid : id' = id
  · rw [hid, update_self, if_pos rfl]
    omega
  · rw [update_of_ne hid, if_neg (Ne.symm hid), add_zero]

private theorem total_nonneg {w : NvmeCell → ℤ} (hw : ∀ c, 0 ≤ w c) : 0 ≤ total t w := by
  apply tally_nonneg
  intro i _
  split
  · exact hw _
  · exact le_refl _

theorem total_warmBytes_nonneg (ns : ℕ) : 0 ≤ total t (NvmeCell.warmBytes ns) := by
  apply total_nonneg
  intro c
  unfold NvmeCell.warmBytes
  split <;> omega

theorem total_coldBytes_nonneg (ns : ℕ) : 0 ≤ total t (NvmeCell.coldBytes ns) := by
  apply total_nonneg
  intro c
  unfold NvmeCell.coldBytes
  split <;> omega

theorem nvmeOwed_nonneg (ns : ℕ) (m : Own) : 0 ≤ weigh (Tok.nvmeOwed ns) m := by
  apply weigh_nonneg
  intro x
  cases x with
  | nvmeDebt ns' n =>
    simp only [Tok.nvmeOwed]
    split <;> omega
  | _ => exact le_refl _

theorem s3Owed_nonneg (ns : ℕ) (m : Own) : 0 ≤ weigh (Tok.s3Owed ns) m := by
  apply weigh_nonneg
  intro x
  cases x with
  | s3Debt ns' n =>
    simp only [Tok.s3Owed]
    split <;> omega
  | _ => exact le_refl _

theorem refundNvme_holds (ns n : ℕ) :
    Holds a (.refundNvme ns n) (if a.ledger then {.nvmeDebt ns n} else 0) fun _ m' => m' = 0 := by
  intro now t f h env o t' he
  cases he
  refine ⟨0, ?_, rfl⟩
  by_cases hl : a.ledger = true
  · rw [if_pos hl] at h
    refine h.exchange { nvmeLedger := fun _ ns' => ?_ }
    have hu := h.nvmeLedger hl ns
    have hpos := nvmeOwed_nonneg ns f
    have hw := total_warmBytes_nonneg (t := t) ns
    rw [weigh_add, weigh_singleton, Tok.nvmeOwed, if_pos rfl] at hu
    rw [weigh_zero, weigh_singleton, add_zero]
    exact update_refund_add (by omega) ns'
  · rw [if_neg hl] at h
    exact h.exchange { nvmeLedger := fun hl' => absurd hl' hl }

theorem refundS3_holds (ns n : ℕ) :
    Holds a (.refundS3 ns n) (if a.ledger then {.s3Debt ns n} else 0) fun _ m' => m' = 0 := by
  intro now t f h env o t' he
  cases he
  refine ⟨0, ?_, rfl⟩
  by_cases hl : a.ledger = true
  · rw [if_pos hl] at h
    refine h.exchange { s3Ledger := fun _ ns' => ?_ }
    have hu := h.s3Ledger hl ns
    have hpos := s3Owed_nonneg ns f
    have hw := total_coldBytes_nonneg (t := t) ns
    rw [weigh_add, weigh_singleton, Tok.s3Owed, if_pos rfl] at hu
    rw [weigh_zero, weigh_singleton, add_zero]
    exact update_refund_add (by omega) ns'
  · rw [if_neg hl] at h
    exact h.exchange { s3Ledger := fun hl' => absurd hl' hl }

end KVStash.Tiered.Disk
