/- GID: KVStash/Tiered/Protection
   digest: The pins and leases of a key on both tiers: what can set them, and what UNPIN and RELEASE
     clear. -/

import KVStash.Tiered.Footprint
import KVStash.Tiered.Frames

set_option autoImplicit false

namespace KVStash.Tiered.Protection

open Protocol Dram Tiered Tiered.System Tiered.Logic Function
open Tiered.Node Tiered.Frames Tiered.Footprint
open Foundation.Run Foundation.Threads
open Dram.Tier (BlockRef Key Store)
open Tiered.Disk (NvmeRef Tiers)

/-! ### Which steps protect a block or an entry -/

section Dram

variable {p : Tier.Params} {d d' : Store} {env : ℕ}

theorem dram_unpinned_cases {x : Tier.Act} {r : x.Resp} (h : Tier.exec p x env d = some (r, d'))
    {i : ℕ} (hi : i < d.next) (hp : (d.cells i).pinned = false) :
    (d'.cells i).pinned = false ∨ ∃ k sub b, x = .pinOp k sub ∧ d.index k = some b ∧
      b.id = i ∧ (sub = .pinSoft ∨ sub = .pinHard) := by
  have hb := dram_block_step h hi
  generalize d'.cells i = c at hb
  cases hb with
  | pin k sub b hb hi f hf =>
    rcases hf with ⟨-, rfl⟩ | ⟨hs, -⟩ | ⟨hs, -⟩
    · exact .inl rfl
    · exact .inr ⟨k, sub, b, rfl, hb, hi, .inl hs⟩
    · exact .inr ⟨k, sub, b, rfl, hb, hi, .inr hs⟩
  | gate k g hok => exact .inl rfl
  | other x c hpin hlease =>
    left
    unfold Tier.Cell.pinned at hp ⊢
    rwa [hpin]

theorem dram_lease_le {x : Tier.Act} {r : x.Resp} (h : Tier.exec p x env d = some (r, d')) {i : ℕ}
    (hi : i < d.next) : (d'.cells i).leaseUntil ≤ (d.cells i).leaseUntil ∨
      ∃ b u, x = .extendLease b u ∧ b.id = i := by
  have hb := dram_block_step h hi
  generalize d'.cells i = c at hb
  cases hb with
  | other x c hpin hlease =>
    rcases hlease with heq | ⟨b, u, hx, hb, -⟩ | ⟨b, -, -, hle⟩
    · exact .inl (le_of_eq heq)
    · exact .inr ⟨b, u, hx, hb⟩
    · exact .inl hle
  | _ => exact .inl (le_refl _)

end Dram

section Disk

variable {t t' : Tiers} {now env : ℕ}

/-- What one step below DRAM can do to the entries: set the pins of a key's entry, lease it,
or change one without touching its pins and without a longer lease. -/
inductive CellStep (t : Tiers) : Disk.Act → (ℕ → Disk.NvmeCell) → Prop
  | same (x : Disk.Act) : CellStep t x t.cells
  | pin (k : Key) (f : Tier.PinFlags) (e : NvmeRef) (he : t.index k = some e) :
    CellStep t (.setPin k f)
      (update t.cells e.id { t.cells e.id with pinFlags := f })
  | lease (x : Disk.Act) (k : Key) (e : NvmeRef) (c : Disk.NvmeCell) (he : t.index k = some e)
    (hx : (∃ now u, x = .leaseRead k e now u) ∨ ∃ ttl u, x = .touchLease k .leaseGrant ttl u)
    (hp : c.pinFlags = (t.cells e.id).pinFlags) :
    CellStep t x (update t.cells e.id c)
  | other (x : Disk.Act) (e : NvmeRef) (c : Disk.NvmeCell)
    (hp : c.pinFlags = (t.cells e.id).pinFlags) (hl : c.leaseUntil ≤ (t.cells e.id).leaseUntil) :
    CellStep t x (update t.cells e.id c)

theorem cell_step {x : Disk.Act} {r : x.Resp} (h : Disk.exec now x env t = some (r, t')) :
    CellStep t x t'.cells := by
  cases x with
  | setPin k f =>
    have ht : (t.setPin k f).2 = t' := congrArg Prod.snd (Option.some.inj h)
    rw [← ht]
    unfold Tiers.setPin
    split
    · exact .same _
    · next e he => exact .pin k f e he
  | leaseRead k e now' until_ =>
    have ht : (t.leaseRead k e now' until_).2 = t' := congrArg Prod.snd (Option.some.inj h)
    rw [← ht]
    unfold Tiers.leaseRead
    split
    · next he => exact .lease _ k e _ he (.inl ⟨now', until_, rfl⟩) rfl
    · exact .same _
  | touchLease k sub ttl until_ =>
    have ht : (t.touchLease k sub ttl until_).2 = t' := congrArg Prod.snd (Option.some.inj h)
    rw [← ht]
    unfold Tiers.touchLease
    split
    · exact .same _
    next e he =>
    cases sub with
    | touchRecency =>
      dsimp only
      split
      · exact .other _ e _ rfl (le_refl _)
      · exact .same _
    | leaseGrant => exact .lease _ k e _ he (.inr ⟨ttl, until_, rfl⟩) rfl
    | leaseRelease => exact .other _ e _ rfl (Nat.zero_le _)
    | other => exact .same _
  | flipRetired k id =>
    have ht : (t.flipRetired k id now).2 = t' := congrArg Prod.snd (Option.some.inj h)
    rw [← ht]
    unfold Tiers.flipRetired
    split
    · exact .same _
    next e he =>
    dsimp only
    split
    · exact .same _
    · split
      · exact .same _
      · exact .other _ e _ rfl (le_refl _)
  | flipRestored k id =>
    have ht : t.flipRestored k id = t' := congrArg Prod.snd (Option.some.inj h)
    rw [← ht]
    unfold Tiers.flipRestored
    split
    · exact .same _
    next e he =>
    split
    · exact .same _
    · exact .other _ e _ rfl (le_refl _)
  | storeS3 e =>
    cases h
    exact .other _ e _ rfl (le_refl _)
  | deleteIf _ _ | read _ _ _ | readRange _ | append _ _ _ | sealActive | openActive
  | retireBegin _ | retireFinish _ | adoptSegment _ | latch _ | upload _ | drop _ | gcSend _
  | gcReceive =>
    unfold Disk.exec at h
    dsimp only at h
    repeat' split at h
    all_goals cases h <;> exact .same _
  | _ =>
    cases h
    exact .same _

end Disk

/-! ### Protection of a key -/

/-- The two ways a key is protected from DELETE. -/
inductive Kind
  | pin | lease
  deriving DecidableEq

namespace Kind

/-- How a DELETE that meets the protection is refused. -/
def refusal : Kind → Status
  | .pin => .errPinned
  | .lease => .errLeased

def onBlock (kind : Kind) (c : Tier.Cell) (now : ℕ) : Bool :=
  match kind with
  | .pin => c.pinned
  | .lease => c.leased now

def onEntry (kind : Kind) (c : Disk.NvmeCell) (now : ℕ) : Bool :=
  match kind with
  | .pin => c.pinned
  | .lease => c.leased now

end Kind

/-- The step protects the key: a PIN of it, or a lease of its block or entry, which LEASE and
GET take. -/
def Protects (kind : Kind) (k : Key) (s : State) : Act → Prop
  | .dram (.pinOp k' sub) => kind = .pin ∧ k' = k ∧ (sub = .pinSoft ∨ sub = .pinHard)
  | .disk (.setPin k' f) => kind = .pin ∧ k' = k ∧ f ≠ .none
  | .dram (.extendLease b _) => kind = .lease ∧ ∃ r, s.dram.index k = some r ∧ r.id = b.id
  | .disk (.leaseRead k' _ _ _) => kind = .lease ∧ k' = k
  | .disk (.touchLease k' sub _ _) => kind = .lease ∧ k' = k ∧ sub = .leaseGrant
  | _ => False

/-- The key's block is not protected, unless it is the one excepted; nor is its entry, when
that is known. -/
structure Cleared (kind : Kind) (k : Key) (but : Option BlockRef) (below : Bool) (s : State) :
    Prop where
  block : ∀ r, s.dram.index k = some r → some r ≠ but →
    kind.onBlock (s.dram.cells r.id) s.dram.now = false
  entry : below = true → ∀ e, s.disk.index k = some e →
    kind.onEntry (s.disk.cells e.id) s.dram.now = false

section Steps

variable {p : Params} {kind : Kind} {k : Key} {s s' : State} {m : Own} {x : Act} {y : x.Resp}
  {env : ℕ}

private theorem leased_mono {u u' now now' : ℕ} (h : decide (u > now) = false) (hu : u' ≤ u)
    (hnow : now ≤ now') : decide (u' > now') = false := by
  rw [decide_eq_false_iff_not] at h ⊢
  omega

private theorem block_step (hinv : Inv p noAudit s m) (hx : exec p x env s = some (y, s'))
    (hno : ¬ Protects kind k s x) {r : BlockRef} (hr : s.dram.index k = some r)
    (h : kind.onBlock (s.dram.cells r.id) s.dram.now = false) :
    kind.onBlock (s'.dram.cells r.id) s'.dram.now = false := by
  obtain ⟨⟨hlt, href⟩, hkey⟩ := hinv.1.indexed k r hr
  rcases node_dram_cases hx with ⟨a, r', rfl, ha⟩ | ⟨used, hd⟩
  · cases kind with
    | pin =>
      rcases dram_unpinned_cases ha hlt h with h' | ⟨k', sub, b, rfl, hb, hid, hsub⟩
      · exact h'
      · obtain ⟨⟨-, href'⟩, hkey'⟩ := hinv.1.indexed k' b hb
        have hbr : b = r := by rw [← href', hid, href]
        exact absurd ⟨rfl, by rw [← hkey', hbr, hkey], hsub⟩ hno
    | lease =>
      rcases dram_lease_le ha hlt with hle | ⟨b, u, rfl, hid⟩
      · exact leased_mono h hle (dram_now_le ha)
      · exact absurd ⟨rfl, r, hr, hid.symm⟩ hno
  · rw [hd]
    exact h

private theorem entry_step (hinv : Inv p noAudit s m) (hx : exec p x env s = some (y, s'))
    (hno : ¬ Protects kind k s x) {e : NvmeRef} (he : s.disk.index k = some e)
    (h : kind.onEntry (s.disk.cells e.id) s.dram.now = false) :
    kind.onEntry (s'.disk.cells e.id) s'.dram.now = false := by
  obtain ⟨⟨hlt, href⟩, hkey⟩ := hinv.2.indexed k e he
  have hsame : ∀ {c : Disk.NvmeCell} {now' : ℕ}, c.pinFlags = (s.disk.cells e.id).pinFlags →
      c.leaseUntil ≤ (s.disk.cells e.id).leaseUntil → s.dram.now ≤ now' →
      kind.onEntry c now' = false := by
    intro c now' hp hl hnow
    cases kind with
    | pin =>
      change decide (c.pinFlags ≠ .none) = false
      rw [hp]
      exact h
    | lease => exact leased_mono h hl hnow
  cases x with
  | dram a =>
    have hnow := node_now_le hx
    obtain ⟨d', -, rfl⟩ := exec_dram hx
    exact hsame rfl (le_refl _) hnow
  | publish k' r loc z =>
    cases hx
    have hcell : (s.publish k' r loc z).disk.cells e.id = s.disk.cells e.id :=
      update_of_ne (Nat.ne_of_lt hlt) ..
    rw [hcell]
    exact h
  | answer a =>
    cases hx
    exact h
  | disk a =>
    obtain ⟨t', ha, rfl⟩ := exec_disk hx
    change kind.onEntry (t'.cells e.id) s.dram.now = false
    have hstep := cell_step ha
    generalize t'.cells = cells at hstep
    -- an entry with the id of this one is this one, so its key is this key
    have hown : ∀ {k' e'}, s.disk.index k' = some e' → e'.id = e.id → k' = k := by
      intro k' e' he' hid
      obtain ⟨⟨-, href'⟩, hkey'⟩ := hinv.2.indexed k' e' he'
      have hee : e' = e := by rw [← href', hid, href]
      rw [← hkey', hee, hkey]
    cases hstep with
    | same => exact h
    | pin k' f e' he' =>
      by_cases hid : e'.id = e.id
      · rw [hid, update_self]
        cases kind with
        | pin =>
          have hf : f = .none := by
            by_contra hf
            exact hno ⟨rfl, hown he' hid, hf⟩
          rw [hf]
          rfl
        | lease => exact h
      · rw [update_of_ne (Ne.symm hid)]
        exact h
    | lease _ k' e' c he' hx' hp =>
      by_cases hid : e'.id = e.id
      · cases kind with
        | pin =>
          rw [hid, update_self]
          rw [hid] at hp
          change decide (c.pinFlags ≠ .none) = false
          rw [hp]
          exact h
        | lease =>
          rcases hx' with ⟨now', u, rfl⟩ | ⟨ttl, u, rfl⟩
          · exact absurd ⟨rfl, hown he' hid⟩ hno
          · exact absurd ⟨rfl, hown he' hid, rfl⟩ hno
      · rw [update_of_ne (Ne.symm hid)]
        exact h
    | other _ e' c hp hl =>
      by_cases hid : e'.id = e.id
      · rw [hid, update_self]
        rw [hid] at hp hl
        exact hsame hp hl (le_refl _)
      · rw [update_of_ne (Ne.symm hid)]
        exact h

private theorem block_inserted {o l z : ℕ} {b : BlockRef × Bool}
    (hx : exec p (.dram (.insert k o l z)) env s = some (b, s')) (hnone : s.dram.index k = none) :
    kind.onBlock (s'.dram.cells s.dram.next) s'.dram.now = false := by
  obtain ⟨d', ha, rfl⟩ := exec_dram hx
  unfold Tier.exec at ha
  dsimp only at ha
  split at ha
  · cases ha
  rw [hnone] at ha
  cases ha
  change kind.onBlock (update s.dram.cells s.dram.next _ s.dram.next) _ = false
  rw [update_self]
  cases kind with
  | pin => rfl
  | lease => exact decide_eq_false (Nat.not_lt_zero s.dram.now)

theorem Cleared.step {but : Option BlockRef} {below : Bool} (h : Cleared kind k but below s)
    (hinv : Inv p noAudit s m) (hx : exec p x env s = some (y, s'))
    (hno : ¬ Protects kind k s x) : Cleared kind k but below s' where
  block r hr hne := by
    rcases node_dram_index_cases k hx with hi | ⟨o, l, z, rfl, -, hnone, hi⟩ | ⟨-, hi⟩
    · rw [hi] at hr
      exact block_step hinv hx hno hr (h.block r hr hne)
    · rw [hi] at hr
      cases hr
      exact block_inserted hx hnone
    · rw [hi] at hr
      cases hr
  entry hb e he := by
    rcases node_disk_index_cases k hx with hi | ⟨g, e', -, -, -, hi⟩ | ⟨r', loc, z, rfl, hi⟩
    · rw [hi] at he
      exact entry_step hinv hx hno he (h.entry hb e he)
    · rw [hi] at he
      cases he
    rw [hi] at he
    cases he
    cases hx
    change kind.onEntry (update s.disk.cells s.disk.next _ s.disk.next) _ = false
    rw [update_self]
    cases kind with
    | pin => rfl
    | lease => exact decide_eq_false (Nat.not_lt_zero s.dram.now)

end Steps

end KVStash.Tiered.Protection
