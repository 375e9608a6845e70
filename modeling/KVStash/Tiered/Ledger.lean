/- GID: KVStash/Tiered/Ledger
   digest: Between calls the quota ledgers are the bytes that are resident, tier by tier. -/

import KVStash.Tiered.Logic.Node

set_option autoImplicit false

namespace KVStash.Tiered.Ledger

open Dram Tiered.System Tiered.Logic Tiered.Node
open Foundation.Run Foundation.Threads Foundation.Tally
open Dram.Tier (Audit Key)
open Tiered.Disk (Tiers)

/-! ### Resident bytes -/

/-- The bytes a key has in DRAM, for the ledger of a namespace. -/
def dramLen (s : Tier.Store) (ns : ℕ) (k : Key) : ℤ :=
  if k.ns = ns then (s.index k).elim 0 fun r => (r.len : ℤ) else 0

/-- The bytes a key has below DRAM, S3-only or not, for the ledger of a namespace. -/
def entryLen (t : Tiers) (cold : Bool) (ns : ℕ) (k : Key) : ℤ :=
  if k.ns = ns then
    (t.index k).elim 0 fun r => if (t.cells r.id).s3Only = cold then (r.len : ℤ) else 0
  else 0

noncomputable def dramResident (s : Tier.Store) (ns : ℕ) : ℤ := ∑ᶠ k, dramLen s ns k

noncomputable def nvmeResident (t : Tiers) (ns : ℕ) : ℤ := ∑ᶠ k, entryLen t false ns k

noncomputable def s3Resident (t : Tiers) (ns : ℕ) : ℤ := ∑ᶠ k, entryLen t true ns k

section Resident

variable {p : Tier.Params} {a : Audit}

theorem accounted_eq_resident {s : Tier.Store} (h : Tier.Inv p a s 0) (ns : ℕ) :
    tally s.next (Tier.accounted s 0 ns) = dramResident s ns := by
  rw [dramResident, ← tally_eq_finsum (g := fun i => (s.cells i).ref.key) (n := s.next)
    (P := fun i => s.index (s.cells i).ref.key = some (s.cells i).ref)]
  · apply tally_congr
    intro i _
    unfold Tier.accounted
    by_cases hr : s.index (s.cells i).ref.key = some (s.cells i).ref
    · simp [dramLen, hr]
    · simp [hr]
  · intro i hi j hj hri hrj hij
    rw [hij, hrj, Option.some.injEq] at hri
    rw [← h.ids i hi, ← h.ids j hj, hri]
  · intro k hk
    cases hx : s.index k with
    | none => simp [dramLen, hx] at hk
    | some r =>
      obtain ⟨⟨hlt, href⟩, hkey⟩ := h.indexed k r hx
      exact ⟨r.id, hlt, by rw [href, hkey, hx], by rw [href, hkey]⟩

variable {t : Tiers} {m : Disk.Own}

theorem warm_eq_resident (h : Disk.Inv a t m) (ns : ℕ) :
    Disk.total t (Disk.NvmeCell.warmBytes ns) = nvmeResident t ns := by
  rw [h.total_eq_finsum, nvmeResident]
  congr 1
  funext k
  cases hx : t.index k with
  | none => simp [entryLen, hx]
  | some r =>
    obtain ⟨⟨-, href⟩, hkey⟩ := h.indexed k r hx
    simp only [entryLen, hx, Option.elim_some, Disk.NvmeCell.warmBytes, href, hkey, ite_and]

theorem cold_eq_resident (h : Disk.Inv a t m) (ns : ℕ) :
    Disk.total t (Disk.NvmeCell.coldBytes ns) = s3Resident t ns := by
  rw [h.total_eq_finsum, s3Resident]
  congr 1
  funext k
  cases hx : t.index k with
  | none => simp [entryLen, hx]
  | some r =>
    obtain ⟨⟨-, href⟩, hkey⟩ := h.indexed k r hx
    simp only [entryLen, hx, Option.elim_some, Disk.NvmeCell.coldBytes, href, hkey, ite_and]

end Resident

/-! ### Runs -/

/-- A demotion that publishes finds no entry under its key. -/
def FreshAt : Option Act → Tiers → Prop
  | some (.publish k _ _ _), t => t.index k = none
  | _, _ => True

instance : (o : Option Act) → (t : Tiers) → Decidable (FreshAt o t)
  | some (.publish k _ _ _), t => inferInstanceAs (Decidable (t.index k = none))
  | some (.dram _), _ => isTrue trivial
  | some (.disk _), _ => isTrue trivial
  | some (.answer _), _ => isTrue trivial
  | none, _ => isTrue trivial

/-- A digest stands for one length, and a demotion is completed by the pass that
began it. -/
def Sizes (lenOf : ℕ → ℕ) : Call → Prop
  | .put _ data x => data.length = lenOf x
  | .dramPut _ data x => data.length = lenOf x
  | .completeDemotion _ _ => False
  | _ => True

instance (lenOf : ℕ → ℕ) (c : Call) : Decidable (Sizes lenOf c) := by
  cases c <;> unfold Sizes <;> infer_instance

def Accountable (lenOf : ℕ → ℕ) (q : NodePool) : Event Call → Prop
  | .spawn c => Sizes lenOf c
  | .step i env => FreshAt (q.action (.step i env)) q.shared.disk

instance (lenOf : ℕ → ℕ) (q : NodePool) : (e : Event Call) → Decidable (Accountable lenOf q e)
  | .spawn c => inferInstanceAs (Decidable (Sizes lenOf c))
  | .step i env => inferInstanceAs (Decidable (FreshAt (q.action (.step i env)) q.shared.disk))

variable {p : Params}

theorem meets_of_accountable {lenOf : ℕ → ℕ} {q : NodePool} {e : Event Call}
    (h : Accountable lenOf q e) :
    (logic p ⟨true, false, lenOf⟩).Meets (Covered ⟨true, false, lenOf⟩) q e := by
  cases e with
  | spawn c =>
    change Covered _ c
    cases c with
    | put k data x => exact fun _ => h
    | dramPut k data x => exact fun _ => h
    | completeDemotion k x => exact h.elim
    | _ => trivial
  | step i env =>
    intro x hx
    have hf : FreshAt (q.action (.step i env)) q.shared.disk := h
    rw [Pool.action_step_eq_some.mpr hx] at hf
    cases x with
    | publish k r loc x => exact ⟨fun _ => hf, (nomatch ·)⟩
    | _ => trivial

/-- Between calls, in every run from a recovery with distinct keys in which digests
stand for lengths and no demotion publishes over an entry, the charged bytes of every
namespace are its resident bytes in DRAM, in segment files and in objects alone. -/
theorem ledger_exact {v : Recovery} (hv : v.Sound)
    (hkeys : (v.entries.map RecoveredEntry.key).Nodup) {lenOf : ℕ → ℕ}
    (hrec : ∀ id, ∀ rec ∈ v.log id, rec.data.length = lenOf rec.xxh3) {now : ℕ}
    {es : List (Event Call)} {q : NodePool}
    (hr : run (system p).next (Pool.start (v.start now)) es = some q)
    (hcond : Along (system p).next (Accountable lenOf) (Pool.start (v.start now)) es)
    (hq : Quiet q) (ns : ℕ) :
    q.shared.dram.used ns = dramResident q.shared.dram ns ∧
      q.shared.disk.usedNvme ns = nvmeResident q.shared.disk ns ∧
      q.shared.disk.usedS3 ns = s3Resident q.shared.disk ns := by
  have hz : Sized ⟨true, false, lenOf⟩ v := ⟨fun _ => hkeys, fun _ => hrec⟩
  have hok := Reaches.ok hv hz ⟨hr, hcond.mono fun q e h => meets_of_accountable h⟩
  obtain ⟨hdram, hdisk⟩ := hok.quiet hq
  refine ⟨?_, ?_, ?_⟩
  · have hled := hdram.ledger rfl ns
    rw [show ((0 : Logic.Own).1 : Tier.Own) = 0 from rfl, Tier.owed_zero, zero_add] at hled
    exact hled.trans (accounted_eq_resident hdram ns)
  · have hled := hdisk.nvmeLedger rfl ns
    rw [show ((0 : Logic.Own).2 : Disk.Own) = 0 from rfl, weigh_zero, zero_add] at hled
    exact hled.trans (warm_eq_resident hdisk ns)
  · have hled := hdisk.s3Ledger rfl ns
    rw [show ((0 : Logic.Own).2 : Disk.Own) = 0 from rfl, weigh_zero, zero_add] at hled
    exact hled.trans (cold_eq_resident hdisk ns)

theorem ledger_exact_putDemote : ∃ q,
    after small putDemote = some q ∧ Quiet q ∧
      q.shared.disk.usedNvme 0 = 1 ∧ nvmeResident q.shared.disk 0 = 1 := by
  have hrun : ∃ q ∈ after small putDemote,
      Quiet q ∧ q.shared.disk.usedNvme 0 = 1 := by
    decide +kernel
  have hcond : Along (system small).next (Accountable fun _ => 1)
      (Pool.start (Recovery.empty.start 0)) putDemote := by
    decide +kernel
  obtain ⟨q, hq, hquiet, hused⟩ := hrun
  have h := (ledger_exact Recovery.empty_sound List.nodup_nil (by simp [Recovery.empty]) hq hcond
    hquiet 0).2.1
  exact ⟨q, hq, hquiet, hused, by rw [← h, hused]⟩

/-- A PUT looks below DRAM before a demotion of another digest of its key lands there
and inserts after it; the demotion of what it inserted publishes over the entry. -/
def overwrite : List (Event Call) :=
  putOver ++ take 2 [0, 2, 0, 0, 0] ++
    .spawn (.demoteOne ⟨0, 7⟩) :: take 4 [0, 0, 0, 0, 0, 0, 0, 0, 0, 0, 0, 0, 0] ++ take 2 [0, 0]

/-- The entry that was overwritten stays charged. -/
theorem overwritten_stays_charged : ∃ q,
    after small overwrite = some q ∧ Quiet q ∧
      q.shared.disk.usedNvme 0 = 2 ∧ nvmeResident q.shared.disk 0 = 1 := by
  have hrun : ∃ q ∈ after small overwrite,
      Quiet q ∧ q.shared.disk.usedNvme 0 = 2 ∧
      Disk.total q.shared.disk (Disk.NvmeCell.warmBytes 0) = 1 := by
    decide +kernel
  obtain ⟨q, hq, hquiet, hused, hwarm⟩ := hrun
  obtain ⟨m, -, hm⟩ := (ok_of_run Recovery.empty_sound hq).inv
  exact ⟨q, hq, hquiet, hused, (warm_eq_resident hm 0).symm.trans hwarm⟩

end KVStash.Tiered.Ledger
