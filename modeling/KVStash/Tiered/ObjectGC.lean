/- GID: KVStash/Tiered/ObjectGC
   digest: Liveness counts cover the S3-only entries of a segment, and no needed object is dropped.
     -/

import KVStash.Tiered.Logic.Node
import Mathlib.Data.Set.Card.Arithmetic

set_option autoImplicit false

namespace KVStash.Tiered.ObjectGC

open Dram Tiered.System Tiered.Logic Tiered.Node
open Foundation.Run Foundation.Threads Foundation.Tally
open Dram.Tier (Audit Key)
open Tiered.Disk (Tiers)

/-- The keys whose entry is S3-only and lives in a segment. -/
def coldKeys (t : Tiers) (id : ℕ) : Set Key :=
  { k | ∃ r, t.index k = some r ∧ r.loc.segmentID = id ∧ (t.cells r.id).s3Only = true }

theorem coldIn_eq_ncard {a : Audit} {t : Tiers} {m : Disk.Own} (h : Disk.Inv a t m) (id : ℕ) :
    Disk.total t (Disk.NvmeCell.coldIn id) = (coldKeys t id).ncard := by
  classical
  rw [h.total_eq_finsum, ← finsum_one]
  apply finsum_congr
  intro k
  rw [finsum_eq_if]
  cases hx : t.index k with
  | none => simp [coldKeys, hx]
  | some r =>
    have href := (h.indexed k r hx).1.2
    simp [coldKeys, hx, Disk.NvmeCell.coldIn, href]

theorem coldKeys_finite {a : Audit} {t : Tiers} {m : Disk.Own} (h : Disk.Inv a t m) (id : ℕ) :
    (coldKeys t id).Finite := by
  apply ((Finset.range t.next).finite_toSet.image fun i => (t.cells i).ref.key).subset
  rintro k ⟨r, hk, -, -⟩
  obtain ⟨⟨hlt, href⟩, hkey⟩ := h.indexed k r hk
  exact ⟨r.id, Finset.mem_coe.mpr (Finset.mem_range.mpr hlt),
    (congrArg Disk.NvmeRef.key href).trans hkey⟩

/-! ### Runs -/

/-- A demotion that publishes finds no S3-only entry under its key. -/
def SparesCold : Option Act → Tiers → Prop
  | some (.publish k _ _ _), t => ∀ r ∈ t.index k, (t.cells r.id).s3Only = false
  | _, _ => True

instance : (o : Option Act) → (t : Tiers) → Decidable (SparesCold o t)
  | some (.publish k _ _ _), t =>
    inferInstanceAs (Decidable (∀ r ∈ t.index k, (t.cells r.id).s3Only = false))
  | some (.dram _), _ => isTrue trivial
  | some (.disk _), _ => isTrue trivial
  | some (.answer _), _ => isTrue trivial
  | none, _ => isTrue trivial

/-- What the exactness of the counts needs of an event. -/
def Counted (q : NodePool) (e : Event Call) : Prop := SparesCold (q.action e) q.shared.disk

instance (q : NodePool) (e : Event Call) : Decidable (Counted q e) :=
  inferInstanceAs (Decidable (SparesCold (q.action e) q.shared.disk))

variable {p : Params}

theorem meets_of_counted {q : NodePool} {e : Event Call} (h : Counted q e) :
    (logic p ⟨false, true, fun _ => 0⟩).Meets (Covered ⟨false, true, fun _ => 0⟩) q e := by
  cases e with
  | spawn c =>
    change Covered _ c
    cases c <;> first | trivial | exact (nomatch ·)
  | step i env =>
    intro x hx
    have hf : SparesCold (q.action (.step i env)) q.shared.disk := h
    rw [Pool.action_step_eq_some.mpr hx] at hf
    cases x with
    | publish k r loc x => exact ⟨(nomatch ·), fun _ => hf⟩
    | _ => trivial

/-- In every state that any interleaving reaches, the count of a segment covers the
S3-only entries that live in it and each of them has its object; between calls the
count is exact, provided no demotion published over an S3-only entry. -/
theorem counts_cover {v : Recovery} (hv : v.Sound) {now : ℕ} {es : List (Event Call)}
    {q : NodePool} (hr : run (system p).next (Pool.start (v.start now)) es = some q) :
    (∀ id, (coldKeys q.shared.disk id).Finite ∧
      (coldKeys q.shared.disk id).ncard ≤ q.shared.disk.segRefs id) ∧
    (∀ k r, q.shared.disk.index k = some r → (q.shared.disk.cells r.id).s3Only = true →
      q.shared.disk.bucket r.loc.segmentID = true) ∧
    (Along (system p).next Counted (Pool.start (v.start now)) es → Quiet q →
      ∀ id, (coldKeys q.shared.disk id).ncard = q.shared.disk.segRefs id) := by
  obtain ⟨m, -, hm⟩ := (ok_of_run hv hr).inv
  refine ⟨fun id => ?_, fun k r hk hc => (hm.cold k r hk hc).2, fun hcond hq id => ?_⟩
  · refine ⟨coldKeys_finite hm id, ?_⟩
    rw [← coldIn_eq_ncard hm]
    exact le_trans (Nat.le_add_right _ _) (hm.counted id).1
  have hz : Sized ⟨false, true, fun _ => 0⟩ v := ⟨(nomatch ·), (nomatch ·)⟩
  have hok := Reaches.ok hv hz ⟨hr, hcond.mono fun q e h => meets_of_counted h⟩
  have hidle := (hok.quiet hq).2
  have hcount := (hidle.counted id).2 rfl
  rw [show ((0 : Logic.Own).2 : Disk.Own) = 0 from rfl, weigh_zero, add_zero] at hcount
  rw [← coldIn_eq_ncard hidle]
  exact hcount

/-- A block is put and demoted, its segment is sealed, spilled and retired. -/
def retired : List (Event Call) := putSpill ++ .spawn (.reclaimSegment 0) :: take 5
    [0, 0, 0, 0, 0, 0, 0, 0, 0, 0, 0, 0]

theorem counts_cover_retired : ∃ q,
    after small retired = some q ∧ Quiet q ∧
      q.shared.disk.segRefs 0 = 1 ∧ (coldKeys q.shared.disk 0).ncard = 1 := by
  have hrun : ∃ q ∈ after small retired,
      Quiet q ∧ q.shared.disk.segRefs 0 = 1 := by
    decide +kernel
  have hcond : Along (system small).next Counted (Pool.start (Recovery.empty.start 0)) retired := by
    decide +kernel
  obtain ⟨q, hq, hquiet, hrefs⟩ := hrun
  have h := (counts_cover Recovery.empty_sound hq).2.2 hcond hquiet 0
  exact ⟨q, hq, hquiet, hrefs, by rw [h, hrefs]⟩

/-- The same, but a PUT of another digest looks below DRAM before the demotion and
inserts after the retirement; what it inserted is demoted over the S3-only entry. -/
def overwriteCold : List (Event Call) :=
  putOver ++ .spawn .rotate :: take 4 [0, 0] ++
    .spawn (.spillOne 0) :: take 5 [0, 0, 0, 0, 0, 0, 0, 0] ++
    .spawn (.reclaimSegment 0) :: take 6 [0, 0, 0, 0, 0, 0, 0, 0, 0, 0, 0, 0] ++
    take 2 [0, 2, 0, 0, 0] ++
    .spawn (.demoteOne ⟨0, 7⟩) :: take 7 [0, 0, 0, 0, 0, 0, 0, 0, 0, 0, 0, 0, 0] ++ take 2 [0, 0]

/-- The count of the overwritten entry is never given back. -/
theorem overwritten_stays_counted : ∃ q,
    after small overwriteCold = some q ∧
      Quiet q ∧ q.shared.disk.segRefs 0 = 1 ∧ (coldKeys q.shared.disk 0).ncard = 0 := by
  have hrun : ∃ q ∈ after small overwriteCold,
      Quiet q ∧ q.shared.disk.segRefs 0 = 1 ∧
      Disk.total q.shared.disk (Disk.NvmeCell.coldIn 0) = 0 := by
    decide +kernel
  obtain ⟨q, hq, hquiet, hrefs, hcold⟩ := hrun
  obtain ⟨m, -, hm⟩ := (ok_of_run Recovery.empty_sound hq).inv
  exact ⟨q, hq, hquiet, hrefs, (coldIn_eq_ncard hm 0).symm.trans hcold⟩

end KVStash.Tiered.ObjectGC
