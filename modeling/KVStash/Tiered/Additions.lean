/- GID: KVStash/Tiered/Additions
   digest: The programs of a node that add nothing to its tiers: no block, no record and no entry.
     -/

import KVStash.Tiered.Footprint

set_option autoImplicit false

namespace KVStash.Tiered.Additions

open Protocol Dram Tiered Tiered.System Tiered.Node Calls
open Foundation.Threads
open Dram.Tier (BlockRef Key)
open Tiered.Disk (NvmeRef)

variable {p : Params} {k : Key} {α : Type}

/-- An action that puts no block into DRAM, appends no record and publishes no entry. -/
@[simp] def Tame : Act → Prop
  | .publish _ _ _ _ => False
  | .dram (.insert _ _ _ _) => False
  | .disk (.append _ _ _) => False
  | _ => True

/-- An action that also ends no block of DRAM, sets no expiry time and lets no time pass. -/
@[simp] def Lasting : Act → Prop
  | .dram (.remove _) | .dram (.advance _) | .dram (.touch _ _ (some _)) => False
  | .disk (.touchLease _ sub ttl _) => sub = .touchRecency → ttl = 0
  | x => Tame x

theorem Lasting.tame {x : Act} (h : Lasting x) : Tame x := by
  unfold Lasting at h
  split at h
  · trivial
  · trivial
  · trivial
  · trivial
  · exact h

theorem tame {code : Code α} (h : code.Every Lasting) : code.Every Tame :=
  h.mono fun _ => Lasting.tame

theorem every_dram {P : Act → Prop} {a : Tier.Act} {f : a.Resp → Code α}
    (ha : P (.dram a)) (hf : ∀ r, (f r).Every P) : (dram a >>= f).Every P :=
  ⟨ha, hf⟩

theorem every_disk {P : Act → Prop} {a : Disk.Act} {f : a.Resp → Code α}
    (ha : P (.disk a)) (hf : ∀ r, (f r).Every P) : (disk a >>= f).Every P :=
  ⟨ha, hf⟩

/-! ### The DRAM tier -/

theorem release_lasting (b : BlockRef) : (Tier.release b).Every Lasting := by
  unfold Tier.release Tier.free
  split <;> simp [dram]

theorem refundQuota_lasting (b : BlockRef) : (Tier.refundQuota b).Every Lasting := by
  unfold Tier.refundQuota
  split <;> simp [dram]

private theorem removal_tame (b : BlockRef) (x : α) :
    (dram (.remove k) >>= fun _ => Tier.refundQuota b >>= fun _ => Tier.release b >>= fun _ =>
      (pure x : Code α)).Every Tame := by
  apply every_dram trivial
  intro _
  apply Prog.every_bind (tame (refundQuota_lasting b))
  intro _
  exact Prog.every_bind (tame (release_lasting b)) fun _ => trivial

theorem dramDelete_tame (force : Bool) : (Tier.delete k force).Every Tame := by
  apply every_dram trivial
  intro res
  cases res with
  | error st => trivial
  | ok b => exact removal_tame b Status.ok

theorem dramEvictOne_tame (emergency : Bool) : (Tier.evictOne k emergency).Every Tame := by
  apply every_dram trivial
  intro res
  cases res with
  | error st => trivial
  | ok b => exact removal_tame b b.len

theorem completeDemotion_tame (x : ℕ) :
    (Tier.completeDemotion k x fun _ => pure ()).Every Tame := by
  apply every_dram trivial
  intro res
  cases res with
  | error st => trivial
  | ok b =>
    apply every_dram trivial
    intro _
    exact Prog.every_bind (tame (release_lasting b)) fun _ => trivial

theorem refForDemotion_lasting : (Tier.refForDemotion k).Every Lasting := by
  apply every_dram trivial
  intro o
  cases o with
  | none => trivial
  | some b =>
    dsimp only
    split <;> simp [dram]

theorem dramTouchLease_tame (sub : TouchSub) (ttlMS : ℕ) :
    (Tier.touchLease p.dram k sub ttlMS).Every Tame := by
  apply every_dram trivial
  intro o
  cases o with
  | none => trivial
  | some b => cases sub <;> simp [dram]

theorem getRef_lasting : (Tier.getRef p.dram k).Every Lasting := by
  apply every_dram trivial
  intro o
  cases o with
  | none => trivial
  | some b =>
    apply every_dram trivial
    intro ok
    cases ok with
    | false => trivial
    | true => by_cases hlen : 0 < b.len <;> simp [Tier.grantReadLease, dram, hlen]

/-! ### The removal funnel and the reads below DRAM -/

theorem enqueueObjectGC_lasting (id : ℕ) : (enqueueObjectGC p id).Every Lasting := by
  unfold enqueueObjectGC
  split <;> simp [disk]

theorem refundNvmeQuota_lasting (ns : ℕ) (e : NvmeRef) :
    (refundNvmeQuota p ns e).Every Lasting := by
  unfold refundNvmeQuota
  split
  · trivial
  apply every_disk trivial
  intro cold
  cases cold with
  | false => simp [disk]
  | true =>
    apply every_disk trivial
    intro last
    cases last with
    | false => simp [disk]
    | true => exact Prog.every_bind (enqueueObjectGC_lasting _) fun _ => by simp [disk]

theorem dropEntry_lasting (g : Disk.DropGate) : (dropEntry p k g).Every Lasting := by
  apply every_disk trivial
  intro res
  cases res with
  | error st => trivial
  | ok e => exact Prog.every_bind (refundNvmeQuota_lasting k.ns e) fun _ => trivial

theorem readS3_lasting (e : NvmeRef) : (readS3 p e).Every Lasting := by
  unfold readS3
  split <;> simp [disk]

theorem serve_lasting (e : NvmeRef) (data : List UInt8) : (serve p k e data).Every Lasting := by
  apply every_dram trivial
  intro now
  apply every_disk trivial
  intro o
  cases o <;> simp [answer]

/-! ### The verbs -/

theorem getRefTier_lasting : (getRefTier p k).Every Lasting := by
  apply Prog.every_bind getRef_lasting
  intro o
  cases o with
  | some b => exact ⟨trivial, fun _ => release_lasting b.ref⟩
  | none =>
    apply every_disk trivial
    intro o
    cases o with
    | none => simp [answer]
    | some e =>
      apply every_disk trivial
      intro res
      cases res with
      | ok data => exact serve_lasting e data
      | corrupt => exact Prog.every_bind (dropEntry_lasting _) fun _ => by simp [answer]
      | gone =>
        apply Prog.every_bind (readS3_lasting e)
        intro res
        cases res with
        | ok data => exact serve_lasting e data
        | error st => cases st <;> simp [answer]
      | _ => simp [answer]

theorem contains_lasting : (contains k).Every Lasting := by
  apply every_dram trivial
  intro o
  cases o with
  | some b => simp [answer]
  | none =>
    apply every_disk trivial
    intro o
    cases o <;> simp [answer]

theorem delete_tame (force : Bool) : (delete p k force).Every Tame := by
  apply Prog.every_bind (tame (dropEntry_lasting _))
  intro res
  cases res with
  | error st =>
    cases st with
    | errLeased => trivial
    | errPinned => trivial
    | _ => exact dramDelete_tame force
  | ok e =>
    apply Prog.every_bind (dramDelete_tame force)
    intro st
    cases st <;> trivial

theorem touchLease_tame (sub : TouchSub) (ttlMS : ℕ) : (touchLease p k sub ttlMS).Every Tame := by
  apply Prog.every_bind (dramTouchLease_tame sub ttlMS)
  rintro ⟨st, lease⟩
  cases st with
  | notFound => simp [dram, disk]
  | _ => trivial

theorem completeHere_tame (d : Tier.Demotee) : (completeHere k d).Every Tame := by
  apply Prog.every_bind (tame (release_lasting d.ref))
  intro _
  apply Prog.every_bind (completeDemotion_tame d.ref.xxh3)
  intro done
  cases done <;> simp [dram]

/-! ### The background passes -/

private theorem anyProtected_lasting (id now : ℕ) (ks : List Key) :
    (anyProtected id now ks).Every Lasting := by
  induction ks with
  | nil => trivial
  | cons k ks ih => simpa [anyProtected, disk] using ih

private theorem s3FlipRetired_lasting (id : ℕ) (ks : List Key) :
    (s3FlipRetired id ks).Every Lasting := by
  induction ks with
  | nil => trivial
  | cons k ks ih => simpa [s3FlipRetired, disk] using ih

private theorem dropRetired_lasting (id : ℕ) (ks : List Key) :
    (dropRetired p id ks).Every Lasting := by
  induction ks with
  | nil => trivial
  | cons k ks ih =>
    apply Prog.every_bind (dropEntry_lasting _)
    intro res
    cases res with
    | ok e => exact ih
    | error st =>
      cases st with
      | errLeased => trivial
      | _ => exact ih

private theorem retire_lasting (id : ℕ) (ks : List Key) : (retire p id ks).Every Lasting := by
  have hkeeps : (keepsEntries p id).Every Lasting := by
    unfold keepsEntries
    split <;> simp [disk]
  apply Prog.every_bind hkeeps
  intro flip
  have hsweep : (sweepRetired p id flip ks).Every Lasting := by
    cases flip with
    | true => exact ⟨trivial, fun keys => s3FlipRetired_lasting id keys⟩
    | false => exact dropRetired_lasting id ks
  apply Prog.every_bind hsweep
  intro stranded
  cases stranded with
  | true => simp [disk]
  | false =>
    apply every_disk trivial
    intro done
    cases done with
    | false => trivial
    | true =>
      cases flip with
      | true => exact enqueueObjectGC_lasting id
      | false => trivial

theorem reclaimSegment_lasting (from_ : ℕ) : (reclaimSegment p from_).Every Lasting := by
  apply every_disk trivial
  intro o
  cases o with
  | none => trivial
  | some x =>
    obtain ⟨id, ks⟩ := x
    apply every_disk trivial
    intro latched
    cases latched with
    | false => trivial
    | true =>
      apply every_dram trivial
      intro now
      apply Prog.every_bind (anyProtected_lasting id now ks)
      intro busy
      cases busy with
      | true => simp [disk]
      | false =>
        apply every_disk trivial
        intro began
        cases began with
        | false => simp [disk]
        | true => exact Prog.every_bind (retire_lasting id ks) fun _ => by simp [disk]

private theorem flagEntries_lasting (id : ℕ) (ks : List Key) :
    (flagEntries id ks).Every Lasting := by
  induction ks with
  | nil => trivial
  | cons k ks ih =>
    apply every_disk trivial
    intro o
    cases o with
    | none => exact ih
    | some e => by_cases hid : e.loc.segmentID = id <;> simpa [disk, hid] using ih

theorem spillOne_lasting (id : ℕ) : (spillOne p id).Every Lasting := by
  unfold spillOne
  split
  · apply every_disk trivial
    intro ids
    split
    · apply every_disk trivial
      intro latched
      cases latched with
      | false => trivial
      | true =>
        apply every_disk trivial
        intro stored
        cases stored with
        | false => simp [disk]
        | true =>
          apply every_disk trivial
          intro keys
          exact Prog.every_bind (flagEntries_lasting id keys) fun _ => by simp [disk]
    · trivial
  · trivial

private theorem s3FlipRestored_lasting (id : ℕ) (ks : List Key) :
    (s3FlipRestored id ks).Every Lasting := by
  induction ks with
  | nil => trivial
  | cons k ks ih => exact ⟨trivial, fun _ => ih⟩

theorem restoreOne_lasting (e : NvmeRef) : (restoreOne p k e).Every Lasting := by
  have hhome : ∀ id, (bringHome id).Every Lasting := fun id => by
    simp [bringHome, disk]
  unfold restoreOne
  split
  · apply every_disk trivial
    intro o
    cases o with
    | none => trivial
    | some cur =>
      dsimp only
      split
      · apply every_disk trivial
        intro cold
        cases cold with
        | false => trivial
        | true =>
          apply every_disk trivial
          intro latched
          cases latched with
          | false => trivial
          | true =>
            apply Prog.every_bind (hhome _)
            intro home
            cases home with
            | false => simp [disk]
            | true =>
              apply every_disk trivial
              intro keys
              exact Prog.every_bind (s3FlipRestored_lasting _ keys) fun _ => by simp [disk]
      · trivial
  · trivial

theorem lateAdopt_lasting (id : ℕ) : (lateAdopt id).Every Lasting := by
  simp [lateAdopt, disk]

theorem collectOne_lasting : (collectOne p).Every Lasting := by
  unfold collectOne
  cases p.spill <;> simp [disk]

theorem rotate_lasting : rotate.Every Lasting := by
  simp [rotate, disk]

theorem tryRecoverWrites_lasting : tryRecoverWrites.Every Lasting := by
  simp [tryRecoverWrites, disk]

end KVStash.Tiered.Additions
