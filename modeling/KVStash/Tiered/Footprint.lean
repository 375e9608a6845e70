/- GID: KVStash/Tiered/Footprint
   digest: The programs that run inside a call without deciding anything about a key's entries. -/

import KVStash.Tiered.System

set_option autoImplicit false

namespace KVStash.Tiered.Footprint

open Protocol Dram Tiered Tiered.System Tiered.Node
open Foundation.Threads
open Dram.Tier (BlockRef Key)
open Tiered.Disk (NvmeRef)

variable {p : Params} {k : Key}

/-- An action that neither answers nor looks an entry below DRAM up, and that removes
and publishes none. -/
def Inner : Act → Prop
  | .answer _ | .publish _ _ _ _ => False
  | .disk (.get _) | .disk (.deleteIf _ _) => False
  | .dram (.gate _ _) | .dram (.remove _) => False
  | _ => True

theorem resp_nonempty (x : Act) : Nonempty x.Resp := by
  have : Inhabited Status := ⟨.ok⟩
  have : Inhabited BlockRef := ⟨⟨0, ⟨0, 0⟩, 0, 0, 0⟩⟩
  have : Inhabited Disk.ReadResult := ⟨.busy⟩
  have : Inhabited Disk.AppendResult := ⟨.refused⟩
  cases x with
  | dram a => cases a <;> exact ⟨default⟩
  | disk a => cases a <;> exact ⟨default⟩
  | _ => exact ⟨()⟩

theorem refund_inner (ns : ℕ) (e : NvmeRef) : (Calls.refundNvmeQuota p ns e).Every Inner := by
  have hgc : ∀ id, (Calls.enqueueObjectGC p id).Every Inner := by
    intro id
    unfold Calls.enqueueObjectGC
    split
    · refine ⟨trivial, fun marked => ?_⟩
      cases marked with
      | true => trivial
      | false =>
        refine ⟨trivial, fun sent => ?_⟩
        cases sent with
        | true => trivial
        | false => exact ⟨trivial, fun _ => trivial⟩
    · trivial
  unfold Calls.refundNvmeQuota
  split
  · trivial
  refine ⟨trivial, fun cold => ?_⟩
  cases cold with
  | false => exact ⟨trivial, fun _ => trivial⟩
  | true =>
    refine ⟨trivial, fun last => ?_⟩
    cases last with
    | false => exact ⟨trivial, fun _ => trivial⟩
    | true =>
      change (Calls.enqueueObjectGC p _ >>= fun _ => disk (.refundS3 ns e.len)).Every Inner
      exact Prog.every_bind (hgc _) fun _ => ⟨trivial, fun _ => trivial⟩

/-- A release takes at most two actions. -/
theorem release_every {P : Act → Prop} (b : BlockRef) (hrel : P (.dram (.release b)))
    (hfree : P (.dram (.free b.extent))) : (Tier.release b).Every P := by
  refine ⟨hrel, fun last => ?_⟩
  cases last with
  | false => trivial
  | true =>
    change (Tier.free b).Every P
    unfold Tier.free
    split
    · trivial
    · exact ⟨hfree, fun _ => trivial⟩

theorem release_inner (b : BlockRef) : (Tier.release b).Every Inner :=
    release_every b trivial trivial

theorem publishBlock_inner (o n x : ℕ) : (Tier.publishBlock k o n x).Every Inner := by
  refine ⟨trivial, fun y => ?_⟩
  obtain ⟨b, inserted⟩ := y
  cases inserted with
  | true => trivial
  | false =>
    by_cases hn : 0 < n
    · simp only [hn, if_true]
      exact ⟨trivial, fun _ => ⟨trivial, fun _ => trivial⟩⟩
    · simp only [hn, if_false]
      trivial

theorem allocate_inner (d : Tier.Params) (n : ℕ) : (Tier.allocate d n).Every Inner := by
  refine ⟨trivial, fun o => ?_⟩
  cases o with
  | some o => trivial
  | none =>
    dsimp only
    split
    · exact ⟨trivial, fun _ => trivial⟩
    · trivial

theorem put_inner (d : Tier.Params) (bs : List UInt8) (x : ℕ) :
    (Tier.put d k bs x).Every Inner := by
  refine ⟨trivial, fun o => ?_⟩
  cases o with
  | some b => trivial
  | none =>
    dsimp only
    split
    · exact publishBlock_inner ..
    apply Prog.every_bind (allocate_inner d _)
    intro o
    cases o with
    | none => trivial
    | some o =>
      refine ⟨trivial, fun _ => ⟨trivial, fun charged => ?_⟩⟩
      cases charged with
      | true => exact publishBlock_inner ..
      | false => exact ⟨trivial, fun _ => trivial⟩

theorem promoteInsert_inner (e : NvmeRef) (bs : List UInt8) :
    (Calls.promoteInsert p k e bs).Every Inner := by
  apply Prog.every_bind (put_inner _ _ _)
  intro st
  cases st <;> trivial

theorem readS3_inner (e : NvmeRef) : (Calls.readS3 p e).Every Inner := by
  unfold Calls.readS3
  split
  · refine ⟨trivial, fun cold => ?_⟩
    cases cold with
    | true => exact ⟨trivial, fun _ => trivial⟩
    | false => trivial
  · trivial

theorem promoteCold_inner (e : NvmeRef) : (Calls.promoteCold p k e).Every Inner := by
  apply Prog.every_bind (readS3_inner e)
  intro res
  cases res with
  | ok bs => exact promoteInsert_inner e bs
  | error st =>
    have hopen : (disk .breakerOpen >>= fun o => if o then pure .errBusy else pure .notFound :
        Code Status).Every Inner := by
      refine ⟨trivial, fun o => ?_⟩
      cases o <;> trivial
    cases st with
    | errBusy => trivial
    | _ => exact hopen

theorem promoteSync_inner (e : NvmeRef) : (Calls.promoteSync p k e).Every Inner := by
  refine ⟨trivial, fun res => ?_⟩
  cases res with
  | ok bs => exact promoteInsert_inner e bs
  | busy => trivial
  | corrupt => trivial
  | _ => exact promoteCold_inner e

end KVStash.Tiered.Footprint
