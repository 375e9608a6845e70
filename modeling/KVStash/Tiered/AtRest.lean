/- GID: KVStash/Tiered/AtRest
   digest: The index names records that exist, and finished calls keep nothing. -/

import KVStash.Tiered.ObjectGC

set_option autoImplicit false

namespace KVStash.Tiered.AtRest

open Tiered.System Tiered.Logic Tiered.Node
open Foundation.Run Foundation.Threads Foundation.Tally

variable {p : Params} {v : Recovery} {now : ℕ} {es : List (Event Call)} {q : NodePool}

/-- In every state that any interleaving reaches, each entry of the index names a record of its own
key and digest with the length it states; the segment of an entry that is not S3-only is a file, and
the object of one that is S3-only, or whose segment has been spilled, is in the bucket. -/
theorem entries_backed (hv : v.Sound)
    (hr : run (system p).next (Pool.start (v.start now)) es = some q) :
    let t := q.shared.disk
    ∀ k r, t.index k = some r →
      (∃ data, t.recordAt r.loc k r.xxh3 = some data) ∧ r.len = r.loc.len ∧ 0 < r.len ∧
      ((t.cells r.id).s3Only = false → (t.segs r.loc.segmentID).isSome) ∧
      ((t.cells r.id).s3Only = true ∨ (∃ g, t.segs r.loc.segmentID = some g ∧ g.spilled = true) →
        (t.cells r.id).s3 = true ∧ t.bucket r.loc.segmentID = true) := by
  intro t k r hk
  obtain ⟨m, -, hm⟩ := (ok_of_run hv hr).inv
  obtain ⟨hlen, hpos, -, hdata⟩ := hm.recorded k r hk
  refine ⟨hdata, hlen, hpos, hm.home k r hk, ?_⟩
  rintro (hcold | ⟨g, hg, hspilled⟩)
  · exact hm.cold k r hk hcold
  · exact hm.spilled k r g hk hg hspilled

theorem entries_backed_retired : ∃ q ∈ after small ObjectGC.retired,
    ∃ r ∈ q.shared.disk.index ⟨0, 7⟩, q.shared.disk.bucket r.loc.segmentID = true := by
  have hrun : ∃ q ∈ after small ObjectGC.retired,
      ∃ r ∈ q.shared.disk.index ⟨0, 7⟩, (q.shared.disk.cells r.id).s3Only = true := by
    decide +kernel
  obtain ⟨q, hq, r, hr, hcold⟩ := hrun
  exact ⟨q, hq, r, hr, ((entries_backed Recovery.empty_sound hq _ r hr).2.2.2.2 (.inl hcold)).2⟩

/-- Whatever calls have run and in whatever order, once all of them are done every block has one
reference if it is in the index and none otherwise, no key is locked, and no segment is latched,
written to or on its way out. -/
theorem nothing_kept (hv : v.Sound)
    (hr : run (system p).next (Pool.start (v.start now)) es = some q) (hq : Quiet q) :
    let s := q.shared.dram
    let t := q.shared.disk
    (∀ i < s.next, (s.cells i).refcount =
      if s.index (s.cells i).ref.key = some (s.cells i).ref then 1 else 0) ∧
    (∀ k, s.locked k = false) ∧
    ∀ id, t.inflight id = false ∧ t.writing id = 0 ∧ ∀ g, t.segs id = some g → g.dying = false := by
  intro s t
  obtain ⟨hdram, hdisk⟩ := (ok_of_run hv hr).quiet hq
  refine ⟨fun i hi => ?_, fun k => ?_, fun id => ⟨?_, hdisk.writing id, fun g hg => ?_⟩⟩
  · have hid : (s.cells i).ref.id = i := hdram.ids i hi
    have hcount :=
      hdram.counted (s.cells i).ref ⟨by rwa [hid], congrArg (fun j => (s.cells j).ref) hid⟩
    rwa [hid] at hcount
  · rw [← Bool.not_eq_true, hdram.locked]
    rintro ⟨r, h | h⟩ <;> exact Multiset.notMem_zero _ h
  · have hlatch : 0 = if t.inflight id then 1 else 0 := hdisk.latched id
    grind
  · rw [← Bool.not_eq_true]
    intro hdying
    obtain ⟨flip, swept, h⟩ := hdisk.dying id g hg hdying
    exact Multiset.notMem_zero _ h

theorem nothing_kept_retired :
    ∃ q ∈ after small ObjectGC.retired, Quiet q ∧ q.shared.disk.inflight 0 = false := by
  have hrun : ∃ q ∈ after small ObjectGC.retired,
      Quiet q := by
    decide +kernel
  obtain ⟨q, hq, hquiet⟩ := hrun
  exact ⟨q, hq, hquiet, ((nothing_kept Recovery.empty_sound hq hquiet).2.2 0).1⟩

end KVStash.Tiered.AtRest
