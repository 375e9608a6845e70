/- GID: KVStash/Nvme/Committed
   digest: Which sealed segments and entries survive an open, in every directory that earlier runs
     leave behind. -/

import KVStash.Nvme.Restart

set_option autoImplicit false

namespace KVStash.Nvme

open Foundation Foundation.Bytes Foundation.Run List

/-! ### Directories of earlier runs -/

/-- The directories that runs of the volume leave behind, each under a configuration of its own and
ended after any operation: no number wraps, and the blocks appended carry their own digests and no
namespace id that spells the magic of a record. -/
inductive Produced (dg : Digests) : Dir → Prop
  | blank : Produced dg .blank
  | next {d : Dir} {p : Params} {sealOk : UInt32 → Bool} {ops : List Lifetime.Op} {s : Lifetime}
      (before : Produced dg d) (ids : (Lifetime.recovered dg p sealOk d).nextID.toNat + 1 < 2 ^ 32)
      (allowed : Along (Lifetime.exec dg p) (fun s op => op.Allowed (AppendReq.Admitted dg) s)
        (Lifetime.openVolume dg p sealOk d) ops)
      (ran : run (Lifetime.exec dg p) (Lifetime.openVolume dg p sealOk d) ops = some s) :
      Produced dg s.dir

section Retained

variable {dg : Digests} {p : Params} {d : Dir} {sealOk : UInt32 → Bool} {id : UInt32} {f : File}
  {tr : Trailer}
  {es : List FooterEntry} {own : AppendReq → Prop}

theorem Produced.sound (h : Produced dg d) : d.Sound (AppendReq.Admitted dg) dg := by
  induction h with
  | blank => exact Dir.sound_of_no_file _ _ rfl fun ck hck => by cases hck
  | @next d p sealOk ops s _ hids hops hrun ih =>
    have hopen := (ih.recovered (fun _ hr => hr) sealOk).openActive rfl hids
    exact (run_invariant (fun _ _ _ hs hop hx => hs.exec hop hx) hopen hops hrun).dir fun _ hr => hr

/-! ### What recovery keeps of a sealed segment -/

/-- The payload cap in force admits the entry, and so does the newest checkpoint, if it vouches for
the segment. -/
def Dir.Admits (dg : Digests) (p : Params) (d : Dir) (id : UInt32) (e : FooterEntry) : Prop :=
  e.len ≤ p.maxBlobLen ∧ ∀ rows, trustedRows (loadNewestCkpt dg d.ckpts) id = some rows → e ∈ rows

/-- A segment that is kept has a later entry of the key. -/
def Dir.Supersedes (dg : Digests) (p : Params) (sealOk : UInt32 → Bool) (d : Dir) (id : UInt32)
    (e : FooterEntry) : Prop :=
  ∃ s ∈ keptSegs dg p (loadNewestCkpt dg d.ckpts) sealOk d.segs, ∃ a ∈ s.2.entries,
    a.ns = e.ns ∧ a.key = e.key ∧ (e.recovered id).place < (a.recovered s.1).place

private theorem within_iff {e : FooterEntry} {cap : UInt32} {m n : ℕ}
    (he : e.within anyLen m = true) (h : m ≤ n) : e.within cap n = true ↔ e.len ≤ cap := by
  simp only [FooterEntry.within, Bool.and_eq_true, decide_eq_true_eq] at he ⊢
  exact ⟨fun hin => hin.1.1, fun hlen => ⟨⟨hlen, he.1.2⟩, he.2.trans h⟩⟩

private theorem recovered_inj {a e : FooterEntry} {i j : UInt32}
    (h : a.recovered i = e.recovered j) : i = j ∧ a = e := by
  cases a
  cases e
  simp only [FooterEntry.recovered, RecoveredEntry.mk.injEq, Loc.mk.injEq] at h
  obtain ⟨rfl, rfl, ⟨rfl, rfl, rfl⟩, rfl⟩ := h
  exact ⟨rfl, rfl⟩

theorem Dir.Sound.kept_of_footer (h : d.Sound own dg) (hf : (id, f) ∈ d.segs)
    (hfoot : readFooter dg f f.size id = some (tr, es))
    (hpart : partialCreate p.maxBlobLen f.size = false) (sealOk : Bool) :
    ∃ k, (Nvme.recoverSegment dg p (loadNewestCkpt dg d.ckpts) sealOk id f).kept =
      some k ∧ k.file = f ∧
      ∀ e ∈ es, e ∈ k.entries ↔ d.Admits dg p id e := by
  have hlaid : ∀ e ∈ es, e.within anyLen tr.dataEnd.toNat = true := by
    rcases h.files id f hf with ⟨tr', es', hfoot', hback⟩ | ⟨rs, hfile⟩
    · obtain ⟨rfl, rfl⟩ := Prod.mk.inj (Option.some.inj (hfoot'.symm.trans hfoot))
      exact fun e he => (hback e he).2
    · rw [hfile.readFooter_eq_none] at hfoot
      cases hfoot
  have hroom := (readFooter_room hfoot).2
  unfold SealFits at hroom
  cases htrust : trustedRows (loadNewestCkpt dg d.ckpts) id with
  | some rows =>
    rw [recoverSegment_of_trusted hpart htrust]
    refine ⟨_, rfl, rfl, fun e he => ?_⟩
    rw [mem_filter, within_iff (hlaid e he) (by omega), Dir.Admits, htrust]
    exact ⟨fun hin => ⟨hin.2, fun r hr => Option.some.inj hr ▸ hin.1⟩,
      fun hin => ⟨hin.2 rows rfl, hin.1⟩⟩
  | none =>
    have hseal : readSeal dg f f.size id p.maxBlobLen =
        some (tr, es.filter (·.within p.maxBlobLen tr.dataEnd.toNat)) := by
      rw [readSeal, hfoot, Option.map_some]
    rw [recoverSegment_of_sealed hpart htrust hseal]
    refine ⟨_, rfl, rfl, fun e he => ?_⟩
    rw [mem_filter, within_iff (hlaid e he) le_rfl, Dir.Admits, htrust]
    exact ⟨fun hin => ⟨hin.2, fun r hr => by cases hr⟩, fun hin => ⟨he, hin.1⟩⟩

theorem mem_openVolume (h : d.Sound own dg) (hf : (id, f) ∈ d.segs) {g : File} :
    (id, g) ∈ (Lifetime.openVolume dg p sealOk d).dir.segs ↔
      (id, g) ∈ (recoverDir dg p sealOk d).dir.segs := by
  have hne : id ≠ (Lifetime.recovered dg p sealOk d).nextID := by
    have hlt :=
      lt_nextSegID (loadNewestCkpt dg d.ckpts) (pairwise_map.mpr d.ascending) (fun i hi => by
      obtain ⟨⟨j, g⟩, hg, rfl⟩ := mem_map.mp hi
      exact h.ids j g hg) (mem_map_of_mem hf)
    exact fun heq => UInt32.lt_irrefl _ (heq ▸ hlt)
  refine Listing.mem_put.trans ⟨fun hput => ?_, fun hmem => .inr ⟨hne, hmem⟩⟩
  rcases hput with ⟨heq, -⟩ | ⟨-, hmem⟩
  · exact absurd heq hne
  · exact hmem

end Retained

/-! ### A sealed segment under two configurations -/

def Params.wide : Params where
  segmentBytes := 24576
  maxBlobLen := 8192
  syncEveryBytes := 8 * 2 ^ 20
  ckptEverySegs := 1
  readWorkers := 1
  min_le := by decide
  aligned := by decide
  lt := by decide

/-- A run appends one record, seals its segment and ends. -/
def oneSealed : Option Lifetime :=
  run (Lifetime.exec .zero Params.tiny)
    (Lifetime.openVolume .zero Params.tiny (fun _ => true) .blank)
    [.flush [AppendReq.hashed .zero], .writeTable, .writeTrailer]

private theorem produced_sealed :
    ∃ d f tr, Produced .zero d ∧ d.segs = [(0, f)] ∧ d.ckpts = [] ∧ f.size = 16384 ∧
    readFooter .zero f f.size 0 = some (tr, [(AppendReq.hashed .zero).entry 0]) := by
  have hrows :
      oneSealed.map (fun s => (s.dir.segs.map fun r => (r.1, r.2.size), s.dir.ckpts.isEmpty)) =
      some ([(0, 16384)], true) := by
    decide +kernel
  have hfoot : (oneSealed.bind fun s => s.dir.segs.head?.bind fun r =>
      (readFooter .zero r.2 r.2.size 0).map Prod.snd) =
        some [(AppendReq.hashed .zero).entry 0] := by
    decide +kernel
  have hadmitted : ∀ r ∈ [AppendReq.hashed .zero], r.Admitted .zero := by
    intro r hr
    obtain rfl := mem_singleton.mp hr
    exact ⟨show 1 ≤ anyLen.toNat by decide, rfl, show (7 : UInt32).toNat ≠ recordMagic by decide⟩
  obtain ⟨s, hrun, hs⟩ := Option.map_eq_some_iff.mp hrows
  obtain ⟨hsegs, hckpts⟩ := Prod.mk.inj hs
  obtain ⟨⟨id, f⟩, hsegs, hrow⟩ := map_eq_singleton_iff.mp hsegs
  obtain ⟨rfl, hsize⟩ := Prod.mk.inj hrow
  rw [hrun, Option.bind_some, hsegs, head?_cons, Option.bind_some] at hfoot
  obtain ⟨⟨tr, es⟩, hread, rfl⟩ := Option.map_eq_some_iff.mp hfoot
  refine ⟨s.dir, f, tr, .next (p := Params.tiny) (s := s) .blank ?_ ?_ hrun, hsegs,
    isEmpty_iff.mp hckpts, hsize, hread⟩
  · decide
  · exact ⟨hadmitted, fun _ _ => ⟨trivial, fun _ _ => ⟨trivial, fun _ _ => trivial⟩⟩⟩

end KVStash.Nvme
