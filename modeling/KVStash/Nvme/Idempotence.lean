/- GID: KVStash/Nvme/Idempotence
   digest: A second recovery finds what the first one found, when each tail it sealed had room for
     its seal. -/

import KVStash.Nvme.Recovery

set_option autoImplicit false

namespace KVStash.Nvme

open Foundation.Bytes List

/-- The good records of a tail end below 4 GiB and leave room for their own entry table and the
trailer chunk. -/
def TailFits (dg : Digests) (maxBlob : UInt32) (f : File) : Prop :=
  (scanRun dg maxBlob f).off < 2 ^ 32 ∧
    SealFits f.size (scanRun dg maxBlob f).off (scanRun dg maxBlob f).recovered.length

/-- Recovery scans the file, finds a record, and writes a seal behind it. -/
structure Resealed (dg : Digests) (p : Params) (ck : Option Ckpt) (sealOk : Bool) (id : UInt32)
    (f : File) : Prop where
  whole : partialCreate p.maxBlobLen f.size = false
  untrusted : trustedRows ck id = none
  unsealed : readSeal dg f f.size id p.maxBlobLen = none
  found : (scanTail dg p.maxBlobLen f).1 ≠ []
  written : sealOk = true

/-- Every file of the directory that recovery seals has the room for it. -/
def Dir.RoomForSeals (dg : Digests) (p : Params) (sealOk : UInt32 → Bool) (d : Dir) : Prop :=
  ∀ s ∈ d.segs, Resealed dg p (loadNewestCkpt dg d.ckpts) (sealOk s.1) s.1 s.2 →
    TailFits dg p.maxBlobLen s.2

section Tail

variable {dg : Digests} {p : Params} {f : File} {limit : ℕ}

theorem Chain.within {maxBlob : UInt32} {off e : ℕ} {hs : List RecordHeader}
    (hc : Chain dg maxBlob f limit off hs e) (halign : off % recordAlign = 0) (he : e < 2 ^ 32) :
    ∀ x ∈ entriesFrom off hs, x.within maxBlob e = true := by
  induction hc with
  | nil => simp [entriesFrom]
  | @cons off h hs e head rest ih =>
    have hle := rest.length_le
    have hoff : (UInt32.ofNat off).toNat = off :=
      UInt32.toNat_ofNat_of_lt' (lt_of_le_of_lt (by omega) he)
    have hmod := recordSpan_mod h.len
    intro x hx
    rcases mem_cons.mp hx with rfl | hx
    · have h1 : h.len ≤ maxBlob := head.len_le
      simp only [FooterEntry.within, RecordHeader.entryAt, hoff, Bool.and_eq_true,
        decide_eq_true_eq]
      exact ⟨⟨decide_eq_true h1, halign⟩, hle⟩
    · exact ih (by rw [Nat.add_mod, halign, hmod]; rfl) he x hx

theorem Chain.count_le {maxBlob : UInt32} {off e : ℕ} {hs : List RecordHeader}
    (hc : Chain dg maxBlob f limit off hs e) : off + (entriesFrom off hs).length ≤ e := by
  induction hc with
  | nil => exact le_rfl
  | @cons off h hs e head rest ih =>
    have hspan := align_le_span h.len
    rw [entriesFrom, length_cons]
    unfold recordAlign at hspan
    omega

/-- The last record ends where the chain does, or some record crosses the 32-bit offsets. -/
theorem Chain.reaches {maxBlob : UInt32} {off e : ℕ} {hs : List RecordHeader}
    (hc : Chain dg maxBlob f limit off hs e) (hoff : off < 2 ^ 32) (hne : hs ≠ []) :
    ∃ x ∈ entriesFrom off hs, min e (2 ^ 32) ≤ x.off.toNat + recordSpan x.len := by
  induction hc with
  | nil => exact absurd rfl hne
  | @cons off h hs e head rest ih =>
    have hhead : (h.entryAt off).off.toNat = off := UInt32.toNat_ofNat_of_lt' hoff
    by_cases hlast : hs = [] ∨ 2 ^ 32 ≤ off + recordSpan h.len
    · refine ⟨_, mem_cons_self, ?_⟩
      rw [hhead]
      show min e (2 ^ 32) ≤ off + recordSpan h.len
      rcases hlast with rfl | hlast
      · cases rest
        exact min_le_left _ _
      · exact (min_le_right _ _).trans hlast
    · rw [not_or, Nat.not_le] at hlast
      obtain ⟨x, hx, hreach⟩ := ih hlast.2 hlast.1
      exact ⟨x, mem_cons_of_mem _ hx, hreach⟩

private theorem align_le_of_whole {maxBlob : UInt32} {size : ℕ}
    (h : partialCreate maxBlob size = false) : recordAlign ≤ size := by
  simp only [partialCreate, Bool.or_eq_false_iff, decide_eq_false_iff_not, Nat.not_lt] at h
  have := h.2
  unfold minSegmentBytes at this
  omega

/-- The file that recovery leaves behind for a tail. -/
def resealed (dg : Digests) (p : Params) (id : UInt32) (f : File) : File :=
  writeSeal dg f f.size id (scanTail dg p.maxBlobLen f).2.1 (scanTail dg p.maxBlobLen f).1

theorem readSeal_resealed {id : UInt32} (hpart : partialCreate p.maxBlobLen f.size = false)
    (hfits : TailFits dg p.maxBlobLen f) :
    (resealed dg p id f).size = f.size ∧
      readSeal dg (resealed dg p id f) f.size id p.maxBlobLen =
        some (sealTrailer dg id (scanTail dg p.maxBlobLen f).2.1 (scanTail dg p.maxBlobLen f).1,
          (scanTail dg p.maxBlobLen f).1) := by
  obtain ⟨hlt, hroom⟩ := hfits
  obtain ⟨hs, hchain, -, hrec⟩ := scanRun_chain dg p (align_le_of_whole hpart)
  have hend : (scanTail dg p.maxBlobLen f).2.1.toNat = (scanRun dg p.maxBlobLen f).off := by
    rw [scanTail_dataEnd, UInt32.toNat_ofNat_of_lt' hlt]
  have hroom' : SealFits f.size (scanTail dg p.maxBlobLen f).2.1.toNat
      (scanTail dg p.maxBlobLen f).1.length := by
    rwa [hend, scanTail_entries]
  have hcount : (scanTail dg p.maxBlobLen f).1.length < 2 ^ 32 := by
    rw [scanTail_entries, hrec]
    have := hchain.count_le
    omega
  refine ⟨size_writeSeal dg hroom', readSeal_writeSeal dg hroom' hcount ?_⟩
  intro e he
  rw [scanTail_entries, hrec] at he
  rw [hend]
  exact hchain.within rfl hlt e he

/-- A tail that reads back through its new footer had the room for it. -/
theorem tailFits_of_readSeal {id : UInt32} {tr : Trailer}
    (hpart : partialCreate p.maxBlobLen f.size = false)
    (hfound : (scanTail dg p.maxBlobLen f).1 ≠ [])
    (hread : readSeal dg (resealed dg p id f) (resealed dg p id f).size id p.maxBlobLen =
      some (tr, (scanTail dg p.maxBlobLen f).1)) : TailFits dg p.maxBlobLen f := by
  obtain ⟨-, hroom, hwithin⟩ := readSeal_room hread
  have halign := align_le_of_whole hpart
  obtain ⟨hs, hchain, -, hrec⟩ := scanRun_chain dg p halign
  rw [scanTail_entries] at hfound hroom hwithin
  obtain ⟨x, hx, hreach⟩ := hchain.reaches (by decide) (by rintro rfl; exact hfound hrec)
  -- the record that ends last is in bounds of what the trailer says
  have hbound := hwithin x (hrec ▸ hx)
  simp only [FooterEntry.within, Bool.and_eq_true, decide_eq_true_eq] at hbound
  have hdata := tr.dataEnd.toNat_lt
  have hlt : (scanRun dg p.maxBlobLen f).off < 2 ^ 32 := by omega
  refine ⟨hlt, ?_⟩
  have hsize : (resealed dg p id f).size ≤ max f.size ((scanRun dg p.maxBlobLen f).off +
      roundUpAlign ((scanRun dg p.maxBlobLen f).recovered.length * footerEntrySz)) := by
    rw [resealed, writeSeal, scanTail_entries, scanTail_dataEnd, writeTrailer, File.writeAt,
      length_trailerChunk, writeTable, UInt32.toNat_ofNat_of_lt' hlt, ← length_encodeEntries]
    split
    · simp only [File.writeAt]
      omega
    · dsimp only
      omega
  have hpos : 0 < recordAlign := by decide
  unfold SealFits at hroom ⊢
  omega

theorem recoverSegment_again {ck : Option Ckpt} {sealOk sealOk' : Bool} {id : UInt32} {k : Kept}
    (hkept : (recoverSegment dg p ck sealOk id f).kept = some k)
    (hfits : Resealed dg p ck sealOk id f → TailFits dg p.maxBlobLen f) :
    (recoverSegment dg p ck sealOk' id k.file).kept = some k := by
  cases hpart : partialCreate p.maxBlobLen f.size with
  | true =>
    rw [recoverSegment_of_cut hpart] at hkept
    cases hkept
  | false =>
    cases htrust : trustedRows ck id with
    | some rows =>
      rw [recoverSegment_of_trusted hpart htrust] at hkept
      obtain rfl := Option.some.inj hkept
      rw [recoverSegment_of_trusted hpart htrust]
    | none =>
      cases hseal : readSeal dg f f.size id p.maxBlobLen with
      | some found =>
        rw [recoverSegment_of_sealed hpart htrust hseal] at hkept
        obtain rfl := Option.some.inj hkept
        rw [recoverSegment_of_sealed hpart htrust hseal]
      | none =>
        rw [recoverSegment_of_tail hpart htrust hseal] at hkept
        obtain ⟨hfound, hok, rfl⟩ := recoverTail_kept hkept
        obtain ⟨hsize, hread⟩ :=
          @readSeal_resealed dg p f id hpart (hfits ⟨hpart, htrust, hseal, hfound, hok⟩)
        change (recoverSegment dg p ck sealOk' id (resealed dg p id f)).kept =
          some ⟨resealed dg p id f, _, _, _⟩
        rw [← hsize] at hpart hread ⊢
        rw [recoverSegment_of_sealed hpart htrust hread, sealTrailer]

end Tail

/-! ## The whole directory -/

theorem keptSegs_again {dg : Digests} {p : Params} {ck : Option Ckpt}
    {sealOk sealOk' : UInt32 → Bool} {segs : List (UInt32 × File)}
    (hroom : ∀ s ∈ segs, Resealed dg p ck (sealOk s.1) s.1 s.2 → TailFits dg p.maxBlobLen s.2) :
    keptSegs dg p ck sealOk' ((keptSegs dg p ck sealOk segs).map fun s => (s.1, s.2.file)) =
      keptSegs dg p ck sealOk segs := by
  induction segs with
  | nil => simp only [keptSegs_nil, map_nil]
  | cons s segs ih =>
    have hrest := ih fun x hx => hroom x (mem_cons_of_mem _ hx)
    cases hkept : (recoverSegment dg p ck (sealOk s.1) s.1 s.2).kept with
    | none => rw [keptSegs_cons_none hkept, hrest]
    | some k =>
      have hagain : (recoverSegment dg p ck (sealOk' s.1) s.1 k.file).kept = some k :=
        recoverSegment_again hkept (hroom s mem_cons_self)
      rw [keptSegs_cons_some hkept, map_cons, keptSegs_cons_some hagain, hrest]

/-- Recovery is idempotent exactly on a directory whose tails have room for the seals that it
writes: the second run finds the same segments and entries, with the same winner for each key, and
each tail that the first run sealed reads back through its footer to what the scan produced. -/
theorem recovery_idempotent (dg : Digests) (p : Params) (sealOk sealOk' : UInt32 → Bool) (d : Dir) :
    (let first := recoverDir dg p sealOk d
    let second := recoverDir dg p sealOk' first.dir
    second.entries = first.entries ∧ second.segs = first.segs ∧
      ∀ id f k, (id, f) ∈ d.segs → (id, k) ∈ first.segs →
        trustedRows (loadNewestCkpt dg d.ckpts) id = none →
        readSeal dg f f.size id p.maxBlobLen = none →
        ∃ tr, readSeal dg k.file k.file.size id p.maxBlobLen =
        some (tr, (scanTail dg p.maxBlobLen f).1)) ↔
    d.RoomForSeals dg p sealOk := by
  constructor
  · rintro ⟨-, -, hback⟩ ⟨id, f⟩ hf ⟨hpart, htrust, hseal, hfound, hok⟩
    have hkept := @recoverTail_of_record dg p id f hfound
    rw [← hok, ← recoverSegment_of_tail hpart htrust hseal] at hkept
    obtain ⟨tr, hread⟩ := hback id f _ hf (mem_keptSegs.mpr ⟨f, hf, hkept⟩) htrust hseal
    exact tailFits_of_readSeal hpart hfound hread
  · intro hroom
    have hsegs :
        keptSegs dg p (loadNewestCkpt dg d.ckpts) sealOk' (recoverDir dg p sealOk d).dir.segs =
        keptSegs dg p (loadNewestCkpt dg d.ckpts) sealOk d.segs := keptSegs_again hroom
    refine ⟨congrArg (fun kept => (keptEntries kept).foldl mergeEntry []) hsegs, hsegs, ?_⟩
    intro id f k hf hk htrust hseal
    obtain ⟨g, hg, hkept⟩ := mem_keptSegs.mp hk
    obtain rfl := ascending_unique d.ascending hf hg
    cases hpart : partialCreate p.maxBlobLen f.size with
    | true =>
      rw [recoverSegment_of_cut hpart] at hkept
      cases hkept
    | false =>
      rw [recoverSegment_of_tail hpart htrust hseal] at hkept
      obtain ⟨hfound, hok, rfl⟩ := recoverTail_kept hkept
      have hfits := hroom _ hf ⟨hpart, htrust, hseal, hfound, hok⟩
      obtain ⟨hsize, hread⟩ := @readSeal_resealed dg p f id hpart hfits
      rw [← hsize] at hread
      exact ⟨_, hread⟩

def Dir.single (f : File) : Dir where
  segs := [(0, f)]
  ckpts := []
  tmps := []
  ascending := pairwise_singleton _ _
  newestFirst := no_ckpts

def AppendReq.hashed (dg : Digests) : AppendReq := ⟨7, 11, dg.xxh3 [1], [1], 0⟩

/-- A segment file whose records reach up to the trailer chunk. -/
def File.full (dg : Digests) : File :=
  ((replicate 3 [AppendReq.hashed dg]).foldl Tail.append ⟨.zeros 16384, 0, []⟩).file

/-- Three records that reach up to the trailer chunk are all recovered, but the seal that recovery
then writes puts the trailer over the table, and the file reads as unsealed. -/
theorem sealed_tail_unreadable :
    ∃ k, (recoverDir .zero Params.tiny (fun _ => true) (Dir.single (File.full .zero))).segs =
      [(0, k)] ∧
      k.entries.length = 3 ∧ readSeal .zero k.file k.file.size 0 Params.tiny.maxBlobLen = none := by
  have heval : (recoverSegment .zero Params.tiny none true 0 (File.full .zero)).kept.map
      (fun k =>
        (k.entries.length, (readSeal .zero k.file k.file.size 0 Params.tiny.maxBlobLen).isNone)) =
        some (3, true) := by
    decide +kernel
  obtain ⟨k, hkept, hk⟩ := Option.map_eq_some_iff.mp heval
  obtain ⟨hlen, hnone⟩ := Prod.mk.inj hk
  have hone :=
    @keptSegs_cons_some .zero Params.tiny none (fun _ => true) (0, File.full .zero) [] k hkept
  rw [keptSegs_nil] at hone
  exact ⟨k, (recoverDir_segs ..).trans hone, hlen, Option.isNone_iff_eq_none.mp hnone⟩

end KVStash.Nvme
