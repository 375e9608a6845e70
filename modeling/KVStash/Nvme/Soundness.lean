/- GID: KVStash/Nvme/Soundness
   digest: Every operation on an open volume keeps its files, its table and its checkpoints in step.
     -/

import KVStash.Foundation.Run
import KVStash.Nvme.Provenance
import KVStash.Nvme.Retention

set_option autoImplicit false

namespace KVStash.Nvme

open Foundation Foundation.Bytes Foundation.Storage Foundation.Run Listing Option List

/-! ### The newest checkpoint -/

section Newest

variable {dg : Digests} {l : List (UInt64 × List UInt8)}

theorem loadNewestCkpt_eq_some (hl : l.Pairwise fun a b => b.1 < a.1) {ck : Ckpt}
    (h : loadNewestCkpt dg l = some ck) :
    (∃ b, (ck.seq, b) ∈ l ∧ readCkptFile dg b = .ok (ck.entries, ck.maxSealed)) ∧
      ∀ q b v, (q, b) ∈ l → readCkptFile dg b = .ok v → q ≤ ck.seq := by
  induction l with
  | nil => cases h
  | cons x l ih =>
    obtain ⟨hx, hrest⟩ := pairwise_cons.mp hl
    obtain ⟨seq, buf⟩ := x
    rw [loadNewestCkpt] at h
    split at h
    · rename_i entries maxSealed hread
      cases h
      refine ⟨⟨buf, mem_cons_self, hread⟩, fun q b v hq _ => ?_⟩
      rcases mem_cons.mp hq with he | hq
      · cases he
        exact UInt64.le_refl _
      · exact UInt64.le_of_lt (hx _ hq)
    · rename_i err hread
      obtain ⟨⟨b, hb, hok⟩, hnewest⟩ := ih hrest h
      refine ⟨⟨b, mem_cons_of_mem _ hb, hok⟩, fun q b v hq hv => ?_⟩
      rcases mem_cons.mp hq with he | hq
      · cases he
        rw [hread] at hv
        cases hv
      · exact hnewest q b v hq hv

theorem loadNewestCkpt_eq_none (h : loadNewestCkpt dg l = none) {q : UInt64} {b : List UInt8}
    (hq : (q, b) ∈ l) (v : List CkptEntry × UInt32) : readCkptFile dg b ≠ .ok v := by
  induction l with
  | nil => cases hq
  | cons x l ih =>
    obtain ⟨seq, buf⟩ := x
    rw [loadNewestCkpt] at h
    split at h
    · cases h
    rename_i err hread
    rcases mem_cons.mp hq with he | hq
    · cases he
      rw [hread]
      exact fun hv => nomatch hv
    · exact ih h hq

theorem loadNewestCkpt_of_newest (hl : l.Pairwise fun a b => b.1 < a.1) {q : UInt64}
    {b : List UInt8} {v : List CkptEntry × UInt32} (hq : (q, b) ∈ l)
    (hread : readCkptFile dg b = .ok v)
    (hnewest : ∀ q' b' v', (q', b') ∈ l → readCkptFile dg b' = .ok v' → q' ≤ q) :
    loadNewestCkpt dg l = some ⟨v.1, v.2, q⟩ := by
  cases hload : loadNewestCkpt dg l with
  | none => exact absurd hread (loadNewestCkpt_eq_none hload hq v)
  | some ck =>
    obtain ⟨⟨b', hb', hread'⟩, hmax⟩ := loadNewestCkpt_eq_some hl hload
    have hseq : ck.seq = q :=
      UInt64.le_antisymm (hnewest _ _ _ hb' hread') (hmax _ _ _ hq hread)
    have hsame : b' = b :=
      unique (l := (⟨l, hl⟩ : Listing UInt64 (List UInt8) (· > ·))) (hseq ▸ hb') hq
    subst hsame
    rw [hread] at hread'
    cases hread'
    cases ck
    cases hseq
    rfl

end Newest

/-! ### Sound directories and sound volumes -/

section Sound

variable (own : AppendReq → Prop) (dg : Digests) (p : Params)

/-- A file is sealed over records of our appends, or holds some and no trailer. -/
def FileOk (id : UInt32) (f : File) : Prop := SealedFile own dg id f ∨ ∃ rs, Unsealed own f rs

/-- A directory all of whose files hold our appends, where what the checkpoint lists for a file
that is present is in that file. -/
structure Dir.Sound (d : Dir) : Prop where
  files : ∀ id f, (id, f) ∈ d.segs → FileOk own dg id f
  ids : ∀ id f, (id, f) ∈ d.segs → id.toNat + 1 < 2 ^ 32
  ckpt : ∀ ck, loadNewestCkpt dg d.ckpts = some ck →
    ck.maxSealed.toNat + 1 < 2 ^ 32 ∧ ∀ row ∈ ck.entries, row.segID ≤ ck.maxSealed ∧
      ∀ f, (row.segID, f) ∈ d.segs → SealedFile own dg row.segID f ∧ Backs own f row.footer

theorem Dir.sound_of_no_file {d : Dir} (h : d.segs = [])
    (hck : ∀ ck, loadNewestCkpt dg d.ckpts = some ck →
      ck.maxSealed.toNat + 1 < 2 ^ 32 ∧ ∀ row ∈ ck.entries, row.segID ≤ ck.maxSealed) :
    d.Sound own dg where
  files id f hf := by rw [h] at hf; cases hf
  ids id f hf := by rw [h] at hf; cases hf
  ckpt ck hload := by
    obtain ⟨hmax, hrows⟩ := hck ck hload
    refine ⟨hmax, fun row hrow => ⟨hrows row hrow, fun f hf => ?_⟩⟩
    rw [h] at hf
    cases hf

/-- Rows of a checkpoint under the boundary `cap`, as long as the volume is open: an uploaded copy
may come back in the place of a file. -/
structure Noted (s : Lifetime) (rows : List CkptEntry) (cap : UInt32) : Prop where
  below : cap < s.nextID
  bounded : ∀ row ∈ rows, row.segID ≤ cap
  passive : ∀ row ∈ rows, s.active ≠ some row.segID
  held : ∀ row ∈ rows, ∀ f, (row.segID, f) ∈ s.files.rows ∨ (row.segID, f) ∈ s.objects.rows →
    SealedFile own dg row.segID f ∧ Backs own f row.footer

/-- The active segment: its records with zeros behind them, and the table of its seal once it is
written. -/
def ActiveOk (s : Lifetime) (id : UInt32) : Prop :=
  ∃ g rs, Growing own g rs ∧ g.size = p.segmentBytes ∧
    (id, ⟨p.segmentBytes, false, UInt32.ofNat (extent rs), placed 0 rs, false⟩) ∈ s.segs.rows ∧
    (id, if s.tabled then writeTable g (UInt32.ofNat (extent rs)) (placed 0 rs)
      else g) ∈ s.files.rows

structure Lifetime.Sound (s : Lifetime) : Prop where
  files : ∀ id f, (id, f) ∈ s.files.rows → s.active ≠ some id → FileOk own dg id f
  active : ∀ id, s.active = some id → ActiveOk own p s id
  table : ∀ id seg, (id, seg) ∈ s.segs.rows → s.active ≠ some id → seg.isSealed = true ∧
    ∃ f, (id, f) ∈ s.files.rows ∧ SealedFile own dg id f ∧ ∀ e ∈ seg.entries, Backs own f e
  objects : ∀ id f, (id, f) ∈ s.objects.rows → SealedFile own dg id f
  copies : ∀ id f g, (id, f) ∈ s.files.rows → (id, g) ∈ s.objects.rows → s.active ≠ some id ∧ f = g
  minted : ∀ id f, (id, f) ∈ s.files.rows ∨ (id, f) ∈ s.objects.rows → id < s.nextID
  loaded : ∀ ck, loadNewestCkpt dg s.ckpts.rows = some ck → Noted own dg s ck.entries ck.maxSealed
  pending : ∀ n, s.pending = some n → Noted own dg s n.entries n.maxSealed ∧ s.ckptSeq < n.seq
  seqs : ∀ q b v, (q, b) ∈ s.ckpts.rows → readCkptFile dg b = .ok v → q ≤ s.ckptSeq

/-- What an operation needs from its surroundings: the batch holds our appends, and no number
wraps. -/
def Lifetime.Op.Allowed (s : Lifetime) : Lifetime.Op → Prop
  | .flush rs => ∀ r ∈ rs, own r
  | .openActive | .cutCreate _ => s.nextID.toNat + 1 < 2 ^ 32
  | .ckptSnapshot => s.ckptSeq.toNat + 1 < 2 ^ 64
  | _ => True

end Sound

section Mono

variable {own own' : AppendReq → Prop} {dg : Digests} {p : Params} (hle : ∀ r, own r → own' r)
  {s : Lifetime}
include hle

theorem FileOk.mono {id : UInt32} {f : File} (h : FileOk own dg id f) : FileOk own' dg id f := by
  rcases h with h | ⟨rs, h⟩
  · exact .inl (h.mono hle)
  · exact .inr ⟨rs, h.mono hle⟩

theorem Dir.Sound.mono {d : Dir} (h : d.Sound own dg) : d.Sound own' dg where
  files id f hf := (h.files id f hf).mono hle
  ids := h.ids
  ckpt ck hck := by
    obtain ⟨hmax, hrows⟩ := h.ckpt ck hck
    refine ⟨hmax, fun row hrow => ⟨(hrows row hrow).1, fun f hf => ?_⟩⟩
    obtain ⟨hfile, hback⟩ := (hrows row hrow).2 f hf
    exact ⟨hfile.mono hle, hback.mono hle⟩

theorem Noted.mono {rows : List CkptEntry} {cap : UInt32} (h : Noted own dg s rows cap) :
    Noted own' dg s rows cap :=
  { h with held := fun row hrow f hf =>
      ⟨(h.held row hrow f hf).1.mono hle, (h.held row hrow f hf).2.mono hle⟩ }

theorem ActiveOk.mono {id : UInt32} (h : ActiveOk own p s id) : ActiveOk own' p s id := by
  obtain ⟨g, rs, hg, hsize, hseg, hfile⟩ := h
  exact ⟨g, rs, hg.mono hle, hsize, hseg, hfile⟩

theorem Lifetime.Sound.mono (h : s.Sound own dg p) : s.Sound own' dg p where
  files id f hf hact := (h.files id f hf hact).mono hle
  active id hid := (h.active id hid).mono hle
  table id seg hseg hact := by
    obtain ⟨hsealed, f, hf, hfile, hback⟩ := h.table id seg hseg hact
    exact ⟨hsealed, f, hf, hfile.mono hle, fun e he => (hback e he).mono hle⟩
  objects id f hf := (h.objects id f hf).mono hle
  copies := h.copies
  minted := h.minted
  loaded ck hck := (h.loaded ck hck).mono hle
  pending n hn := ⟨(h.pending n hn).1.mono hle, (h.pending n hn).2⟩
  seqs := h.seqs

end Mono

/-! ### What one operation keeps -/

section Keeps

variable {own : AppendReq → Prop} {dg : Digests} {p : Params} {s s' : Lifetime} {id : UInt32}
  {seg seg' : Seg}
  {rows entries : List CkptEntry} {nowNanos seq below : UInt64}

/-- Below the next id, and but for the active segment, no other file appears. -/
structure Retains (s s' : Lifetime) : Prop where
  nextID : s.nextID ≤ s'.nextID
  active : ∀ id, id < s.nextID → s'.active = some id → s.active = some id
  files : ∀ id f, id < s.nextID → s.active ≠ some id →
    (id, f) ∈ s'.files.rows ∨ (id, f) ∈ s'.objects.rows → (id, f) ∈ s.files.rows ∨
    (id, f) ∈ s.objects.rows

theorem Noted.retains {cap : UInt32} (h : Noted own dg s rows cap)
    (hr : Retains s s') : Noted own dg s' rows cap := by
  have hlow : ∀ row ∈ rows, row.segID < s.nextID :=
    fun row hrow => UInt32.lt_of_le_of_lt (h.bounded row hrow) h.below
  refine ⟨UInt32.lt_of_lt_of_le h.below hr.nextID, h.bounded, ?_, ?_⟩
  · intro row hrow hact
    exact h.passive row hrow (hr.active _ (hlow row hrow) hact)
  · intro row hrow f hf
    exact h.held row hrow f (hr.files _ _ (hlow row hrow) (h.passive row hrow) hf)

/-- The checkpoints of a volume, as far as they are trusted or under way, survive an operation
that leaves them alone. -/
theorem Lifetime.Sound.notes (h : s.Sound own dg p) (hr : Retains s s') (hck : s'.ckpts = s.ckpts)
    (hpending : s'.pending = s.pending) (hseq : s'.ckptSeq = s.ckptSeq) :
    (∀ ck, loadNewestCkpt dg s'.ckpts.rows = some ck → Noted own dg s' ck.entries ck.maxSealed) ∧
      (∀ n, s'.pending = some n → Noted own dg s' n.entries n.maxSealed ∧ s'.ckptSeq < n.seq) ∧
      ∀ q b v, (q, b) ∈ s'.ckpts.rows → readCkptFile dg b = .ok v → q ≤ s'.ckptSeq := by
  rw [hck, hpending, hseq]
  exact ⟨fun ck hload => (h.loaded ck hload).retains hr,
    fun n hn => ⟨(h.pending n hn).1.retains hr, (h.pending n hn).2⟩, h.seqs⟩

theorem ActiveOk.mem (h : ActiveOk own p s id) :
    (∃ seg, (id, seg) ∈ s.segs.rows ∧ seg.isSealed = false ∧ seg.dying = false) ∧
      ∃ f, (id, f) ∈ s.files.rows := by
  obtain ⟨g, rs, -, -, hseg, hfile⟩ := h
  exact ⟨⟨_, hseg, rfl, rfl⟩, _, hfile⟩

theorem Lifetime.Sound.not_active (h : s.Sound own dg p) (hs : (id, seg) ∈ s.segs.rows)
    (hseg : seg.isSealed = true ∨ seg.dying = true) : s.active ≠ some id := by
  intro hact
  obtain ⟨⟨seg', hs', hsealed, hdying⟩, -⟩ := (h.active id hact).mem
  obtain rfl := unique hs hs'
  rcases hseg with hseg | hseg
  · exact absurd (hseg.symm.trans hsealed) (by decide)
  · exact absurd (hseg.symm.trans hdying) (by decide)

theorem Lifetime.Sound.onActive (h : s.Sound own dg p) (hact : s.active = some id)
    (hact' : s'.active = some id)
    (hsegs : ∀ i x, i ≠ id → (i, x) ∈ s'.segs.rows → (i, x) ∈ s.segs.rows)
    (hfiles : ∀ i f, i ≠ id → ((i, f) ∈ s'.files.rows ↔ (i, f) ∈ s.files.rows))
    (hobjects : s'.objects = s.objects) (hnext : s'.nextID = s.nextID) (hck : s'.ckpts = s.ckpts)
    (hpending : s'.pending = s.pending) (hseq : s'.ckptSeq = s.ckptSeq)
    (hok : ActiveOk own p s' id) : s'.Sound own dg p := by
  have hother : ∀ i, s'.active ≠ some i → i ≠ id := by
    rintro i hi rfl
    exact hi hact'
  have hother' : ∀ i, i ≠ id → s.active ≠ some i := by
    intro i hi he
    exact hi (some.inj (he.symm.trans hact))
  have hr : Retains s s' := by
    refine ⟨hnext ▸ UInt32.le_refl _, fun i _ hi => hact.trans (hact'.symm.trans hi), ?_⟩
    rintro i f - hi (hf | hf)
    · exact .inl ((hfiles i f fun he => hi (he ▸ hact)).mp hf)
    · exact .inr (hobjects ▸ hf)
  obtain ⟨hloaded, hpend, hseqs⟩ := h.notes hr hck hpending hseq
  refine ⟨?_, ?_, ?_, ?_, ?_, ?_, hloaded, hpend, hseqs⟩
  · intro i f hf hi
    exact h.files i f ((hfiles i f (hother i hi)).mp hf) (hother' i (hother i hi))
  · intro i hi
    exact some.inj (hact'.symm.trans hi) ▸ hok
  · intro i seg hs hi
    obtain ⟨hsealed, f, hf, hrest⟩ :=
      h.table i seg (hsegs i seg (hother i hi) hs) (hother' i (hother i hi))
    exact ⟨hsealed, f, (hfiles i f (hother i hi)).mpr hf, hrest⟩
  · rw [hobjects]
    exact h.objects
  · intro i f g hf hg
    rw [hobjects] at hg
    by_cases hi : i = id
    · subst hi
      obtain ⟨-, f', hf'⟩ := (h.active i hact).mem
      exact absurd hact (h.copies i f' g hf' hg).1
    · have hsame := h.copies i f g ((hfiles i f hi).mp hf) hg
      rw [hact', ← hact]
      exact hsame
  · rw [hnext]
    rintro i f (hf | hf)
    · by_cases hi : i = id
      · obtain ⟨-, f', hf'⟩ := (h.active id hact).mem
        exact hi ▸ h.minted id f' (.inl hf')
      · exact h.minted i f (.inl ((hfiles i f hi).mp hf))
    · exact h.minted i f (.inr (hobjects ▸ hf))

theorem Lifetime.activeSeg_eq_some {f : File} (h : s.activeSeg = some (id, seg, f)) :
    s.active = some id ∧ (id, seg) ∈ s.segs.rows ∧ (id, f) ∈ s.files.rows := by
  unfold Lifetime.activeSeg at h
  simp only [Option.bind_eq_bind, Option.bind_eq_some_iff, Option.pure_def] at h
  obtain ⟨i, hi, seg', hseg, f', hf, heq⟩ := h
  cases heq
  exact ⟨hi, find_eq_some.mp hseg, find_eq_some.mp hf⟩

theorem Lifetime.Sound.activeSeg (h : s.Sound own dg p) {f : File}
    (hs : s.activeSeg = some (id, seg, f)) : s.active = some id ∧ ∃ g rs, Growing own g rs ∧
      g.size = p.segmentBytes ∧
        seg = ⟨p.segmentBytes, false, UInt32.ofNat (extent rs), placed 0 rs, false⟩ ∧
      f = if s.tabled then writeTable g (UInt32.ofNat (extent rs)) (placed 0 rs) else g := by
  obtain ⟨hact, hseg, hf⟩ := Lifetime.activeSeg_eq_some hs
  obtain ⟨g, rs, hg, hsize, hseg', hf'⟩ := h.active id hact
  exact ⟨hact, g, rs, hg, hsize, unique hseg hseg', unique hf hf'⟩

/-! #### The active segment -/

theorem Lifetime.fits_of_flush {rs : List AppendReq} (hx : s.exec dg p (.flush rs) = some s') :
    ∀ r ∈ rs, r.Fits p.maxBlobLen := by
  unfold Lifetime.exec at hx
  dsimp only at hx
  split at hx
  · cases hx
  split at hx
  · rename_i hguard
    exact hguard.2.1
  · cases hx

theorem Lifetime.Sound.flush (h : s.Sound own dg p) {rs : List AppendReq} (hown : ∀ r ∈ rs, own r)
    (hx : s.exec dg p (.flush rs) = some s') : s'.Sound own dg p := by
  unfold Lifetime.exec at hx
  dsimp only at hx
  split at hx
  · cases hx
  rename_i id seg f hs
  split at hx
  · rename_i hguard
    obtain ⟨htabled, hfits, hroom⟩ := hguard
    obtain ⟨hact, g, ps, hg, hsize, rfl, rfl⟩ := h.activeSeg hs
    have hopen : ¬s.tabled = true := by
      rw [htabled]
      exact Bool.false_ne_true
    have hfit := of_decide_eq_true hroom
    dsimp only at hfit
    rw [hg.holds.dataEnd, length_placed, ← hsize] at hfit
    obtain ⟨hend, hentries, hlen, hgrow⟩ := hg.append hown (fun r hr => (hfits r hr).any) hfit
    rw [htabled] at hx
    cases hx
    refine h.onActive hact hact ?_ ?_ rfl rfl rfl rfl rfl ?_
    · intro i x hi hx
      rcases mem_put.mp hx with ⟨he, -⟩ | ⟨-, hx⟩
      · exact absurd he hi
      · exact hx
    · intro i x hi
      refine mem_put.trans ⟨?_, fun hx => .inr ⟨hi, hx⟩⟩
      rintro (⟨he, -⟩ | ⟨-, hx⟩)
      · exact absurd he hi
      · exact hx
    · refine ⟨_, ps ++ rs, hgrow, hlen.trans hsize, ?_, ?_⟩
      · rw [← hend, ← hentries]
        exact mem_put.mpr (.inl ⟨rfl, rfl⟩)
      · refine mem_put.mpr (.inl ⟨rfl, ?_⟩)
        exact if_neg hopen
  · cases hx

theorem Lifetime.Sound.writeTable (h : s.Sound own dg p)
    (hx : s.exec dg p .writeTable = some s') : s'.Sound own dg p := by
  unfold Lifetime.exec at hx
  dsimp only at hx
  split at hx
  · cases hx
  rename_i id seg f hs
  split at hx
  · cases hx
  rename_i htabled
  obtain ⟨hact, g, ps, hg, hsize, rfl, rfl⟩ := h.activeSeg hs
  rw [if_neg htabled] at hx
  cases hx
  obtain ⟨-, hseg, -⟩ := Lifetime.activeSeg_eq_some hs
  refine h.onActive hact hact (fun i x _ hx => hx) ?_ rfl rfl rfl rfl rfl ?_
  · intro i x hi
    refine mem_put.trans ⟨?_, fun hx => .inr ⟨hi, hx⟩⟩
    rintro (⟨he, -⟩ | ⟨-, hx⟩)
    · exact absurd he hi
    · exact hx
  · exact ⟨g, ps, hg, hsize, hseg, mem_put.mpr (.inl ⟨rfl, rfl⟩)⟩

theorem Lifetime.Sound.writeTrailer (h : s.Sound own dg p)
    (hx : s.exec dg p .writeTrailer = some s') : s'.Sound own dg p := by
  unfold Lifetime.exec at hx
  dsimp only at hx
  split at hx
  · cases hx
  rename_i id seg f hs
  split at hx
  · rename_i htabled
    obtain ⟨hact, g, ps, hg, hsize, rfl, rfl⟩ := h.activeSeg hs
    obtain ⟨-, -, hfile⟩ := Lifetime.activeSeg_eq_some hs
    rw [if_pos htabled] at hx
    obtain ⟨-, hsealed, hback⟩ := hg.sealed dg id
    rw [hsize] at hsealed hback
    have hother : ∀ i, i ≠ id → s.active ≠ some i :=
      fun i hi he => hi (some.inj (he.symm.trans hact))
    have hr : Retains s s' := by
      cases hx
      refine ⟨UInt32.le_refl _, fun i _ hi => (nomatch hi), ?_⟩
      rintro i f' - hi (hf | hf)
      · rcases mem_put.mp hf with ⟨rfl, -⟩ | ⟨-, hf⟩
        · exact absurd hact hi
        · exact .inl hf
      · exact .inr hf
    cases hx
    obtain ⟨hloaded, hpend, hseqs⟩ := h.notes hr rfl rfl rfl
    refine ⟨?_, fun i hi => (nomatch hi), ?_, h.objects, ?_, ?_, hloaded, hpend, hseqs⟩
    · intro i f' hf _
      rcases mem_put.mp hf with ⟨rfl, rfl⟩ | ⟨hi, hf⟩
      · exact .inl hsealed
      · exact h.files i f' hf (hother i hi)
    · intro i seg hseg _
      rcases mem_put.mp hseg with ⟨rfl, rfl⟩ | ⟨hi, hseg⟩
      · exact ⟨rfl, _, mem_put.mpr (.inl ⟨rfl, rfl⟩), hsealed, hback⟩
      · obtain ⟨hss, f', hf, hrest⟩ := h.table i seg hseg (hother i hi)
        exact ⟨hss, f', mem_put.mpr (.inr ⟨hi, hf⟩), hrest⟩
    · intro i f' g' hf hg'
      rcases mem_put.mp hf with ⟨rfl, -⟩ | ⟨-, hf⟩
      · exact absurd hact (h.copies i _ g' hfile hg').1
      · exact ⟨fun hi => (nomatch hi), (h.copies i f' g' hf hg').2⟩
    · rintro i f' (hf | hf)
      · rcases mem_put.mp hf with ⟨rfl, -⟩ | ⟨-, hf⟩
        · exact h.minted i _ (.inl hfile)
        · exact h.minted i f' (.inl hf)
      · exact h.minted i f' (.inr hf)
  · cases hx

/-! #### New files -/

theorem Lifetime.Sound.created (h : s.Sound own dg p) (size : ℕ) :
    (∀ i, (s.created size).byte i = 0) ∧ (s.created size).size = size := by
  have hnone : s.files.find s.nextID = none := by
    refine find_eq_none.mpr fun f hf => ?_
    exact UInt32.lt_irrefl _ (h.minted _ f (.inl hf))
  unfold Lifetime.created grow
  rw [hnone]
  split
  · refine ⟨fun i => ?_, rfl⟩
    dsimp only
    split
    · rfl
    · rfl
  · rename_i hsize
    exact ⟨fun i => rfl, (Nat.eq_zero_of_not_pos hsize).symm⟩

private theorem lt_succ_of_room {n i : UInt32} (hn : n.toNat + 1 < 2 ^ 32) (hi : i ≤ n) :
    i < n + 1 := by
  have hone : (1 : UInt32).toNat = 1 := rfl
  rw [UInt32.le_iff_toNat_le] at hi
  rw [UInt32.lt_iff_toNat_lt, UInt32.toNat_add, hone, Nat.mod_eq_of_lt hn]
  omega

private theorem retains_new {f : File} (hnext : s.nextID ≤ s'.nextID)
    (hact : ∀ id, id < s.nextID → s'.active = some id → s.active = some id)
    (hfiles : s'.files = s.files.put s.nextID f) (hobjects : s'.objects = s.objects) :
    Retains s s' := by
  refine ⟨hnext, hact, ?_⟩
  rintro i g hi - (hf | hf)
  · rw [hfiles] at hf
    rcases mem_put.mp hf with ⟨rfl, -⟩ | ⟨-, hf⟩
    · exact absurd hi (UInt32.lt_irrefl _)
    · exact .inl hf
  · exact .inr (hobjects ▸ hf)

private theorem minted_new (h : s.Sound own dg p) {f : File} (hroom : s.nextID.toNat + 1 < 2 ^ 32)
    (hfiles : s'.files = s.files.put s.nextID f) (hobjects : s'.objects = s.objects)
    (hnext : s'.nextID = s.nextID + 1) :
    ∀ i g, (i, g) ∈ s'.files.rows ∨ (i, g) ∈ s'.objects.rows → i < s'.nextID := by
  rw [hfiles, hobjects, hnext]
  rintro i g (hf | hf)
  · rcases mem_put.mp hf with ⟨rfl, -⟩ | ⟨-, hf⟩
    · exact lt_succ_of_room hroom (UInt32.le_refl _)
    · exact lt_succ_of_room hroom (UInt32.le_of_lt (h.minted i g (.inl hf)))
  · exact lt_succ_of_room hroom (UInt32.le_of_lt (h.minted i g (.inr hf)))

private theorem copies_new (h : s.Sound own dg p) {f : File}
    (hact : ∀ id, id < s.nextID → s'.active ≠ some id) (hfiles : s'.files = s.files.put s.nextID f)
    (hobjects : s'.objects = s.objects) :
    ∀ i x g, (i, x) ∈ s'.files.rows → (i, g) ∈ s'.objects.rows → s'.active ≠ some i ∧ x = g := by
  rw [hfiles, hobjects]
  intro i x g hx hg
  have hi := h.minted i g (.inr hg)
  rcases mem_put.mp hx with ⟨rfl, -⟩ | ⟨-, hx⟩
  · exact absurd hi (UInt32.lt_irrefl _)
  · exact ⟨hact i hi, (h.copies i x g hx hg).2⟩

theorem Lifetime.Sound.openActive (h : s.Sound own dg p) (hnone : s.active = none)
    (hroom : s.nextID.toNat + 1 < 2 ^ 32) : (Lifetime.openActive p s).Sound own dg p := by
  obtain ⟨hblank, hsize⟩ := h.created p.segmentBytes
  have hle : s.nextID ≤ s.nextID + 1 := UInt32.le_of_lt (lt_succ_of_room hroom (UInt32.le_refl _))
  have hr : Retains s (Lifetime.openActive p s) := by
    refine retains_new hle ?_ rfl rfl
    intro i hi hact
    cases hact
    exact absurd hi (UInt32.lt_irrefl _)
  obtain ⟨hloaded, hpend, hseqs⟩ := h.notes hr rfl rfl rfl
  have hpassive : ∀ i, s.active ≠ some i := fun i hi => by
    rw [hnone] at hi
    cases hi
  have hcopies := @copies_new own dg p s (Lifetime.openActive p s) h _ (fun i hi hact => by
    cases hact
    exact absurd hi (UInt32.lt_irrefl _)) rfl rfl
  refine ⟨?_, ?_, ?_, h.objects, hcopies, minted_new h hroom rfl rfl rfl, hloaded, hpend, hseqs⟩
  · intro i f hf hi
    rcases mem_put.mp hf with ⟨rfl, -⟩ | ⟨-, hf⟩
    · exact absurd rfl hi
    · exact h.files i f hf (hpassive i)
  · intro i hi
    cases hi
    refine ⟨s.created p.segmentBytes, [], growing_of_blank hblank ?_ ?_, hsize,
      mem_put.mpr (.inl ⟨rfl, rfl⟩), mem_put.mpr (.inl ⟨rfl, rfl⟩)⟩
    · rw [hsize]
      have := p.lt
      omega
    · rw [hsize]
      have := p.span_le (UInt32.le_refl p.maxBlobLen)
      omega
  · intro i seg hseg hi
    rcases mem_put.mp hseg with ⟨rfl, -⟩ | ⟨hne, hseg⟩
    · exact absurd rfl hi
    · obtain ⟨hss, f, hf, hrest⟩ := h.table i seg hseg (hpassive i)
      exact ⟨hss, f, mem_put.mpr (.inr ⟨hne, hf⟩), hrest⟩

theorem Lifetime.Sound.cutCreate (h : s.Sound own dg p) {size : ℕ}
    (hroom : s.nextID.toNat + 1 < 2 ^ 32) (hx : s.exec dg p (.cutCreate size) = some s') :
    s'.Sound own dg p := by
  unfold Lifetime.exec at hx
  dsimp only at hx
  split at hx
  · cases hx
  rename_i hnone
  have hnone : s.active = none := by simpa using hnone
  obtain ⟨hblank, hsize⟩ := h.created (min size p.segmentBytes)
  have hle : s.nextID ≤ s.nextID + 1 := UInt32.le_of_lt (lt_succ_of_room hroom (UInt32.le_refl _))
  have hpassive : ∀ i, s.active ≠ some i := fun i hi => by
    rw [hnone] at hi
    cases hi
  have hr : Retains s s' := by
    cases hx
    exact retains_new hle (fun i _ hi => hi) rfl rfl
  have hcopies : ∀ i x g, (i, x) ∈ s'.files.rows → (i, g) ∈ s'.objects.rows →
      s'.active ≠ some i ∧ x = g := by
    cases hx
    exact copies_new h (fun i _ => hpassive i) rfl rfl
  cases hx
  obtain ⟨hloaded, hpend, hseqs⟩ := h.notes hr rfl rfl rfl
  refine ⟨?_, fun i hi => absurd hi (hpassive i), ?_, h.objects, hcopies,
    minted_new h hroom rfl rfl rfl, hloaded, hpend, hseqs⟩
  · intro i f hf hi
    rcases mem_put.mp hf with ⟨rfl, rfl⟩ | ⟨-, hf⟩
    · refine .inr ⟨[], unsealed_of_blank hblank ?_⟩
      rw [hsize]
      have := p.lt
      omega
    · exact h.files i f hf hi
  · intro i seg hseg hi
    obtain ⟨hss, f, hf, hrest⟩ := h.table i seg hseg hi
    refine ⟨hss, f, mem_put.mpr (.inr ⟨?_, hf⟩), hrest⟩
    rintro rfl
    exact UInt32.lt_irrefl _ (h.minted _ f (.inl hf))

/-! #### Retired, uploaded and adopted segments -/

theorem Lifetime.Sound.onSeg (h : s.Sound own dg p) (hs : (id, seg) ∈ s.segs.rows)
    (hact : s.active = some id → seg' = seg) (hsealed : seg'.isSealed = seg.isSealed)
    (hentries : seg'.entries = seg.entries) : (s.onSeg id seg').Sound own dg p := by
  have hr : Retains s (s.onSeg id seg') :=
    ⟨UInt32.le_refl _, fun i _ hi => hi, fun i f _ _ hf => hf⟩
  obtain ⟨hloaded, hpend, hseqs⟩ := h.notes hr rfl rfl rfl
  refine ⟨h.files, ?_, ?_, h.objects, h.copies, h.minted, hloaded, hpend, hseqs⟩
  · intro i hi
    obtain ⟨g, rs, hg, hsize, hseg, hf⟩ := h.active i hi
    refine ⟨g, rs, hg, hsize, ?_, hf⟩
    by_cases he : i = id
    · subst he
      exact mem_put.mpr (.inl ⟨rfl, (unique hseg hs).trans (hact hi).symm⟩)
    · exact mem_put.mpr (.inr ⟨he, hseg⟩)
  · intro i x hx hi
    rcases mem_put.mp hx with ⟨rfl, rfl⟩ | ⟨-, hx⟩
    · rw [hsealed, hentries]
      exact h.table i seg hs hi
    · exact h.table i x hx hi

theorem Lifetime.Sound.retireBegin (h : s.Sound own dg p)
    (hx : s.exec dg p (.retireBegin id) = some s') : s'.Sound own dg p := by
  unfold Lifetime.exec at hx
  dsimp only at hx
  split at hx
  · cases hx
  rename_i seg hseg
  split at hx
  · rename_i hguard
    have hs := find_eq_some.mp hseg
    rw [Bool.and_eq_true] at hguard
    cases hx
    exact h.onSeg hs (fun hact => absurd hact (h.not_active hs (.inl hguard.1))) rfl rfl
  · cases hx

theorem Lifetime.Sound.retireAbort (h : s.Sound own dg p)
    (hx : s.exec dg p (.retireAbort id) = some s') : s'.Sound own dg p := by
  obtain ⟨seg, hseg, rfl⟩ := map_eq_some_iff.mp hx
  have hs := find_eq_some.mp hseg
  refine h.onSeg hs (fun hact => ?_) rfl rfl
  obtain ⟨⟨seg', hs', -, hdying⟩, -⟩ := (h.active id hact).mem
  obtain rfl := unique hs hs'
  cases seg
  cases hdying
  rfl

theorem Lifetime.Sound.retireFinish (h : s.Sound own dg p)
    (hx : s.exec dg p (.retireFinish id) = some s') : s'.Sound own dg p := by
  unfold Lifetime.exec at hx
  dsimp only at hx
  split at hx
  · cases hx
  rename_i seg hseg
  split at hx
  · rename_i hdying
    have hpassive := h.not_active (find_eq_some.mp hseg) (.inr hdying)
    have hr : Retains s s' := by
      cases hx
      refine ⟨UInt32.le_refl _, fun i _ hi => hi, ?_⟩
      rintro i f - - (hf | hf)
      · exact .inl (mem_erase.mp hf).2
      · exact .inr hf
    cases hx
    obtain ⟨hloaded, hpend, hseqs⟩ := h.notes hr rfl rfl rfl
    refine ⟨?_, ?_, ?_, h.objects, ?_, ?_, hloaded, hpend, hseqs⟩
    · intro i f hf hi
      exact h.files i f (mem_erase.mp hf).2 hi
    · intro i hi
      have hne : i ≠ id := by
        rintro rfl
        exact hpassive hi
      obtain ⟨g, rs, hg, hsize, hseg, hf⟩ := h.active i hi
      exact ⟨g, rs, hg, hsize, mem_erase.mpr ⟨hne, hseg⟩, mem_erase.mpr ⟨hne, hf⟩⟩
    · intro i x hx hi
      obtain ⟨hne, hx⟩ := mem_erase.mp hx
      obtain ⟨hss, f, hf, hrest⟩ := h.table i x hx hi
      exact ⟨hss, f, mem_erase.mpr ⟨hne, hf⟩, hrest⟩
    · intro i f g hf hg
      exact h.copies i f g (mem_erase.mp hf).2 hg
    · rintro i f (hf | hf)
      · exact h.minted i f (.inl (mem_erase.mp hf).2)
      · exact h.minted i f (.inr hf)
  · cases hx

theorem Lifetime.Sound.spill (h : s.Sound own dg p)
    (hx : s.exec dg p (.spill id) = some s') : s'.Sound own dg p := by
  unfold Lifetime.exec at hx
  dsimp only at hx
  split at hx
  · rename_i seg f hseg hfile
    split at hx
    · rename_i hsealed
      have hs := find_eq_some.mp hseg
      have hf := find_eq_some.mp hfile
      obtain ⟨-, f', hf', hfile', -⟩ := h.table id seg hs (h.not_active hs (.inl hsealed))
      obtain rfl := unique hf hf'
      have hr : Retains s s' := by
        cases hx
        refine ⟨UInt32.le_refl _, fun i _ hi => hi, ?_⟩
        rintro i g - - (hg | hg)
        · exact .inl hg
        · rcases mem_put.mp hg with ⟨rfl, rfl⟩ | ⟨-, hg⟩
          · exact .inl hf
          · exact .inr hg
      cases hx
      obtain ⟨hloaded, hpend, hseqs⟩ := h.notes hr rfl rfl rfl
      refine ⟨h.files, h.active, h.table, ?_, ?_, ?_, hloaded, hpend, hseqs⟩
      · intro i g hg
        rcases mem_put.mp hg with ⟨rfl, rfl⟩ | ⟨-, hg⟩
        · exact hfile'
        · exact h.objects i g hg
      · intro i x g hx hg
        rcases mem_put.mp hg with ⟨rfl, rfl⟩ | ⟨-, hg⟩
        · exact ⟨h.not_active hs (.inl hsealed), unique hx hf⟩
        · exact h.copies i x g hx hg
      · rintro i g (hg | hg)
        · exact h.minted i g (.inl hg)
        · rcases mem_put.mp hg with ⟨rfl, rfl⟩ | ⟨-, hg⟩
          · exact h.minted i g (.inl hf)
          · exact h.minted i g (.inr hg)
    · cases hx
  · cases hx

theorem SealedFile.readSeal {f : File} (h : SealedFile own dg id f) {maxBlob : UInt32}
    {tr : Trailer} {es : List FooterEntry}
    (hread : readSeal dg f f.size id maxBlob = some (tr, es)) :
    ∀ e ∈ es, Backs own f e ∧ e.len ≤ maxBlob := by
  obtain ⟨tr', es', hfoot, hback⟩ := h
  rw [Nvme.readSeal, hfoot, map_some] at hread
  cases hread
  intro e he
  obtain ⟨he, hin⟩ := mem_filter.mp he
  simp only [FooterEntry.within, Bool.and_eq_true, decide_eq_true_eq] at hin
  exact ⟨(hback e he).1, hin.1.1⟩

theorem Lifetime.Sound.adopted (h : s.Sound own dg p) {f : File}
    (hseg : s.segs.find id = none) (hf : (id, f) ∈ s.objects.rows) (hsealed : seg.isSealed = true)
    (hentries : ∀ e ∈ seg.entries, Backs own f e) :
    Lifetime.Sound own dg p { s.onSeg id seg with files := s.files.put id f } := by
  have hfile := h.objects id f hf
  have hpassive : s.active ≠ some id := by
    intro hact
    obtain ⟨⟨seg, hs, -⟩, -⟩ := (h.active id hact).mem
    exact find_eq_none.mp hseg seg hs
  have hr : Retains s { s.onSeg id seg with files := s.files.put id f } := by
    refine ⟨UInt32.le_refl _, fun i _ hi => hi, ?_⟩
    rintro i g - - (hg | hg)
    · rcases mem_put.mp hg with ⟨rfl, rfl⟩ | ⟨-, hg⟩
      · exact .inr hf
      · exact .inl hg
    · exact .inr hg
  obtain ⟨hloaded, hpend, hseqs⟩ := h.notes hr rfl rfl rfl
  refine ⟨?_, ?_, ?_, h.objects, ?_, ?_, hloaded, hpend, hseqs⟩
  · intro i g hg hi
    rcases mem_put.mp hg with ⟨rfl, rfl⟩ | ⟨-, hg⟩
    · exact .inl hfile
    · exact h.files i g hg hi
  · intro i hi
    have hne : i ≠ id := by
      rintro rfl
      exact hpassive hi
    obtain ⟨g, rs, hg, hsize, hseg, hg'⟩ := h.active i hi
    exact ⟨g, rs, hg, hsize, mem_put.mpr (.inr ⟨hne, hseg⟩), mem_put.mpr (.inr ⟨hne, hg'⟩)⟩
  · intro i x hx hi
    rcases mem_put.mp hx with ⟨rfl, rfl⟩ | ⟨hne, hx⟩
    · exact ⟨hsealed, f, mem_put.mpr (.inl ⟨rfl, rfl⟩), hfile, hentries⟩
    · obtain ⟨hss, g, hg, hrest⟩ := h.table i x hx hi
      exact ⟨hss, g, mem_put.mpr (.inr ⟨hne, hg⟩), hrest⟩
  · intro i x g hx hg
    rcases mem_put.mp hx with ⟨rfl, rfl⟩ | ⟨-, hx⟩
    · exact ⟨hpassive, unique hf hg⟩
    · exact h.copies i x g hx hg
  · rintro i g (hg | hg)
    · rcases mem_put.mp hg with ⟨rfl, -⟩ | ⟨-, hg⟩
      · exact h.minted i f (.inr hf)
      · exact h.minted i g (.inl hg)
    · exact h.minted i g (.inr hg)

theorem Lifetime.Sound.adopt (h : s.Sound own dg p)
    (hx : s.exec dg p (.adopt id) = some s') : s'.Sound own dg p := by
  unfold Lifetime.exec at hx
  dsimp only at hx
  split at hx
  · cases hx
  rename_i hseg
  obtain ⟨f, hobject, hx⟩ := bind_eq_some_iff.mp hx
  obtain ⟨found, hread, hx⟩ := bind_eq_some_iff.mp hx
  have hf := find_eq_some.mp hobject
  have hentries :=
    @SealedFile.readSeal own dg id f (h.objects id f hf) p.maxBlobLen found.1 found.2 hread
  split at hx
  · obtain rfl := some.inj hx
    exact h.adopted (by simpa using hseg) hf rfl fun e he => (hentries e he).1
  · cases hx

/-! #### Checkpoints -/

private theorem noted_rows (h : s.Sound own dg p) {cap : UInt32} (hcap : cap < s.nextID) :
    Noted own dg s
      ((((s.segs.rows.filter (·.2.isSealed)).filter (!·.2.dying)).filter (·.1 ≤ cap)).flatMap
      fun x => x.2.entries.map (·.row x.1)) cap := by
  have hrow :
      ∀ row ∈ (((s.segs.rows.filter (·.2.isSealed)).filter (!·.2.dying)).filter (·.1 ≤ cap)).flatMap
      (fun x => x.2.entries.map (·.row x.1)), row.segID ≤ cap ∧
        ∃ seg, (row.segID, seg) ∈ s.segs.rows ∧ seg.isSealed = true ∧ row.footer ∈ seg.entries := by
    intro row hrow
    obtain ⟨⟨i, seg⟩, hx, hr⟩ := mem_flatMap.mp hrow
    obtain ⟨e, he, rfl⟩ := mem_map.mp hr
    obtain ⟨hx, hle⟩ := mem_filter.mp hx
    obtain ⟨hx, -⟩ := mem_filter.mp hx
    obtain ⟨hx, hsealed⟩ := mem_filter.mp hx
    exact ⟨of_decide_eq_true hle, seg, hx, hsealed, he⟩
  refine ⟨hcap, fun row hr => (hrow row hr).1, ?_, ?_⟩
  · intro row hr
    obtain ⟨-, seg, hs, hsealed, -⟩ := hrow row hr
    exact h.not_active hs (.inl hsealed)
  intro row hr f hf
  obtain ⟨-, seg, hs, hsealed, he⟩ := hrow row hr
  obtain ⟨-, g, hg, hfile, hback⟩ := h.table _ seg hs (h.not_active hs (.inl hsealed))
  have hfg : f = g := by
    rcases hf with hf | hf
    · exact unique hf hg
    · exact (h.copies _ g f hg hf).2.symm
  subst hfg
  exact ⟨hfile, hback _ he⟩

private instance maxEqOr32 : Std.MaxEqOr UInt32 where
  max_eq_or a b := by
    by_cases h : a ≤ b
    · exact .inr (if_pos h)
    · exact .inl (if_neg h)

private theorem lt_next_of_listed (h : s.Sound own dg p) {P Q : UInt32 × Seg → Bool}
    (hi : id ∈ ((s.segs.rows.filter P).filter Q).map (·.1)) : id < s.nextID := by
  obtain ⟨⟨i, seg⟩, hx, rfl⟩ := mem_map.mp hi
  have hs := (mem_filter.mp (mem_filter.mp hx).1).1
  by_cases hact : s.active = some i
  · obtain ⟨-, f, hf⟩ := (h.active i hact).mem
    exact h.minted i f (.inl hf)
  · obtain ⟨-, f, hf, -⟩ := h.table i seg hs hact
    exact h.minted i f (.inl hf)

theorem Lifetime.Sound.snapshot (h : s.Sound own dg p) {n : Snapshot}
    (hn : s.ckptSnapshot = some n) :
    Noted own dg s n.entries n.maxSealed ∧ n.seq = s.ckptSeq + 1 := by
  unfold Lifetime.ckptSnapshot at hn
  dsimp only at hn
  split at hn
  · cases hn
  · rename_i maxSealed hmax _
    cases hn
    exact ⟨noted_rows h (lt_next_of_listed h (max?_mem hmax)), rfl⟩
  rename_i maxSealed dyingMin hmax hmin
  split at hn
  · split at hn
    · cases hn
    · rename_i hpos
      cases hn
      refine ⟨noted_rows h (UInt32.lt_trans ?_ (lt_next_of_listed h (min?_mem hmin))), rfl⟩
      have hne : dyingMin.toNat ≠ 0 := fun hz => hpos (UInt32.toNat_inj.mp hz)
      have hone : (1 : UInt32).toNat = 1 := rfl
      have hle : (1 : UInt32) ≤ dyingMin := by
        rw [UInt32.le_iff_toNat_le, hone]
        omega
      rw [UInt32.lt_iff_toNat_lt, UInt32.toNat_sub_of_le _ _ hle, hone]
      omega
  · cases hn
    exact ⟨noted_rows h (lt_next_of_listed h (max?_mem hmax)), rfl⟩

private theorem Noted.same {cap : UInt32} (h : Noted own dg s rows cap)
    (hfiles : s'.files = s.files) (hobjects : s'.objects = s.objects) (hact : s'.active = s.active)
    (hnext : s'.nextID = s.nextID) : Noted own dg s' rows cap := by
  refine h.retains ⟨hnext ▸ UInt32.le_refl _, fun i _ hi => hact ▸ hi, fun i f _ _ hf => ?_⟩
  rwa [hfiles, hobjects] at hf

private theorem Lifetime.Sound.onCkpts (h : s.Sound own dg p)
    {ckpts : Listing UInt64 (List UInt8) (· > ·)} {pending : Option Snapshot}
    (hloaded : ∀ ck, loadNewestCkpt dg ckpts.rows = some ck →
      Noted own dg s ck.entries ck.maxSealed)
    (hpending : ∀ n, pending = some n → Noted own dg s n.entries n.maxSealed ∧ seq < n.seq)
    (hseqs : ∀ q b v, (q, b) ∈ ckpts.rows → readCkptFile dg b = .ok v → q ≤ seq) :
    Lifetime.Sound own dg p { s with ckpts := ckpts, ckptSeq := seq, pending := pending } where
  files := h.files
  active := h.active
  table := h.table
  objects := h.objects
  copies := h.copies
  minted := h.minted
  loaded ck hck := (hloaded ck hck).same rfl rfl rfl rfl
  pending n hn := ⟨(hpending n hn).1.same rfl rfl rfl rfl, (hpending n hn).2⟩
  seqs := hseqs

theorem Lifetime.Sound.takeSnapshot (h : s.Sound own dg p) (hroom : s.ckptSeq.toNat + 1 < 2 ^ 64)
    (hx : s.exec dg p .ckptSnapshot = some s') : s'.Sound own dg p := by
  unfold Lifetime.exec at hx
  dsimp only at hx
  split at hx
  · cases hx
  cases hx
  refine h.onCkpts h.loaded (fun n hn => ?_) h.seqs
  obtain ⟨hnoted, hseq⟩ := h.snapshot hn
  refine ⟨hnoted, ?_⟩
  have hone : (1 : UInt64).toNat = 1 := rfl
  rw [hseq, UInt64.lt_iff_toNat_lt, UInt64.toNat_add, hone, Nat.mod_eq_of_lt hroom]
  omega

private theorem rows_of_read {maxSealed : UInt32} {v : List CkptEntry × UInt32}
    (h : readCkptFile dg (encodeCkpt dg nowNanos maxSealed entries) = .ok v) :
    v = (entries, maxSealed) := by
  by_cases hcap : (encodeCkpt dg nowNanos maxSealed entries).length ≤ ckptMaxBytes
  · rw [readCkptFile_encodeCkpt dg nowNanos maxSealed hcap] at h
    exact (Except.ok.inj h).symm
  · rw [readCkptFile, if_pos (Nat.lt_of_not_le hcap)] at h
    cases h

theorem Lifetime.Sound.renameCkpt (h : s.Sound own dg p)
    (hx : s.exec dg p (.renameCkpt nowNanos) = some s') : s'.Sound own dg p := by
  obtain ⟨n, hn, rfl⟩ := map_eq_some_iff.mp hx
  obtain ⟨hnoted, hnewer⟩ := h.pending n hn
  have hseqs :
      ∀ q b v, (q, b) ∈ (s.ckpts.put n.seq (encodeCkpt dg nowNanos n.maxSealed n.entries)).rows →
      readCkptFile dg b = .ok v → q ≤ n.seq := by
    intro q b v hq hv
    rcases mem_put.mp hq with ⟨rfl, -⟩ | ⟨-, hq⟩
    · exact UInt64.le_refl _
    · exact UInt64.le_of_lt (UInt64.lt_of_le_of_lt (h.seqs q b v hq hv) hnewer)
  refine h.onCkpts (fun ck hck => ?_) (fun m hm => nomatch hm) hseqs
  obtain ⟨⟨b, hb, hread⟩, hnewest⟩ := loadNewestCkpt_eq_some (s.ckpts.put n.seq _).sorted hck
  rcases mem_put.mp hb with ⟨-, rfl⟩ | ⟨hne, hb⟩
  · have hv := rows_of_read hread
    obtain ⟨hrows, hmax⟩ := Prod.mk.inj hv
    rw [hrows, hmax]
    exact hnoted
  -- the new file does not read, so the one that was loaded stays the newest
  refine h.loaded ck (loadNewestCkpt_of_newest s.ckpts.sorted hb hread ?_)
  intro q b' v hq hv
  refine hnewest q b' v (mem_put.mpr (.inr ⟨?_, hq⟩)) hv
  rintro rfl
  exact absurd (h.seqs _ b' v hq hv) (UInt64.not_le.mpr hnewer)

theorem Lifetime.Sound.pruneCkpts (h : s.Sound own dg p)
    (hx : s.exec dg p (.pruneCkpts below) = some s') : s'.Sound own dg p := by
  unfold Lifetime.exec at hx
  dsimp only at hx
  split at hx
  · cases hx
    refine h.onCkpts (fun ck hck => ?_) h.pending ?_
    · obtain ⟨⟨b, hb, hread⟩, hnewest⟩ := loadNewestCkpt_eq_some (s.ckpts.filterKeys _).sorted hck
      obtain ⟨hb, hkept⟩ := mem_filterKeys.mp hb
      refine h.loaded ck (loadNewestCkpt_of_newest s.ckpts.sorted hb hread ?_)
      intro q b' v hq hv
      by_cases hlow : below ≤ q
      · exact hnewest q b' v (mem_filterKeys.mpr ⟨hq, decide_eq_true hlow⟩) hv
      · exact UInt64.le_trans (UInt64.le_of_lt (UInt64.not_le.mp hlow)) (of_decide_eq_true hkept)
    · intro q b v hq hv
      exact h.seqs q b v (mem_filterKeys.mp hq).1 hv
  · cases hx

theorem Lifetime.Sound.exec (h : s.Sound own dg p) {op : Lifetime.Op} (hop : op.Allowed own s)
    (hx : s.exec dg p op = some s') : s'.Sound own dg p := by
  cases op with
  | flush rs => exact h.flush hop hx
  | writeTable => exact h.writeTable hx
  | writeTrailer => exact h.writeTrailer hx
  | openActive =>
    unfold Lifetime.exec at hx
    dsimp only at hx
    split at hx
    · cases hx
    · rename_i hnone
      cases hx
      exact h.openActive (by simpa using hnone) hop
  | cutCreate size => exact h.cutCreate hop hx
  | retireBegin id => exact h.retireBegin hx
  | retireAbort id => exact h.retireAbort hx
  | retireFinish id => exact h.retireFinish hx
  | spill id => exact h.spill hx
  | adopt id => exact h.adopt hx
  | ckptSnapshot => exact h.takeSnapshot hop hx
  | renameCkpt nowNanos => exact h.renameCkpt hx
  | dropCkpt =>
    cases hx
    exact h.onCkpts h.loaded (fun n hn => nomatch hn) h.seqs
  | pruneCkpts below => exact h.pruneCkpts hx

end Keeps

end KVStash.Nvme
