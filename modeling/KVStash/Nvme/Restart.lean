/- GID: KVStash/Nvme/Restart
   digest: What one process leaves behind is what the next one recovers and reads back. -/

import KVStash.Nvme.Soundness

set_option autoImplicit false

namespace KVStash.Nvme

open Foundation Foundation.Bytes Foundation.Storage List

/-! ### The end of one lifetime and the start of the next -/

section Restart

variable {own : AppendReq → Prop} {dg : Digests} {p : Params} {s : Lifetime}
  {sealOk : UInt32 → Bool}
  {id i n maxBlob : UInt32} {d : Dir} {f : File}

private theorem room_of_lt (h : i < n) : i.toNat + 1 < 2 ^ 32 := by
  have hn := n.toNat_lt
  rw [UInt32.lt_iff_toNat_lt] at h
  omega

theorem Lifetime.Sound.dir (h : s.Sound own dg p) (hown : ∀ r, own r → r.Admitted dg) :
    s.dir.Sound own dg where
  files id f hf := by
    by_cases hact : s.active = some id
    · obtain ⟨g, rs, hg, -, -, hfile⟩ := h.active id hact
      obtain rfl := Listing.unique hf hfile
      right
      refine ⟨rs, ?_⟩
      split
      · exact hg.tabled hown
      · exact hg.unsealed
    · exact h.files id f hf hact
  ids id f hf := room_of_lt (h.minted id f (.inl hf))
  ckpt ck hck := by
    have hnoted := h.loaded ck hck
    refine ⟨room_of_lt hnoted.below, fun row hrow => ⟨hnoted.bounded row hrow, fun f hf => ?_⟩⟩
    exact hnoted.held row hrow f (.inl hf)

private theorem Chain.len_le {limit off e : ℕ} {hs : List RecordHeader}
    (h : Chain dg maxBlob f limit off hs e) : ∀ x ∈ entriesFrom off hs, x.len ≤ maxBlob := by
  induction h with
  | nil => simp [entriesFrom]
  | cons head _ ih =>
    intro x hx
    rcases mem_cons.mp hx with rfl | hx
    · exact head.len_le
    · exact ih x hx

/-- What recovery makes of a sound file: a sealed file of our appends, with entries in it; and a
sealed file stays as it is. -/
theorem Dir.Sound.recoverSegment (h : d.Sound own dg) (hown : ∀ r, own r → r.Admitted dg)
    {sealOk : Bool} (hf : (id, f) ∈ d.segs) {k : Kept}
    (hk : (Nvme.recoverSegment dg p (loadNewestCkpt dg d.ckpts) sealOk id f).kept = some k) :
    SealedFile own dg id k.file ∧ (SealedFile own dg id f → k.file = f) ∧
      ∀ e ∈ k.entries, Backs own k.file e ∧ e.len ≤ p.maxBlobLen := by
  cases hpart : partialCreate p.maxBlobLen f.size with
  | true =>
    rw [recoverSegment_of_cut hpart] at hk
    cases hk
  | false =>
    cases htrust : trustedRows (loadNewestCkpt dg d.ckpts) id with
    | some rows =>
      rw [recoverSegment_of_trusted hpart htrust] at hk
      obtain rfl := Option.some.inj hk
      -- the rows are those of the checkpoint for this file, and there is at least one
      unfold trustedRows at htrust
      split at htrust
      · cases htrust
      rename_i ck hck
      split at htrust
      · rename_i hguard
        cases htrust
        have hrow : ∀ e ∈ ck.group id, SealedFile own dg id f ∧ Backs own f e := by
          intro e he
          obtain ⟨row, hfilter, rfl⟩ := mem_map.mp he
          obtain ⟨hmem, hid⟩ := mem_filter.mp hfilter
          obtain rfl := eq_of_beq hid
          exact ((h.ckpt ck hck).2 row hmem).2 f hf
        obtain ⟨e₀, he₀⟩ := exists_mem_of_ne_nil _ hguard.2
        refine ⟨(hrow e₀ he₀).1, fun _ => rfl, fun e he => ?_⟩
        obtain ⟨he, hin⟩ := mem_filter.mp he
        simp only [FooterEntry.within, Bool.and_eq_true, decide_eq_true_eq] at hin
        exact ⟨(hrow e he).2, hin.1.1⟩
      · cases htrust
    | none =>
      cases hseal : readSeal dg f f.size id p.maxBlobLen with
      | some found =>
        obtain ⟨tr, es⟩ := found
        have hfile : SealedFile own dg id f := by
          rcases h.files id f hf with hfile | ⟨rs, hfile⟩
          · exact hfile
          · rw [readSeal, hfile.readFooter_eq_none] at hseal
            cases hseal
        rw [recoverSegment_of_sealed hpart htrust hseal] at hk
        obtain rfl := Option.some.inj hk
        exact ⟨hfile, fun _ => rfl, hfile.readSeal hseal⟩
      | none =>
        rw [recoverSegment_of_tail hpart htrust hseal] at hk
        rcases h.files id f hf with ⟨tr, es, hfoot, -⟩ | ⟨rs, hfile⟩
        · rw [readSeal, hfoot] at hseal
          cases hseal
        have hlo : recordAlign ≤ f.size := by
          simp only [partialCreate, Bool.or_eq_false_iff, decide_eq_false_iff_not, Nat.not_lt]
            at hpart
          have hmin := hpart.2
          unfold minSegmentBytes at hmin
          omega
        obtain ⟨-, hsealed, hback⟩ := hfile.sealedTail hown hlo hk
        refine ⟨hsealed, ?_, fun e he => ⟨hback e he, ?_⟩⟩
        · rintro ⟨tr, es, hfoot, -⟩
          rw [readSeal, hfoot] at hseal
          cases hseal
        · obtain ⟨-, -, rfl⟩ := recoverTail_kept hk
          obtain ⟨hs, e', hchain, -, hrec, -⟩ := scanTail_chain dg p hlo
          exact hchain.len_le e (hrec ▸ he)

theorem Dir.Sound.keptSegs (h : d.Sound own dg) (hown : ∀ r, own r → r.Admitted dg) {k : Kept}
    (hk : (id, k) ∈ Nvme.keptSegs dg p (loadNewestCkpt dg d.ckpts) sealOk d.segs) :
    ∃ f, (id, f) ∈ d.segs ∧ SealedFile own dg id k.file ∧ (SealedFile own dg id f → k.file = f) ∧
      ∀ e ∈ k.entries, Backs own k.file e ∧ e.len ≤ p.maxBlobLen := by
  obtain ⟨f, hf, hrec⟩ := mem_keptSegs.mp hk
  exact ⟨f, hf, h.recoverSegment hown hf hrec⟩

private theorem maxSealed_lt_nextSegID {ids : List UInt32} {ck : Ckpt}
    (h : ck.maxSealed.toNat + 1 < 2 ^ 32) : ck.maxSealed < nextSegID ids (some ck) := by
  have hlt : ck.maxSealed < ck.maxSealed + 1 := by
    have hone : (1 : UInt32).toNat = 1 := rfl
    rw [UInt32.lt_iff_toNat_lt, UInt32.toNat_add, hone, Nat.mod_eq_of_lt h]
    omega
  have hpast : ∀ past, ck.maxSealed < if past < ck.maxSealed + 1 then ck.maxSealed + 1
      else past := by
    intro past
    split
    · exact hlt
    · rename_i hge
      exact UInt32.lt_of_lt_of_le hlt (UInt32.not_lt.mp hge)
  exact hpast _

theorem Dir.Sound.recovered (h : d.Sound own dg) (hown : ∀ r, own r → r.Admitted dg)
    (sealOk : UInt32 → Bool) : (Lifetime.recovered dg p sealOk d).Sound own dg p := by
  have hfile : ∀ id g, (id, g) ∈ (Lifetime.recovered dg p sealOk d).files.rows →
      ∃ f, (id, f) ∈ d.segs ∧ SealedFile own dg id g ∧ (SealedFile own dg id f → g = f) := by
    intro id g hg
    obtain ⟨⟨i, k⟩, hk, heq⟩ := mem_map.mp hg
    obtain ⟨rfl, rfl⟩ := Prod.mk.inj heq
    obtain ⟨f, hf, hsealed, hsame, -⟩ := h.keptSegs hown hk
    exact ⟨f, hf, hsealed, hsame⟩
  have hminted : ∀ id f, (id, f) ∈ d.segs → id < (Lifetime.recovered dg p sealOk d).nextID := by
    intro id f hf
    refine lt_nextSegID _ (pairwise_map.mpr d.ascending) ?_ (mem_map_of_mem hf)
    intro i hi
    obtain ⟨⟨j, g⟩, hg, rfl⟩ := mem_map.mp hi
    exact h.ids j g hg
  refine ⟨?_, fun id hid => (nomatch hid), ?_, ?_, ?_, ?_, ?_, fun n hn => (nomatch hn), ?_⟩
  · intro id g hg _
    obtain ⟨-, -, hsealed, -⟩ := hfile id g hg
    exact .inl hsealed
  · intro id seg hseg _
    obtain ⟨⟨i, k⟩, hk, heq⟩ := mem_map.mp hseg
    obtain ⟨rfl, rfl⟩ := Prod.mk.inj heq
    obtain ⟨f, -, hsealed, -, hentries⟩ := h.keptSegs hown hk
    exact ⟨rfl, k.file, mem_map_of_mem hk, hsealed, fun e he => (hentries e he).1⟩
  · intro id f hf
    cases hf
  · intro id f g _ hg
    cases hg
  · rintro id g (hg | hg)
    · obtain ⟨f, hf, -⟩ := hfile id g hg
      exact hminted id f hf
    · cases hg
  · intro ck hck
    obtain ⟨hmax, hrows⟩ := h.ckpt ck hck
    refine ⟨?_, fun row hrow => (hrows row hrow).1, fun row _ hact => (nomatch hact), ?_⟩
    · show ck.maxSealed < nextSegID _ (loadNewestCkpt dg d.ckpts)
      have hck' : loadNewestCkpt dg d.ckpts = some ck := hck
      rw [hck']
      exact maxSealed_lt_nextSegID hmax
    rintro row hrow g (hg | hg)
    · obtain ⟨f, hf, -, hsame⟩ := hfile _ g hg
      obtain ⟨hsealed, hback⟩ := (hrows row hrow).2 f hf
      obtain rfl := hsame hsealed
      exact ⟨hsealed, hback⟩
    · cases hg
  · intro q b v hq hv
    cases hck : loadNewestCkpt dg d.ckpts with
    | none => exact absurd hv (loadNewestCkpt_eq_none hck hq v)
    | some ck =>
      show q ≤ ((loadNewestCkpt dg d.ckpts).map (·.seq)).getD 0
      rw [hck]
      exact (loadNewestCkpt_eq_some d.newestFirst hck).2 q b v hq hv

theorem Dir.Sound.read (h : d.Sound own dg) (hown : ∀ r, own r → r.Admitted dg) {e : RecoveredEntry}
    (he : e ∈ (recoverDir dg p sealOk d).entries) :
    ∃ r, own r ∧ r.ns = e.ns ∧ r.key = e.key ∧
      (Lifetime.openVolume dg p sealOk d).read dg p e.loc e.ns e.key e.xxh3 = some r.data := by
  rw [recoverDir_entries] at he
  rcases (foldl_mergeEntry _ []).1 e he with he | he
  · cases he
  obtain ⟨⟨id, k⟩, hk, he⟩ := mem_flatMap.mp he
  obtain ⟨x, hx, rfl⟩ := mem_map.mp he
  obtain ⟨f, hf, -, -, hentries⟩ := h.keptSegs hown hk
  obtain ⟨⟨r, hr, hb⟩, hlen⟩ := hentries x hx
  refine ⟨r, hr, (congrArg FooterEntry.ns hb.entry).symm,
    (congrArg FooterEntry.key hb.entry).symm, ?_⟩
  have hne : id ≠ (Lifetime.recovered dg p sealOk d).nextID := by
    have hlt := (h.recovered (p := p) hown sealOk).minted id k.file (.inl (mem_map_of_mem hk))
    rintro rfl
    exact UInt32.lt_irrefl _ hlt
  have hseg : (Lifetime.openVolume dg p sealOk d).segs.find id = some k.seg :=
    Listing.find_eq_some.mpr (Listing.mem_put.mpr (.inr ⟨hne, mem_map_of_mem hk⟩))
  have hfile : (Lifetime.openVolume dg p sealOk d).files.find id = some k.file :=
    Listing.find_eq_some.mpr (Listing.mem_put.mpr (.inr ⟨hne, mem_map_of_mem hk⟩))
  unfold Lifetime.read
  dsimp only [FooterEntry.recovered]
  rw [hseg, hfile]
  exact hb.readRecord (hown r hr) hlen id

def Dir.blank : Dir := ⟨[], [], [], .nil, Dir.no_ckpts⟩

end Restart

end KVStash.Nvme
