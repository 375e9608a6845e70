/- GID: KVStash/Tiered/Disk/Stages
   digest: How the owner of a segment's latch moves on while the segment changes under it. -/

import KVStash.Tiered.Disk.Invariant

set_option autoImplicit false

namespace KVStash.Tiered.Disk

open Protocol Foundation.Tally Function Multiset
open Dram.Tier (Key Audit PinFlags)

variable {a : Audit} {t t' : Tiers} {m m' f : Own} {k : Key} {r : NvmeRef} {id : ℕ}

/-! ### Stages -/

theorem Stage.Ok.mono {st : Stage} (h : st.Ok t id)
    (hhome : ∀ k r, Homed t' k r id → Homed t k r id)
    (hcold : ∀ k r, Homed t' k r id → (t'.cells r.id).s3Only = (t.cells r.id).s3Only)
    (hflag : ∀ k r, Homed t' k r id → (t.cells r.id).s3 = true → (t'.cells r.id).s3 = true)
    (hseg : t'.segs id = t.segs id)
    (hbucket : t.bucket id = true → t'.bucket id = true) : st.Ok t' id := by
  have hsealed : SealedFile t id → SealedFile t' id := fun ⟨g, hg, hs⟩ => ⟨g, hseg ▸ hg, hs⟩
  cases st with
  | held => trivial
  | present =>
    change (t'.segs id).isSome = true
    rw [hseg]
    exact h
  | retiring flip swept =>
    obtain ⟨⟨g, hg, hrest⟩, hsw⟩ := h
    refine ⟨⟨g, hseg ▸ hg, hrest⟩, fun k hk r hr => ?_⟩
    rw [hcold k r hr]
    exact hsw k hk r (hhome k r hr)
  | uploaded flagged =>
    refine ⟨hsealed h.1, hbucket h.2.1, fun k hk r hr => ?_⟩
    exact hflag k r hr (h.2.2 k hk r (hhome k r hr))
  | flagging flagged k r =>
    refine ⟨hsealed h.1, hbucket h.2.1, fun k hk r hr => ?_, fun r' hr' => ?_⟩
    · exact hflag k r hr (h.2.2.1 k hk r (hhome k r hr))
    · exact h.2.2.2 r' (hhome k r' hr')
  | drained =>
    intro k r hr
    rw [hcold k r hr]
    exact h k r (hhome k r hr)
  | dead =>
    intro k r hr
    obtain ⟨h1, g, hg, h2⟩ := h k r (hhome k r hr)
    exact ⟨(hcold k r hr).trans h1, g, hseg ▸ hg, h2⟩

theorem Stage.Ok.of_unsealed {st : Stage} (h : st.Ok t id) (hu : ¬ SealedFile t id)
    (hfile : (t'.segs id).isSome) (hdrained : st = .drained → Stage.drained.Ok t' id)
    (hdead : st = .dead → Stage.dead.Ok t' id) : st.Ok t' id := by
  cases st with
  | held => trivial
  | present => exact hfile
  | retiring flip swept =>
    obtain ⟨⟨g, hg, hs, -⟩, -⟩ := h
    exact absurd ⟨g, hg, hs⟩ hu
  | drained => exact hdrained rfl
  | dead => exact hdead rfl
  | _ => exact absurd h.1 hu

/-! ### Resources -/

/-- A thread gives `x` for `y` while the latches and the accounts of the tiers move from `t` to
`t'`. -/
structure Exchange (a : Audit) (t t' : Tiers) (x y : Own) : Prop where
  latched : ∀ id, weigh (Tok.latches id) y + (if t.inflight id then 1 else 0) =
    weigh (Tok.latches id) x + if t'.inflight id then 1 else 0 := by simp [Tok.latches]
  stage : ∀ id st, .latch id st ∈ y → st.Ok t id := by simp
  dying : ∀ id fl sw, .latch id (.retiring fl sw) ∈ x →
    ∃ fl sw, .latch id (.retiring fl sw) ∈ y := by simp
  footer : ∀ id ks, .footer id ks ∈ y → Closed t id ∧ t.entryKeys id = ks := by simp
  wrote : ∀ loc k z, .wrote loc k z ∈ y → Writable t loc.segmentID ∧ 0 < loc.len ∧
    ∃ data, t.recordAt loc k z = some data := by simp
  writing : ∀ id, t'.writing id + weigh (Tok.writes id) x =
    t.writing id + weigh (Tok.writes id) y := by
    simp [Tok.writes]
  gone : ∀ r b, .gone r b ∈ y → .gone r b ∈ x := by simp
  counted : ∀ id, t'.segRefs id + weigh (Tok.segs id) x = t.segRefs id + weigh (Tok.segs id) y := by
    simp [Tok.segs]
  nvmeLedger : a.ledger → ∀ ns, t'.usedNvme ns + weigh (Tok.nvmeOwed ns) x =
    t.usedNvme ns + weigh (Tok.nvmeOwed ns) y := by simp [Tok.nvmeOwed]
  s3Ledger : a.ledger → ∀ ns, t'.usedS3 ns + weigh (Tok.s3Owed ns) x =
    t.usedS3 ns + weigh (Tok.s3Owed ns) y := by simp [Tok.s3Owed]

theorem Inv.exchange {x y : Own} {i : ℕ → Bool} {w c : ℕ → ℕ} {u v : ℕ → ℤ} (h : Inv a t (x + f))
    (hx : Exchange a t
      { t with inflight := i, writing := w, segRefs := c, usedNvme := u, usedS3 := v } x y) :
    Inv a { t with inflight := i, writing := w, segRefs := c, usedNvme := u, usedS3 := v }
      (y + f) := by
  refine { h with
    latched := ?_, stage := ?_, dying := ?_, footer := ?_, wrote := ?_, writing := ?_
    gone := ?_, counted := ?_, nvmeLedger := ?_, s3Ledger := ?_ }
  · intro id
    have hl := h.latched id
    have hi := hx.latched id
    rw [weigh_add] at hl ⊢
    omega
  · intro id st hst
    have hok : st.Ok t id := by
      rcases mem_add.mp hst with hst | hst
      · exact hx.stage id st hst
      · exact h.stage id st (mem_add.mpr (.inr hst))
    exact hok.mono (fun _ _ hr => hr) (fun _ _ _ => rfl) (fun _ _ _ hs => hs) rfl fun hb => hb
  · intro id g hg hd
    obtain ⟨fl, sw, hst⟩ := h.dying id g hg hd
    rcases mem_add.mp hst with hst | hst
    · obtain ⟨fl, sw, hst⟩ := hx.dying id fl sw hst
      exact ⟨fl, sw, mem_add.mpr (.inl hst)⟩
    · exact ⟨fl, sw, mem_add.mpr (.inr hst)⟩
  · intro id ks hk
    rcases mem_add.mp hk with hk | hk
    · exact hx.footer id ks hk
    · exact h.footer id ks (mem_add.mpr (.inr hk))
  · intro loc k z hz
    rcases mem_add.mp hz with hz | hz
    · exact hx.wrote loc k z hz
    · exact h.wrote loc k z (mem_add.mpr (.inr hz))
  · intro id
    have hw := h.writing id
    have hi := hx.writing id
    rw [weigh_add] at hw ⊢
    dsimp only at hi ⊢
    omega
  · exact fun r b hr => h.gone r b (mem_add.mpr ((mem_add.mp hr).imp_left (hx.gone r b)))
  · intro id
    have hc := h.counted id
    have hi := hx.counted id
    rw [weigh_add] at hc ⊢
    change total t _ + _ ≤ c id ∧ (_ → total t _ + _ = c id)
    dsimp only at hi
    refine ⟨by omega, fun hl => ?_⟩
    have := hc.2 hl
    omega
  · intro hl ns
    have hc := h.nvmeLedger hl ns
    have hi := hx.nvmeLedger hl ns
    rw [weigh_add] at hc ⊢
    change u ns = _ + total t _
    dsimp only at hi
    omega
  · intro hl ns
    have hc := h.s3Ledger hl ns
    have hi := hx.s3Ledger hl ns
    rw [weigh_add] at hc ⊢
    change v ns = _ + total t _
    dsimp only at hi
    omega

/-- Two resources that differ only in how far the owners of one latch have come. -/
structure Restaged (id : ℕ) (m m' : Own) : Prop where
  weigh_eq : ∀ {N : Type} [AddCommMonoid N] (w : Tok → N),
    (∀ st st', w (.latch id st) = w (.latch id st')) → weigh w m' = weigh w m
  mem_iff : ∀ x, (∀ st, x ≠ .latch id st) → (x ∈ m' ↔ x ∈ m)

theorem Restaged.refl (id : ℕ) (m : Own) : Restaged id m m := ⟨fun _ _ => rfl, fun _ _ => Iff.rfl⟩

theorem Restaged.latch (id : ℕ) (st st' : Stage) (f : Own) :
    Restaged id ({.latch id st} + f) ({.latch id st'} + f) := by
  constructor
  · intro N _ w hw
    simp only [weigh_add, weigh_singleton, hw st st']
  · intro x hx
    simp [hx]

theorem Inv.latch_notMem {st : Stage} (h : Inv a t ({.latch id st} + f)) (st' : Stage) :
    .latch id st' ∉ f := by
  intro hx
  obtain ⟨f, rfl⟩ := exists_cons_of_mem hx
  have hl := h.latched id
  rw [weigh_add, weigh_singleton, weigh_cons] at hl
  simp only [Tok.latches, if_true] at hl
  split at hl <;> omega

theorem Inv.restage {st st' : Stage} (h : Inv a t ({.latch id st} + f)) (hok : st'.Ok t id)
    (hret : (∃ fl sw, st = .retiring fl sw) → ∃ fl sw, st' = .retiring fl sw) :
    Inv a t ({.latch id st'} + f) := by
  refine h.exchange { stage := ?_, dying := ?_ }
  · intro id' st'' hx
    rw [mem_singleton, Tok.latch.injEq] at hx
    obtain ⟨rfl, rfl⟩ := hx
    exact hok
  · intro id' fl sw hx
    rw [mem_singleton, Tok.latch.injEq] at hx
    obtain ⟨rfl, hx⟩ := hx
    obtain ⟨fl', sw', rfl⟩ := hret ⟨fl, sw, hx.symm⟩
    exact ⟨fl', sw', by simp⟩

/-- The file of a segment changes: for the segments other than this one nothing does. -/
theorem Inv.setSeg {o : Option Segment} {act : Option ℕ} {n : ℕ} (h : Inv a t m)
    (hs : Restaged id m m') (hn : t.nextSeg ≤ n) (hid : id < n)
    (hhome : o = none → ∀ k r, Homed t k r id → (t.cells r.id).s3Only = true)
    (hmarks : ∀ g, o = some g → (g.spilled = true → g.isSealed = true) ∧
      (g.dying = true → g.isSealed = true))
    (hspill : ∀ g, o = some g → g.spilled = true →
      ∀ k r, Homed t k r id → (t.cells r.id).s3 = true ∧ t.bucket id = true)
    (hact : ∀ i, act = some i →
      (i ≠ id ∧ t.active = some i) ∨ (i = id ∧ ∃ g, o = some g ∧ g.isSealed = false))
    (hfoot : ∀ ks, .footer id ks ∈ m → ∀ g, o = some g → g.isSealed = true)
    (hwrote : ∀ loc k x, .wrote loc k x ∈ m → loc.segmentID ≠ id)
    (hstage : ∀ st, .latch id st ∈ m' → st.Ok
      { t with segs := update t.segs id o, active := act, nextSeg := n } id)
    (hdying : ∀ g, o = some g → g.dying = true → ∃ fl sw, .latch id (.retiring fl sw) ∈ m') :
    Inv a { t with segs := update t.segs id o, active := act, nextSeg := n } m' := by
  have hself : update t.segs id o id = o := update_self _ _ _
  have hne : ∀ {id'}, id' ≠ id → update t.segs id o id' = t.segs id' :=
    fun hid => update_of_ne hid _ _
  refine { h with
    recorded := ?_, home := ?_, spilled := ?_, files := ?_, active := ?_, latched := ?_, stage := ?_
    dying := ?_, footer := ?_, wrote := ?_, writing := ?_, gone := ?_, counted := ?_
    nvmeLedger := ?_, s3Ledger := ?_ }
  · intro k r hk
    obtain ⟨h1, h2, h3, h4⟩ := h.recorded k r hk
    exact ⟨h1, h2, Nat.lt_of_lt_of_le h3 hn, h4⟩
  · intro k r hk hcold
    change (update t.segs id o r.loc.segmentID).isSome = true
    by_cases hr : r.loc.segmentID = id
    · rw [hr, hself]
      cases o with
      | some g => rfl
      | none => exact absurd (hcold.symm.trans (hhome rfl k r ⟨hk, hr⟩)) (by decide)
    · rw [hne hr]
      exact h.home k r hk hcold
  · intro k r g hk hg hsp
    change update t.segs id o r.loc.segmentID = some g at hg
    by_cases hr : r.loc.segmentID = id
    · rw [hr, hself] at hg
      exact hr ▸ hspill g hg hsp k r ⟨hk, hr⟩
    · exact h.spilled k r g hk (hne hr ▸ hg) hsp
  · intro id' g hg
    change update t.segs id o id' = some g at hg
    by_cases hi : id' = id
    · rw [hi, hself] at hg
      exact ⟨hi ▸ hid, hmarks g hg⟩
    · obtain ⟨h1, h2⟩ := h.files id' g (hne hi ▸ hg)
      exact ⟨Nat.lt_of_lt_of_le h1 hn, h2⟩
  · intro i hi
    rcases hact i hi with ⟨hi, ha⟩ | ⟨rfl, g, hg, hopen⟩
    · obtain ⟨g, hg, hopen⟩ := h.active i ha
      exact ⟨g, (hne hi).trans hg, hopen⟩
    · exact ⟨g, hself.trans hg, hopen⟩
  · intro id'
    rw [hs.weigh_eq _ fun _ _ => rfl]
    exact h.latched id'
  · intro id' st hx
    by_cases hi : id' = id
    · subst hi
      exact hstage st hx
    · exact (h.stage id' st ((hs.mem_iff _ (by simp [hi])).mp hx)).mono (fun _ _ hr => hr)
        (fun _ _ _ => rfl) (fun _ _ _ hr => hr) (hne hi) fun hb => hb
  · intro id' g hg hd
    change update t.segs id o id' = some g at hg
    by_cases hi : id' = id
    · rw [hi, hself] at hg
      exact hi ▸ hdying g hg hd
    · obtain ⟨fl, sw, hx⟩ := h.dying id' g (hne hi ▸ hg) hd
      exact ⟨fl, sw, (hs.mem_iff _ (by simp [hi])).mpr hx⟩
  · intro id' ks hx
    have hm := (hs.mem_iff _ (by simp)).mp hx
    obtain ⟨hcl, hks⟩ := h.footer id' ks hm
    refine ⟨⟨Nat.lt_of_lt_of_le hcl.1 hn, fun g hg => ?_⟩, hks⟩
    change update t.segs id o id' = some g at hg
    by_cases hi : id' = id
    · rw [hi, hself] at hg
      exact hfoot ks (hi ▸ hm) g hg
    · exact hcl.2 g (hne hi ▸ hg)
  · intro loc k x hx
    have hm := (hs.mem_iff _ (by simp)).mp hx
    obtain ⟨⟨g, hg, hopen⟩, hrest⟩ := h.wrote loc k x hm
    exact ⟨⟨g, (hne (hwrote loc k x hm)).trans hg, hopen⟩, hrest⟩
  · intro id'
    rw [hs.weigh_eq _ fun _ _ => rfl]
    exact h.writing id'
  · exact fun r b hx => h.gone r b ((hs.mem_iff _ (by simp)).mp hx)
  · intro id'
    rw [hs.weigh_eq _ fun _ _ => rfl]
    exact h.counted id'
  · intro hl ns
    rw [hs.weigh_eq _ fun _ _ => rfl]
    exact h.nvmeLedger hl ns
  · intro hl ns
    rw [hs.weigh_eq _ fun _ _ => rfl]
    exact h.s3Ledger hl ns

theorem Inv.reseg {o : Option Segment} (h : Inv a t m) (hc : Closed t id) (hs : Restaged id m m')
    (hhome : o = none → ∀ k r, Homed t k r id → (t.cells r.id).s3Only = true)
    (hseal : ∀ g, o = some g → g.isSealed = true)
    (hspill : ∀ g, o = some g → g.spilled = true →
      ∀ k r, Homed t k r id → (t.cells r.id).s3 = true ∧ t.bucket id = true)
    (hstage : ∀ st, .latch id st ∈ m' → st.Ok { t with segs := update t.segs id o } id)
    (hdying : ∀ g, o = some g → g.dying = true → ∃ fl sw, .latch id (.retiring fl sw) ∈ m') :
    Inv a { t with segs := update t.segs id o } m' := by
  have hopen : ∀ {i}, Writable t i → i ≠ id := by
    rintro i ⟨g, hg, hg'⟩ rfl
    rw [hc.2 g hg] at hg'
    cases hg'
  exact h.setSeg hs (le_refl _) hc.1 hhome
    (fun g hg => ⟨fun _ => hseal g hg, fun _ => hseal g hg⟩) hspill
    (fun i hi => .inl ⟨hopen (h.active i hi), hi⟩) (fun _ _ => hseal)
    (fun loc k x hx => hopen (h.wrote loc k x hx).1) hstage hdying

/-! ### Knowledge of closed segments -/

theorem Inv.know (h : Inv a t f) (hc : Closed t id) :
    Inv a t ({.footer id (t.entryKeys id)} + f) := by
  rw [← zero_add f] at h
  refine h.exchange { footer := ?_ }
  intro id' ks hx
  rw [mem_singleton, Tok.footer.injEq] at hx
  obtain ⟨rfl, rfl⟩ := hx
  exact ⟨hc, rfl⟩

theorem Inv.forget {ks : List Key} (h : Inv a t ({.footer id ks} + f)) : Inv a t f := by
  rw [← zero_add f]
  exact h.exchange {}

end KVStash.Tiered.Disk
