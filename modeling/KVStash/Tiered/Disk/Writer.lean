/- GID: KVStash/Tiered/Disk/Writer
   digest: What the appends of the writer and the sealing of its segments take and give. -/

import KVStash.Tiered.Disk.Segments

set_option autoImplicit false

namespace KVStash.Tiered.Disk

open Protocol Foundation.Tally Function Multiset
open Dram.Tier (Key Audit)

variable {a : Audit} {t t' : Tiers} {m m' f : Own} {k : Key} {r : NvmeRef} {id : ℕ}

/-! ### The writer -/

private theorem recordAt_append {loc : Loc} {x : ℕ} {rec : Record} {data : List UInt8}
    (h : t.recordAt loc k x = some data) :
    Tiers.recordAt { t with log := update t.log id (t.log id ++ [rec]) } loc k x =
      some data := by
  unfold Tiers.recordAt at h ⊢
  by_cases hid : loc.segmentID = id
  · rw [hid] at h ⊢
    dsimp only
    rw [update_self]
    split at h
    · cases h
    · next rec' hrec =>
      rw [List.getElem?_append_left (List.getElem?_eq_some_iff.mp hrec).1, hrec]
      exact h
  · dsimp only
    rw [update_of_ne hid]
    exact h

private theorem recordAt_last {x : ℕ} {data : List UInt8} :
    Tiers.recordAt { t with log := update t.log id (t.log id ++ [⟨k, x, data⟩]) }
      ⟨id, (t.log id).length, data.length⟩ k x = some data := by
  simp [Tiers.recordAt]

private theorem Inv.log {rec : Record} (h : Inv a t m) (hw : Writable t id)
    (hl : a.ledger → rec.data.length = a.lenOf rec.xxh3) :
    Inv a { t with log := update t.log id (t.log id ++ [rec]) } m := by
  refine { h with recorded := ?_, stage := ?_, footer := ?_, wrote := ?_, sized := ?_ }
  · intro k' r hk
    obtain ⟨h1, h2, h3, d, hrec⟩ := h.recorded k' r hk
    exact ⟨h1, h2, h3, d, recordAt_append hrec⟩
  · exact fun id' st hx => (h.stage id' st hx).mono (fun _ _ hr => hr) (fun _ _ _ => rfl)
      (fun _ _ _ hr => hr) rfl (fun hb => hb)
  · intro id' ks hx
    obtain ⟨hc, hks⟩ := h.footer id' ks hx
    have hne : id' ≠ id := by
      rintro rfl
      obtain ⟨g, hg, hg'⟩ := hw
      rw [hc.2 g hg] at hg'
      cases hg'
    rw [← hks]
    exact ⟨hc, congrArg (List.map Record.key) (update_of_ne hne _ _)⟩
  · intro loc k' x' hx
    obtain ⟨h1, h2, d, hrec⟩ := h.wrote loc k' x' hx
    exact ⟨h1, h2, d, recordAt_append hrec⟩
  · intro hled id' rec' hrec
    change rec' ∈ update t.log id (t.log id ++ [rec]) id' at hrec
    by_cases hid : id' = id
    · rw [hid, update_self, List.mem_append, List.mem_singleton] at hrec
      rcases hrec with hrec | rfl
      · exact h.sized hled id rec' hrec
      · exact hl hled
    · rw [update_of_ne hid] at hrec
      exact h.sized hled id' rec' hrec

theorem append_holds (k : Key) (x : ℕ) {data : List UInt8} (hd : 0 < data.length)
    (hl : a.ledger → data.length = a.lenOf x) : Holds a (.append k x data) 0 fun o m' =>
      (∀ loc, o = .written loc → m' = {.wrote loc k x} ∧ loc.len = data.length) ∧
        ((∀ loc, o ≠ .written loc) → m' = 0) := by
  intro now t f h env o t' he
  rw [zero_add] at h
  simp only [exec] at he
  split at he
  · next id hact =>
    have hw := h.active id hact
    cases he
    refine ⟨{.wrote ⟨id, (t.log id).length, data.length⟩ k x}, ?_, ?_, ?_⟩
    · have hlog := h.log hw (show a.ledger → (Record.mk k x data).data.length = _ from hl)
      rw [← zero_add f] at hlog
      refine hlog.exchange { wrote := ?_, writing := ?_ }
      · intro loc k' x' hx
        rw [mem_singleton, Tok.wrote.injEq] at hx
        obtain ⟨rfl, rfl, rfl⟩ := hx
        exact ⟨hw, hd, data, recordAt_last⟩
      · intro id'
        rw [weigh_zero, weigh_singleton, add_zero]
        change update t.writing id (t.writing id + 1) id' = t.writing id' + if id =
          id' then 1 else 0
        by_cases hid : id' = id
        · rw [hid, update_self, if_pos rfl]
        · rw [update_of_ne hid, if_neg (Ne.symm hid), add_zero]
    · rintro loc ⟨⟩
      exact ⟨rfl, rfl⟩
    · exact fun hn => absurd rfl (hn _)
  · cases he
    exact ⟨0, by rwa [zero_add], by simp, fun _ => rfl⟩
  · cases he
    exact ⟨0, by rwa [zero_add], by simp, fun _ => rfl⟩

theorem written_holds (loc : Loc) (k : Key) (x : ℕ) :
    Holds a (.written loc.segmentID) {.wrote loc k x} fun _ m' => m' = 0 := by
  intro now t f h env o t' he
  cases he
  refine ⟨0, h.exchange { writing := ?_ }, rfl⟩
  intro id'
  have hw := h.writing loc.segmentID
  rw [weigh_add, weigh_singleton, Tok.writes, if_pos rfl] at hw
  rw [weigh_zero, weigh_singleton, add_zero]
  change update t.writing loc.segmentID (t.writing loc.segmentID - 1) id' +
    (if loc.segmentID = id' then 1 else 0) = _
  by_cases hid : id' = loc.segmentID
  · rw [hid, update_self, if_pos rfl]
    omega
  · rw [update_of_ne hid, if_neg (Ne.symm hid), add_zero]

theorem sealActive_holds : Holds a .sealActive 0 fun _ m' => m' = 0 := by
  intro now t f h env o t' he
  rw [zero_add] at h
  refine ⟨0, ?_, rfl⟩
  rw [zero_add]
  simp only [exec] at he
  split at he
  · next id hact =>
    split at he
    · next hidle =>
      obtain ⟨g, hg, hgs⟩ := h.active id hact
      rw [onSeg_of_some hg] at he
      cases he
      have hself : (update t.segs id (some { g with isSealed := true })) id =
          some { g with isSealed := true } := update_self _ _ _
      refine h.setSeg (Restaged.refl id f) (le_refl _) (h.files id g hg).1 (by simp) ?_ ?_
        (by simp) ?_ ?_ ?_ ?_
      · rintro g' ⟨⟩
        exact ⟨fun _ => rfl, fun _ => rfl⟩
      · rintro g' ⟨⟩ hs k r hr
        rw [← hr.2]
        exact h.spilled k r g hr.1 (hr.2 ▸ hg) hs
      · rintro ks - g' ⟨⟩
        rfl
      · rintro loc k x hx rfl
        have hw := h.writing loc.segmentID
        rw [hidle] at hw
        obtain ⟨f', rfl⟩ := exists_cons_of_mem hx
        rw [weigh_cons, Tok.writes, if_pos rfl] at hw
        omega
      · intro st hx
        have hok := h.stage id st hx
        apply hok.of_unsealed
        · rintro ⟨g', hg', hs'⟩
          rw [hg, Option.some.injEq] at hg'
          rw [← hg', hgs] at hs'
          cases hs'
        · exact congrArg Option.isSome hself
        · rintro rfl
          exact hok
        · rintro rfl k r hr
          obtain ⟨h1, g', hg', hs'⟩ := hok k r hr
          rw [hg, Option.some.injEq] at hg'
          exact ⟨h1, _, hself, hg'.symm ▸ hs'⟩
      · rintro g' ⟨⟩ hd
        exact h.dying id g hg hd
    · cases he
  · cases he
    exact h
  · cases he
    exact h

private theorem Inv.openFresh (h : Inv a t m) :
    Inv a { t with
      segs := update t.segs t.nextSeg (some ⟨false, false, false⟩)
      active := some t.nextSeg
      nextSeg := t.nextSeg + 1 } m := by
  have hold : ∀ {id g}, t.segs id = some g → id ≠ t.nextSeg :=
    fun hg => Nat.ne_of_lt (h.files _ _ hg).1
  refine h.setSeg (Restaged.refl t.nextSeg m) (Nat.le_succ _) (Nat.lt_succ_self _)
    (by simp) ?_ ?_ ?_ ?_ ?_ ?_ ?_
  · rintro g ⟨⟩
    exact ⟨id, id⟩
  · rintro g ⟨⟩ hs
    cases hs
  · rintro i ⟨⟩
    exact .inr ⟨rfl, _, rfl, rfl⟩
  · intro ks hx
    exact absurd (h.footer _ ks hx).1.1 (Nat.lt_irrefl _)
  · intro loc k x hx
    obtain ⟨⟨g, hg, -⟩, -⟩ := h.wrote loc k x hx
    exact hold hg
  · intro st hx
    have hok := h.stage t.nextSeg st hx
    apply hok.of_unsealed
    · rintro ⟨g, hg, -⟩
      exact hold hg rfl
    · exact congrArg Option.isSome (update_self t.nextSeg (some _) t.segs)
    · rintro rfl
      exact hok
    · rintro rfl k r hr
      exact absurd hr.2 (Nat.ne_of_lt (h.recorded k r hr.1).2.2.1)
  · rintro g ⟨⟩ hd
    cases hd

theorem openActive_holds : Holds a .openActive 0 fun _ m' => m' = 0 := by
  intro now t f h env o t' he
  rw [zero_add] at h
  refine ⟨0, ?_, rfl⟩
  rw [zero_add]
  simp only [exec] at he
  split at he
  · cases he
    exact h.openFresh
  cases he
  refine { h with recorded := ?_, files := ?_, footer := ?_ }
  · intro k r hk
    obtain ⟨h1, h2, h3, h4⟩ := h.recorded k r hk
    exact ⟨h1, h2, Nat.lt_succ_of_lt h3, h4⟩
  · intro id g hg
    obtain ⟨h1, h2⟩ := h.files id g hg
    exact ⟨Nat.lt_succ_of_lt h1, h2⟩
  · intro id ks hx
    obtain ⟨hc, hks⟩ := h.footer id ks hx
    exact ⟨⟨Nat.lt_succ_of_lt hc.1, hc.2⟩, hks⟩

end KVStash.Tiered.Disk
