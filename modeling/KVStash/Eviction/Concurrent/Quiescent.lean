/- GID: KVStash/Eviction/Concurrent/Quiescent
   digest: The queues and the tables of all domains once every call has returned. -/

import KVStash.Eviction.Concurrent.Invariant
import KVStash.Foundation.Run

set_option autoImplicit false

namespace KVStash.Eviction

open Foundation Foundation.Run AList Option

namespace Concurrent

variable {p : Settings} {d : Domain} {t : ℕ} {pc : Pc}

namespace World

def view (w : World) (ns : UInt32) : Calls := fun t =>
  (w.calls.lookup t).bind fun c => if c.1 = ns then some c.2 else none

/-- Every domain is right together with the calls on it, and a call has its domain. -/
structure Ok (p : Settings) (w : World) : Prop where
  domain : ∀ ns d, w.domains.lookup ns = some d → Inv p d (w.view ns)
  present : ∀ t ns pc, w.calls.lookup t = some (ns, pc) → ∃ d, w.domains.lookup ns = some d

/-- The step of a scan finds no entry but its own under the key that it deletes. -/
def Undisturbed (p : Settings) (w : World) : Event → Prop
  | .call _ _ => True
  | .step t => (w.calls.lookup t).all (fun c => (w.domains.lookup c.1).all (c.2.clear p)) = true

instance (p : Settings) (w : World) : (ev : Event) → Decidable (w.Undisturbed p ev)
  | .call _ _ => isTrue trivial
  | .step t =>
      inferInstanceAs
        (Decidable
          ((w.calls.lookup t).all (fun c => (w.domains.lookup c.1).all (c.2.clear p)) = true))

variable {w w' : World} {ns ns' : UInt32} {x : Pc ⊕ List Candidate}

theorem ok_new : Ok p new where
  domain ns d h := by
    rw [new, lookup_empty] at h
    cases h
  present t ns pc h := by
    rw [new, lookup_empty] at h
    cases h

theorem view_goes_self (w : World) (t : ℕ) (ns : UInt32) (x : Pc ⊕ List Candidate) :
    (w.goes t ns x).view ns = Function.update (w.view ns) t x.getLeft? := by
  funext t'
  by_cases ht : t' = t
  · subst ht
    rw [Function.update_self]
    cases x with
    | inl pc => rw [view, goes, lookup_insert, bind_some, if_pos rfl]; rfl
    | inr dst => rw [view, goes, lookup_erase]; rfl
  · rw [Function.update_of_ne ht]
    cases x with
    | inl pc => rw [view, goes, lookup_insert_ne ht]; rfl
    | inr dst => rw [view, goes, lookup_erase_ne ht]; rfl

theorem view_goes_of_ne (hns : ns' ≠ ns) (ht : w.view ns' t = none) :
    (w.goes t ns x).view ns' = w.view ns' := by
  funext t'
  by_cases htt : t' = t
  · subst htt
    rw [ht]
    cases x with
    | inl pc => rw [view, goes, lookup_insert, bind_some, if_neg (Ne.symm hns)]
    | inr dst => rw [view, goes, lookup_erase]; rfl
  · cases x with
    | inl pc => rw [view, goes, lookup_insert_ne htt]; rfl
    | inr dst => rw [view, goes, lookup_erase_ne htt]; rfl

theorem domains_goes (w : World) (t : ℕ) (ns : UInt32) (x : Pc ⊕ List Candidate) :
    (w.goes t ns x).domains = w.domains := by
  cases x <;> rfl

theorem calls_goes {t' : ℕ} {pc : Pc} (h : (w.goes t ns x).calls.lookup t' = some (ns', pc)) :
    ns' = ns ∨ w.calls.lookup t' = some (ns', pc) := by
  by_cases htt : t' = t
  · subst htt
    cases x with
    | inl pc =>
      rw [goes, lookup_insert] at h
      cases h
      exact .inl rfl
    | inr dst =>
      rw [goes, lookup_erase] at h
      cases h
  · refine .inr ?_
    cases x with
    | inl pc => rwa [goes, lookup_insert_ne htt] at h
    | inr dst => rwa [goes, lookup_erase_ne htt] at h

theorem Ok.goes (h : w.Ok p) (hd : w'.domains.lookup ns = some d) (hcalls : w'.calls = w.calls)
    (hother : ∀ ns', ns' ≠ ns → w'.domains.lookup ns' = w.domains.lookup ns')
    (ht : ∀ ns', ns' ≠ ns → w.view ns' t = none)
    (hinv : Inv p d (Function.update (w.view ns) t x.getLeft?)) : (w'.goes t ns x).Ok p := by
  have hview : ∀ ns, w'.view ns = w.view ns := fun ns => by
    unfold view
    rw [hcalls]
  refine ⟨fun ns' d' hd' => ?_, fun t' ns' pc hc => ?_⟩
  · rw [domains_goes] at hd'
    by_cases hns : ns' = ns
    · subst hns
      rw [hd] at hd'
      cases hd'
      rw [view_goes_self, hview]
      exact hinv
    · rw [view_goes_of_ne hns (by rw [hview]; exact ht ns' hns), hview]
      rw [hother ns' hns] at hd'
      exact h.domain ns' d' hd'
  · rw [domains_goes]
    by_cases hns : ns' = ns
    · exact ⟨d, hns ▸ hd⟩
    · rw [hother ns' hns]
      exact h.present t' ns' pc (hcalls ▸ (calls_goes hc).resolve_left hns)

theorem Ok.ignored (h : w.Ok p) (hnew : w.calls.lookup t = none) (ns : UInt32)
    (dst : List Candidate) : (w.goes t ns (.inr dst)).Ok p := by
  have hcalls : (w.goes t ns (.inr dst)).calls = w.calls := Table.erase_of_lookup_none hnew
  have hview : ∀ ns', (w.goes t ns (.inr dst)).view ns' = w.view ns' := fun ns' => by
    unfold view
    rw [hcalls]
  refine ⟨fun ns' d hd => ?_, fun t' ns' pc hc => h.present t' ns' pc (hcalls ▸ hc)⟩
  rw [hview]
  exact h.domain ns' d hd

theorem Ok.starts (h : w.Ok p) (hnew : w.calls.lookup t = none) (hd : w.domains.lookup ns = some d)
    (hpc : Bystander (some pc)) : (w.goes t ns (.inl pc)).Ok p := by
  have hview : ∀ ns', w.view ns' t = none := fun ns' => by rw [view, hnew]; rfl
  have hinv := h.domain ns d hd
  refine h.goes hd rfl (fun _ _ => rfl) (fun ns' _ => hview ns')
    (hinv.bystander hinv.ok.refl ?_ hpc)
  rw [hview]
  trivial

theorem Ok.ensureDomain (h : w.Ok p) (ns : UInt32) :
    (w.ensureDomain ns).Ok p ∧ (w.ensureDomain ns).calls = w.calls ∧
      ∃ d, (w.ensureDomain ns).domains.lookup ns = some d := by
  unfold World.ensureDomain
  cases hd : w.domains.lookup ns with
  | some d => exact ⟨h, rfl, d, hd⟩
  | none =>
    have hview : w.view ns = fun _ => none := by
      funext t
      unfold view
      cases hc : w.calls.lookup t with
      | none => rfl
      | some c =>
        refine if_neg fun heq => ?_
        obtain ⟨d, hd'⟩ := h.present t c.1 c.2 hc
        rw [heq, hd] at hd'
        cases hd'
    refine ⟨⟨fun ns' d' hd' => ?_, fun t ns' pc hc => ?_⟩, rfl, _, lookup_insert _⟩
    · by_cases hns : ns' = ns
      · subst hns
        rw [lookup_insert] at hd'
        cases hd'
        exact hview ▸ inv_new
      · rw [lookup_insert_ne hns] at hd'
        exact h.domain ns' d' hd'
    · obtain ⟨d, hd'⟩ := h.present t ns' pc hc
      refine ⟨d, ?_⟩
      rw [lookup_insert_ne, hd']
      rintro rfl
      rw [hd] at hd'
      cases hd'

theorem Ok.begin (h : w.Ok p) (hnew : w.calls.lookup t = none) (c : Call) : (w.begin t c).Ok p := by
  cases c with
  | admitKey k size now =>
    rw [World.begin]
    split
    · exact h.ignored hnew k.ns []
    · obtain ⟨hok, hcalls, d, hd⟩ := h.ensureDomain k.ns
      exact hok.starts (hcalls ▸ hnew) hd trivial
  | touch k =>
    rw [World.begin]
    split
    · obtain ⟨d, hd⟩ := isSome_iff_exists.mp ‹_›
      exact h.starts hnew hd trivial
    · exact h.ignored hnew k.ns []
  | remove k =>
    rw [World.begin]
    split
    · obtain ⟨d, hd⟩ := isSome_iff_exists.mp ‹_›
      exact h.starts hnew hd trivial
    · exact h.ignored hnew k.ns []
  | victims ns need now =>
    rw [World.begin]
    split
    · rename_i hneed
      obtain ⟨d, hd⟩ := isSome_iff_exists.mp hneed.1
      exact h.starts hnew hd trivial
    · exact h.ignored hnew ns []

theorem locked_eq (w : World) (ns : UInt32) (t : ℕ) (l : Lock) :
    (w.locked ns t l).domains = w.domains ∧ (w.locked ns t l).calls = w.calls := by
  cases l <;> exact ⟨rfl, rfl⟩

theorem Ok.step {ev : Event} (h : w.Ok p) (hu : w.Undisturbed p ev) (hs : w.step p ev = some w') :
    w'.Ok p := by
  cases ev with
  | call t c =>
    rw [World.step] at hs
    split at hs
    · cases hs
    · cases hs
      exact h.begin (not_isSome_iff_eq_none.mp ‹_›) c
  | step t =>
    obtain ⟨⟨ns, pc⟩, hc, hs⟩ := bind_eq_some_iff.mp hs
    obtain ⟨d, hd, hs⟩ := bind_eq_some_iff.mp hs
    obtain ⟨o, ho, rfl⟩ := map_eq_some_iff.mp hs
    obtain ⟨hdom, hcalls⟩ :=
      locked_eq { w with domains := w.domains.insert ns o.domain } ns t o.lock
    have hv : w.view ns t = some pc := by rw [view, hc, bind_some, if_pos rfl]
    have hclear : pc.clear p d = true := by
      rw [Undisturbed, hc, all_some, hd, all_some] at hu
      exact hu
    refine h.goes (d := o.domain) ?_ hcalls (fun ns' hns => ?_) (fun ns' hns => ?_)
      ((h.domain ns d hd).advance hv hclear ho)
    · rw [hdom, lookup_insert]
    · rw [hdom, lookup_insert_ne hns]
    · rw [view, hc, bind_some, if_neg (Ne.symm hns)]

theorem Ok.quiescent (h : w.Ok p) (hquiet : ∀ t, w.calls.lookup t = none)
    (hd : w.domains.lookup ns = some d) : ∃ S M, d.Consistent p S M := by
  have hinv := h.domain ns d hd
  have hview : ∀ t, w.view ns t = none := fun t => by rw [view, hquiet]; rfl
  refine hinv.ok.consistent (fun k e hk => ?_) fun e hst => ?_
  · obtain ⟨-, hkey, hq | ⟨-, t, now, hq⟩ | ⟨-, t, s, hq⟩⟩ := hinv.table k e hk
    · exact ⟨hkey, hq⟩
    · rw [hview] at hq
      cases hq
    · rw [hview] at hq
      cases hq
  · obtain ⟨S, M, hqs⟩ := hinv.ok
    have hlt : e < d.fresh := hqs.lt_fresh fun hp => by
      rw [Domain.stage, hp] at hst
      cases hst
    rcases hinv.held e hlt (by simp [hst]) with hk | ⟨t, hq⟩
    · exact hk
    · rw [hview] at hq
      cases hq

end World

/-- Any interleaving of the sections of any number of calls, in which no scan deletes a table entry
that is not its own, leaves the queues and the table of every domain in agreement when all calls
have returned. -/
theorem quiescent_consistent (p : Settings) (evs : List World.Event) (w : World)
    (hrun : run (World.step p) World.new evs = some w)
    (hclear : Along (World.step p) (World.Undisturbed p) World.new evs)
    (hquiet : ∀ t, w.calls.lookup t = none) (ns : UInt32) (d : Domain)
    (hd : w.domains.lookup ns = some d) : ∃ S M, d.Consistent p S M :=
  (run_invariant (fun _ _ _ h hu hs => World.Ok.step h hu hs) World.ok_new hclear hrun).quiescent
    hquiet hd

/-- Two admissions whose sections alternate, and a scan that evicts one of the two keys. -/
def alternating : List World.Event :=
  [.call 0 (.admitKey ⟨1, 7⟩ 1 0), .call 1 (.admitKey ⟨1, 8⟩ 1 0), .step 0, .step 1,
    .step 1, .step 0, .call 2 (.victims 1 1 0), .step 2, .step 2, .step 2, .step 2, .step 2]

private theorem lookup_of_isEmpty {w : World} (h : w.calls.entries.isEmpty = true) (t : ℕ) :
    w.calls.lookup t = none := by
  rw [lookup, List.isEmpty_iff.mp h]
  rfl

theorem quiescent_consistent_alternating :
    ∃ w d, run (World.step ⟨0, 0⟩) World.new alternating = some w ∧
    w.domains.lookup 1 = some d ∧ ∃ S M, d.Consistent ⟨0, 0⟩ S M := by
  have hany : ∃ w ∈ run (World.step ⟨0, 0⟩) World.new alternating, w.calls.entries.isEmpty ∧
      (w.domains.lookup 1).isSome := by decide +kernel
  obtain ⟨w, hrun, hw⟩ := hany
  obtain ⟨d, hd⟩ := isSome_iff_exists.mp hw.2
  have hclear : Along (World.step ⟨0, 0⟩) (World.Undisturbed ⟨0, 0⟩) World.new alternating := by
    decide +kernel
  exact ⟨w, d, hrun, hd,
    quiescent_consistent ⟨0, 0⟩ alternating w hrun hclear (lookup_of_isEmpty hw.1) 1 d hd⟩

/-- A key is removed and admitted again while a scan has its first entry. -/
def lateRemoval : List World.Event :=
  let k : Key := ⟨1, 7⟩
  [.call 0 (.admitKey k 1 0), .step 0, .step 0,
    -- the removal has deleted the table entry and waits for the queues
    .call 1 (.remove k), .step 1, .call 0 (.admitKey k 1 0), .step 0, .step 0,
    -- the scan takes the first entry and deletes the key, which is the second entry's
    .call 2 (.victims 1 1 0), .step 2, .step 2, .step 2, .step 2, .step 2, .step 1]

/-- When all have returned the second entry is queued and not in the table. -/
theorem lateRemoval_orphans : ∃ w d, run (World.step ⟨0, 0⟩) World.new lateRemoval = some w ∧
    (∀ t, w.calls.lookup t = none) ∧ w.domains.lookup 1 = some d ∧
      ¬∃ S M, d.Consistent ⟨0, 0⟩ S M := by
  have hany : ∃ w ∈ run (World.step ⟨0, 0⟩) World.new lateRemoval, w.calls.entries.isEmpty ∧
      ∃ d ∈ w.domains.lookup 1, d.small.head = some 1 ∧ d.get ⟨0, 0⟩ (d.entry 1).key = none := by
        decide +kernel
  obtain ⟨w, hrun, hw, d, hd, hw'⟩ := hany
  refine ⟨w, d, hrun, lookup_of_isEmpty hw, hd, ?_⟩
  rintro ⟨S, M, hc⟩
  have hmem : 1 ∈ S := LinkedSegment.mem_of_first_none (hc.small.head.symm.trans hw'.1)
  obtain ⟨k, hk⟩ := (hc.entries 1).mp (List.mem_append_left M hmem)
  rw [hc.key k 1 hk, hk] at hw'
  cases hw'.2

end Concurrent

end KVStash.Eviction
