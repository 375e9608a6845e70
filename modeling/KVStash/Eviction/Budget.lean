/- GID: KVStash/Eviction/Budget
   digest: The victim scan of S3-FIFO covers its need or empties the domain before its budget ends.
     -/

import KVStash.Eviction.Refinement
import Mathlib.Algebra.Order.BigOperators.Group.Finset

set_option autoImplicit false

namespace KVStash.Eviction

open Foundation Option List

/-- The visits that an entry can still cost: one to leave the small queue, one for each time it was
touched, and one to be expelled. -/
def Entry.visits (x : Entry) : ℕ :=
  match x.place with
  | .small => x.freq + 2
  | .main => x.freq + 1
  | .unqueued | .dead => 0

theorem Entry.visits_le {x : Entry} (h : x.freq ≤ 3) : x.visits ≤ 5 := by
  unfold Entry.visits
  split <;> omega

namespace Domain

variable {p : Settings} {d d' : Domain} {S M : List ℕ} {e : ℕ} {v : Visit}

def potential (d : Domain) : ℕ := ∑ e ∈ Finset.range d.fresh, (d.entry e).visits

def FreqBounded (d : Domain) : Prop := ∀ e, (d.entry e).freq ≤ 3

theorem potential_lt (hfresh : d'.fresh = d.fresh) (he : e < d.fresh)
    (hother : ∀ n, n ≠ e → d'.entry n = d.entry n)
    (hlt : (d'.entry e).visits < (d.entry e).visits) : d'.potential < d.potential := by
  rw [potential, potential, hfresh]
  refine Finset.sum_lt_sum (fun n _ => ?_) ⟨e, Finset.mem_range.mpr he, hlt⟩
  by_cases hn : n = e
  · rw [hn]
    exact hlt.le
  · rw [hother n hn]

theorem setPlace_of_ne {n : ℕ} (hn : n ≠ e) (w : Where) : (d.setPlace e w).entry n = d.entry n := by
  rw [entry_setPlace, if_neg (Ne.symm hn)]

theorem visits_setPlace (d : Domain) (e : ℕ) (w : Where) :
    ((d.setPlace e w).entry e).visits = Entry.visits { d.entry e with place := w } := by
  rw [entry_setPlace, if_pos rfl]

theorem freq_setPlace (d : Domain) (e : ℕ) (w : Where) (n : ℕ) :
    ((d.setPlace e w).entry n).freq = (d.entry n).freq := by
  rw [entry_setPlace]
  split <;> rfl

theorem entry_maybeGrowGhost (p : Settings) (d : Domain) :
    (d.maybeGrowGhost p).entry = d.entry ∧ (d.maybeGrowGhost p).fresh = d.fresh := by
  obtain ⟨g, hg⟩ := maybeGrowGhost_eq p d
  rw [hg]
  exact ⟨rfl, rfl⟩

theorem entry_toMain (p : Settings) (d : Domain) (e : ℕ) :
    (d.toMain p e).entry = (d.setPlace e .main).entry ∧ (d.toMain p e).fresh = d.fresh := by
  unfold toMain
  dsimp only
  split
  · exact entry_maybeGrowGhost p _
  · exact ⟨rfl, rfl⟩

/-- What holds of the domain after a visit that changed it. -/
def Visit.After (Q : Domain → Prop) : Visit → Prop
  | .dry => True
  | .moved d => Q d
  | .expel d _ => Q d

theorem Queues.visitSmall_spends (hq : Queues none d (e :: S) M) (hv : d.visitSmall p = some v) :
    v.After fun d' => d'.potential < d.potential := by
  have hplace : (d.entry e).place = .small := (hq.mem_small e nofun).mp mem_cons_self
  have hlt : e < d.fresh := hq.lt_fresh (by rw [hplace]; nofun)
  have hvisits : (d.entry e).visits = (d.entry e).freq + 2 := by rw [Entry.visits, hplace]
  obtain ⟨h', q', hpop, -, -⟩ := hq.small.popHead
  rw [Domain.visitSmall, hpop, map_some] at hv
  cases hv
  dsimp only
  split
  · -- it costs the same visits as a main entry, without the one that moved it
    obtain ⟨hentry, hfresh⟩ := entry_toMain p
      { d with links := h', small := q', smallBytes := d.smallBytes - (d.entry e).size } e
    refine potential_lt hfresh hlt (fun n hn => ?_) ?_
    · rw [hentry]
      exact setPlace_of_ne hn .main
    rw [hentry]
    refine (visits_setPlace d e .main).trans_lt ?_
    rw [hvisits, Entry.visits]
    exact Nat.lt_succ_self _
  · refine potential_lt (e := e) rfl hlt (fun n hn => setPlace_of_ne hn .dead) ?_
    refine (visits_setPlace d e .dead).trans_lt ?_
    rw [hvisits, Entry.visits]
    exact Nat.succ_pos _

theorem Queues.visitMain_spends (hq : Queues none d S (e :: M)) (hv : d.visitMain = some v) :
    v.After fun d' => d'.potential < d.potential := by
  have hplace : (d.entry e).place = .main := (hq.mem_main e nofun).mp mem_cons_self
  have hlt : e < d.fresh := hq.lt_fresh (by rw [hplace]; nofun)
  have hvisits : (d.entry e).visits = (d.entry e).freq + 1 := by rw [Entry.visits, hplace]
  obtain ⟨h', q', hpop, -, -⟩ := hq.main.popHead
  rw [Domain.visitMain, hpop, map_some] at hv
  cases hv
  dsimp only
  split
  · rename_i hfreq
    refine potential_lt (e := e) rfl hlt (fun n hn => ?_) ?_
    · change (d.setFreq e _).entry n = _
      rw [entry_setFreq, if_neg (Ne.symm hn)]
    change ((d.setFreq e ((d.entry e).freq - 1)).entry e).visits < _
    rw [entry_setFreq, if_pos rfl, hvisits, Entry.visits, hplace]
    change 0 < (d.entry e).freq at hfreq
    dsimp only
    omega
  · refine potential_lt (e := e) rfl hlt (fun n hn => setPlace_of_ne hn .dead) ?_
    refine (visits_setPlace d e .dead).trans_lt ?_
    rw [hvisits, Entry.visits]
    exact Nat.succ_pos _

theorem Ok.visit_spends (hok : d.Ok) (hv : d.visit p = some v) :
    v.After fun d' => d'.potential < d.potential := by
  obtain ⟨S, M, hq⟩ := hok
  unfold Domain.visit at hv
  by_cases hdry : d.small.count = 0 ∧ d.main.count = 0
  · rw [if_pos hdry] at hv
    cases hv
    trivial
  obtain ⟨hfs, hfm⟩ := fromSmall_count hdry
  rw [if_neg hdry] at hv
  cases hf : d.fromSmall with
  | true =>
    rw [hf] at hv
    cases S with
    | nil => exact absurd hq.small.count (hfs hf)
    | cons e S => exact hq.visitSmall_spends hv
  | false =>
    rw [hf] at hv
    cases M with
    | nil => exact absurd hq.main.count (hfm hf)
    | cons e M => exact hq.visitMain_spends hv

theorem Ok.potential_le_budget (hok : d.Ok) (hfreq : d.FreqBounded) : d.potential ≤ d.budget := by
  obtain ⟨S, M, hq⟩ := hok
  have hmem : ∀ n, n ∈ S ++ M ↔ d.stage n = .queued := fun n => hq.mem_iff
  have hterm : ∀ n ∈ Finset.range d.fresh, (d.entry n).visits ≤ if n ∈ (S ++ M).toFinset
      then 5 else 0 := by
    intro n _
    split_ifs with hn
    · exact Entry.visits_le (hfreq n)
    rw [List.mem_toFinset, hmem] at hn
    unfold stage at hn
    unfold Entry.visits
    cases hp : (d.entry n).place with
    | unqueued | dead => exact le_rfl
    | small | main => rw [hp] at hn; exact absurd rfl hn
  have hcard : (S ++ M).toFinset.card ≤ d.small.count + d.main.count := by
    refine (toFinset_card_le _).trans ?_
    rw [length_append, hq.small.count, hq.main.count]
  calc d.potential ≤ ∑ n ∈ Finset.range d.fresh, if n ∈ (S ++ M).toFinset then 5 else 0 :=
    Finset.sum_le_sum hterm
    _ = 5 * (Finset.range d.fresh ∩ (S ++ M).toFinset).card := by
      rw [Finset.sum_ite_mem, Finset.sum_const, smul_eq_mul, Nat.mul_comm]
    _ ≤ 5 * (d.small.count + d.main.count) :=
      Nat.mul_le_mul_left 5 ((Finset.card_le_card Finset.inter_subset_right).trans hcard)
    _ ≤ d.budget := by
      unfold budget
      omega

theorem Ok.dry_of_potential (hok : d.Ok) (h : d.potential = 0) : ∀ e, d.stage e ≠ .queued := by
  intro e he
  obtain ⟨S, M, hq⟩ := hok
  have hlt : e < d.fresh := hq.lt_fresh fun hp => by
    rw [stage, hp] at he
    cases he
  have hzero := Finset.sum_eq_zero_iff.mp h e (Finset.mem_range.mpr hlt)
  unfold stage at he
  unfold Entry.visits at hzero
  cases hp : (d.entry e).place with
  | unqueued | dead => rw [hp] at he; cases he
  | small | main => rw [hp] at hzero; cases hzero

/-! ### Touches -/

theorem FreqBounded.of_entry (h : d.FreqBounded) (hle : ∀ e, (d'.entry e).freq ≤ (d.entry e).freq) :
    d'.FreqBounded :=
  fun e => (hle e).trans (h e)

theorem FreqBounded.setPlace (h : d.FreqBounded) (e : ℕ) (w : Where) :
    (d.setPlace e w).FreqBounded :=
  h.of_entry fun n => (freq_setPlace d e w n).le

theorem FreqBounded.setFreq (h : d.FreqBounded) (e : ℕ) {f : ℕ} (hf : f ≤ 3) :
    (d.setFreq e f).FreqBounded := by
  intro n
  rw [entry_setFreq]
  split
  · exact hf
  · exact h n

theorem FreqBounded.toMain (h : d.FreqBounded) (e : ℕ) : (d.toMain p e).FreqBounded := by
  intro n
  rw [(entry_toMain p d e).1]
  exact h.setPlace e .main n

theorem FreqBounded.maybeDecay (h : d.FreqBounded) (now : Int64) :
    (d.maybeDecay p now).FreqBounded := by
  obtain ⟨hi, t, g, hd⟩ := maybeDecay_eq p d now
  rw [hd]
  exact h

theorem FreqBounded.enqueue (h : d.FreqBounded) (e : ℕ) (now : Int64) :
    (d.enqueue p e now).FreqBounded := by
  have hdecay := h.maybeDecay (p := p) now
  unfold Domain.enqueue
  dsimp only
  split
  · exact hdecay
  split
  · exact hdecay.toMain e
  · exact hdecay.setPlace e .small

theorem FreqBounded.dequeue (h : d.FreqBounded) (e : ℕ) : (d.dequeue e).FreqBounded := by
  unfold Domain.dequeue
  cases (d.entry e).place <;> exact h.setPlace e .dead

theorem FreqBounded.visit (h : d.FreqBounded) (hv : d.visit p = some v) : v.After FreqBounded := by
  unfold Domain.visit at hv
  split at hv
  · cases hv
    trivial
  split at hv
  · obtain ⟨⟨e, h', q'⟩, -, rfl⟩ := map_eq_some_iff.mp hv
    dsimp only
    split
    · exact FreqBounded.toMain (d := { d with links := h', small := q', smallBytes := _ }) h e
    · exact h.setPlace e .dead
  · obtain ⟨⟨e, h', q'⟩, -, rfl⟩ := map_eq_some_iff.mp hv
    dsimp only
    split
    · exact h.setFreq e ((Nat.sub_le _ 1).trans (h e))
    · exact h.setPlace e .dead

end Domain

namespace S3FIFO

variable {p : Settings} {ns : UInt32} {d : Domain} {m : Tracked} {s : S3FIFO}

theorem Settled.scan_delivers (need : Int64) (n : ℕ) (h : Settled p ns d m) (hpos : m.Positive)
    (hn : d.potential ≤ n) {G : ℤ} (hG : 0 ≤ G) {got : Int64} (hgot : got = Int64.ofInt G)
    (dst : List Candidate) :
    ∃ d' l, (∀ budget, n ≤ budget → S3FIFO.scan p need budget d got dst = some (d', dst ++ l)) ∧
      (need.toInt ≤ G + sizes l ∨ ∀ e, d'.stage e ≠ .queued) ∧ Stops need G l := by
  induction n generalizing d m G got dst with
  | zero =>
    have hdry := h.inv.ok.dry_of_potential (Nat.le_zero.mp hn)
    refine ⟨d, [], fun budget _ => ?_, .inr hdry, stops_nil need G⟩
    rw [append_nil]
    cases budget with
    | zero => rfl
    | succ budget =>
      rw [S3FIFO.scan]
      split
      · obtain ⟨hv, -⟩ | ⟨d₁, hv, hb⟩ | ⟨d₁, e, -, hst, -⟩ := h.inv.ok.visit (p := p)
        · rw [hv]
        · have hspent : d₁.potential < d.potential := h.inv.ok.visit_spends hv
          omega
        · exact absurd hst (hdry e)
      · rfl
  | succ n ih =>
    by_cases hlt : got < need
    · obtain ⟨hv, hdry⟩ | ⟨d₁, hv, hb⟩ | ⟨d₁, e, hv, hst, hb⟩ := h.inv.ok.visit (p := p)
      · refine ⟨d, [], fun budget hbudget => ?_, .inr hdry, stops_nil need G⟩
        obtain ⟨b, rfl⟩ := Nat.exists_eq_add_of_lt hbudget
        rw [S3FIFO.scan, if_pos hlt, hv, append_nil]
      · have hspent : d₁.potential < d.potential := h.inv.ok.visit_spends hv
        obtain ⟨d', l, hscan, hend⟩ := ih (h.becomes hb) hpos (by omega) hG hgot dst
        refine ⟨d', l, fun budget hbudget => ?_, hend⟩
        obtain ⟨b, rfl⟩ := Nat.exists_eq_add_of_lt hbudget
        rw [S3FIFO.scan, if_pos hlt, hv]
        exact hscan (n + b) (Nat.le_add_right n b)
      · obtain ⟨-, -, -, hlook⟩ := h.entry (h.get_of_queued hst)
        have hspent : d₁.potential < d.potential := h.inv.ok.visit_spends hv
        have hsize : 0 < (d₁.entry e).size.toInt := by
          rw [hb.size]
          exact Int64.lt_iff_toInt_lt.mp (hpos _ _ hlook)
        have hgot' : got + (d₁.entry e).size = Int64.ofInt (G + (d₁.entry e).size.toInt) := by
          rw [Int64.ofInt_add, Int64.ofInt_toInt, hgot]
        obtain ⟨d', l, hscan, hend⟩ :=
          ih (h.expel hst hb) (hpos.erase _) (Nat.le_of_lt_succ (hspent.trans_le hn))
          (by omega) hgot' (dst ++ [d₁.candidate e])
        refine ⟨d', d₁.candidate e :: l, fun budget hbudget => ?_, ?_, .cons (hgot ▸ hlt) hend.2⟩
        · obtain ⟨b, rfl⟩ := Nat.exists_eq_add_of_lt hbudget
          rw [S3FIFO.scan, if_pos hlt, hv]
          dsimp only
          rw [hscan (n + b) (Nat.le_add_right n b), append_assoc, singleton_append]
        · rw [sizes_cons, ← add_assoc]
          exact hend.1
    · refine ⟨d, [], fun budget hbudget => ?_, .inl ?_, stops_nil need G⟩
      · obtain ⟨b, rfl⟩ := Nat.exists_eq_add_of_lt hbudget
        rw [S3FIFO.scan, if_neg hlt, append_nil]
      · have hle := Int64.le_iff_toInt_le.mp (Int64.not_lt.mp hlt)
        have hshown := toInt_ofInt_le hG
        rw [← hgot] at hshown
        rw [sizes_nil, add_zero]
        exact hle.trans hshown

/-! ### Touches in all domains -/

/-- Touches count to three in every domain. -/
def FreqBounded (s : S3FIFO) : Prop := ∀ ns d, s.domains.lookup ns = some d → d.FreqBounded

namespace FreqBounded

theorem write (h : s.FreqBounded) (ns : UInt32) (hd : d.FreqBounded) :
    (s.write ns d).FreqBounded := by
  intro ns' d' hd'
  rw [S3FIFO.write] at hd'
  by_cases hns : ns' = ns
  · rw [hns, AList.lookup_insert] at hd'
    cases hd'
    exact hd
  · rw [AList.lookup_insert_ne hns] at hd'
    exact h ns' d' hd'

theorem ensureDomain (h : s.FreqBounded) (ns : UInt32) :
    (s.ensureDomain ns).1.FreqBounded ∧ (s.ensureDomain ns).2.FreqBounded := by
  have hnew : Domain.new.FreqBounded := fun _ => Nat.zero_le 3
  unfold S3FIFO.ensureDomain
  cases hd : s.domains.lookup ns with
  | some d => exact ⟨h, h ns d hd⟩
  | none => exact ⟨h.write ns hnew, hnew⟩

theorem touch (h : s.FreqBounded) (k : Key) : (s.touch k).FreqBounded := by
  unfold S3FIFO.touch
  split
  · exact h
  next d hd =>
  split
  · exact h
  · split
    · next e _ hlt => exact h.write k.ns ((h k.ns d hd).setFreq e hlt)
    · exact h

theorem admitKey (h : s.FreqBounded) (k : Key) (size now : Int64) :
    (s.admitKey k size now).FreqBounded := by
  obtain ⟨hs, hd⟩ := h.ensureDomain k.ns
  unfold S3FIFO.admitKey
  split
  · exact h
  dsimp only
  split
  · exact hs
  next d e hpub =>
  refine hs.write k.ns (Domain.FreqBounded.enqueue (fun n => ?_) e now)
  unfold Domain.publish at hpub
  split at hpub
  · cases hpub
  cases hpub
  dsimp only
  split
  · exact Nat.zero_le 3
  · exact hd n

theorem remove (h : s.FreqBounded) (k : Key) : (s.remove k).FreqBounded := by
  unfold S3FIFO.remove
  split
  · exact h
  next d hd =>
  split
  · exact h
  · next e _ =>
      exact h.write k.ns
        (Domain.FreqBounded.dequeue (d := d.tableDelete s.settings k) (h k.ns d hd) e)

theorem scan (need : Int64) (budget : ℕ) (hd : d.FreqBounded) {d' : Domain} {got : Int64}
    {dst dst' : List Candidate} (hscan : S3FIFO.scan p need budget d got dst = some (d', dst')) :
    d'.FreqBounded := by
  induction budget generalizing d got dst with
  | zero =>
    cases hscan
    exact hd
  | succ budget ih =>
    rw [S3FIFO.scan] at hscan
    split at hscan
    · cases hv : d.visit p with
      | none =>
        rw [hv] at hscan
        cases hscan
      | some v =>
        have hafter := hd.visit hv
        rw [hv] at hscan
        cases v with
        | dry =>
          cases hscan
          exact hd
        | moved d₁ => exact ih hafter hscan
        | expel d₁ e => exact ih (d := d₁.tableDelete p (d₁.entry e).key) hafter hscan
    · cases hscan
      exact hd

theorem victims (h : s.FreqBounded) {ns : UInt32} {need now : Int64}
    {dst dst' : List Candidate} {s' : S3FIFO} (hv : s.victims ns need now dst = some (s', dst')) :
    s'.FreqBounded := by
  unfold S3FIFO.victims at hv
  split at hv
  · cases hv
    exact h
  next d hd =>
  split at hv
  · cases hv
    exact h
  · obtain ⟨⟨d', l⟩, hscan, heq⟩ := map_eq_some_iff.mp hv
    cases heq
    exact h.write ns (scan need _ ((h ns d hd).maybeDecay now) hscan)

theorem usageLoop (now : Int64) {rows : List (Sigma fun _ : UInt32 => Domain)} (h : s.FreqBounded)
    (hrows : ∀ row ∈ rows, row.2.FreqBounded) (dst : List DomainUsage) :
    (S3FIFO.usageLoop now rows s dst).1.FreqBounded := by
  induction rows generalizing s dst with
  | nil => exact h
  | cons row rows ih =>
    exact ih (h.write row.1 ((hrows row mem_cons_self).maybeDecay now))
      (fun row' hrow' => hrows row' (mem_cons_of_mem row hrow')) _

theorem usage (h : s.FreqBounded) (rt : Runtime) (now : Int64) (dst : List DomainUsage) :
    (s.usage rt now dst).1.FreqBounded := by
  refine usageLoop (s := { s with draws := s.draws + 1 }) now h (fun row hrow => ?_) dst
  have hmem := (rt.perm s.draws _ s.domains.entries).mem_iff.mp hrow
  exact h row.1 row.2 (AList.mem_lookup_iff.mpr hmem)

theorem dropDomain (h : s.FreqBounded) (ns : UInt32) : (s.dropDomain ns).FreqBounded := by
  unfold S3FIFO.dropDomain
  split
  · exact h
  intro ns' d hd
  by_cases hns : ns' = ns
  · rw [hns, AList.lookup_erase] at hd
    cases hd
  · rw [AList.lookup_erase_ne hns] at hd
    exact h ns' d hd

end FreqBounded

theorem freqBounded_step (rt : Runtime) {op : Op} {s' : S3FIFO} {r : Response} (h : s.FreqBounded)
    (hs : (policy rt).step s op = some (s', r)) : s'.FreqBounded := by
  cases op with
  | admitKey k size now =>
    cases hs
    exact h.admitKey k size now
  | touch k now =>
    cases hs
    exact h.touch k
  | remove k =>
    cases hs
    exact h.remove k
  | victims ns need now =>
    obtain ⟨⟨s₁, l⟩, hv, heq⟩ := map_eq_some_iff.mp hs
    cases heq
    exact h.victims hv
  | usage now =>
    cases hs
    exact h.usage rt now []
  | dropDomain ns =>
    cases hs
    exact h.dropDomain ns

theorem Refines.scan_covers (h : Refines s m) (hfreq : s.FreqBounded)
    (hd : s.domains.lookup ns = some d) (need now : Int64) (dst : List Candidate) : ∃ d' l,
    (∀ extra, scan s.settings need ((d.maybeDecay s.settings now).budget + extra)
      (d.maybeDecay s.settings now) 0 dst =
      some (d', dst ++ l)) ∧ m.Covers ns need l ∧ ∀ k, k.ns = ns →
        (s.write ns d').tracked k = (m.eraseAll l).lookup k := by
  have hset := h.domain ns d hd
  have hdecay := hset.becomes (hset.inv.ok.refl.maybeDecay (p := s.settings) now)
  have hbudget := hdecay.inv.ok.potential_le_budget ((hfreq ns d hd).maybeDecay now)
  have hzero : (0 : Int64) = Int64.ofInt 0 := rfl
  obtain ⟨d', l, hscan, hend, hstop⟩ := hdecay.scan_delivers need _ h.pos hbudget le_rfl hzero dst
  -- the same scan, as it keeps the domain and the map together
  obtain ⟨d'', l', hscan', -, hset'⟩ := hdecay.scan need (d.maybeDecay s.settings now).budget 0 dst
  obtain ⟨rfl, hl⟩ := Prod.mk.inj (some.inj ((hscan _ le_rfl).symm.trans hscan'))
  cases append_cancel_left hl
  have htracked : ∀ k, k.ns = ns → (s.write ns d').tracked k = (m.eraseAll l).lookup k :=
    fun k hk => by
    rw [S3FIFO.tracked, S3FIFO.write, hk, AList.lookup_insert, bind_some]
    exact hset'.tracked k hk
  refine ⟨d', l, fun extra => hscan _ (Nat.le_add_right _ extra), ⟨hstop, ?_⟩, htracked⟩
  refine hend.imp (fun hle => by rwa [zero_add] at hle) fun hdry k hk => ?_
  rw [← htracked k hk, S3FIFO.tracked, S3FIFO.write, hk, AList.lookup_insert, bind_some]
  cases hget : d'.get s.settings k with
  | none => rfl
  | some e => exact absurd (hset'.entry hget).2.1 (hdry e)

/-- A call for victims after any calls: the candidates cover the need or no key of the namespace is
tracked any more, and a larger budget would have changed nothing. -/
theorem victims_deliver (rt : Runtime) (seed : UInt64) (ghostMax : ℤ) (ops : List Op)
    (s : S3FIFO) (tr : Trace)
    (hplay : (policy rt).play (newS3FIFO seed ghostMax) ops = some (s, tr)) (ns : UInt32)
    (need now : Int64) (hneed : 0 < need) (dst : List Candidate) :
    ∃ s' l, s.victims ns need now dst = some (s', dst ++ l) ∧
      (need.toInt ≤ (l.map fun c => c.size.toInt).sum ∨ ∀ k : Key,
        k.ns = ns → s'.tracked k = none) ∧
      ∀ d, s.domains.lookup ns = some d → ∀ extra,
        scan s.settings need ((d.maybeDecay s.settings now).budget + extra)
          (d.maybeDecay s.settings now) 0 dst =
          scan s.settings need (d.maybeDecay s.settings now).budget
            (d.maybeDecay s.settings now) 0 dst := by
  have hstart : Refines (newS3FIFO seed ghostMax) ∅ := stands_empty
  have href : Refines s (Tracked.mirror tr) := ((simulates rt).run hstart hplay).1
  have hfreq : s.FreqBounded := Policy.play_keeps (P := policy rt)
    (fun _ _ _ _ h hs => freqBounded_step rt h hs) (fun _ _ h => by cases h) hplay
  cases hd : s.domains.lookup ns with
  | none =>
    refine ⟨s, [], ?_, .inr fun k hk => ?_, fun d h => by cases h⟩
    · rw [S3FIFO.victims, hd, append_nil]
    · rw [S3FIFO.tracked, hk, hd]
      rfl
  | some d =>
    obtain ⟨d', l, hscan, hcovers, htracked⟩ := href.scan_covers hfreq hd need now dst
    refine ⟨s.write ns d', l, ?_, hcovers.enough.imp_right fun hdry k hk => ?_, ?_⟩
    · rw [S3FIFO.victims, hd]
      dsimp only
      rw [if_neg (Int64.not_le.mpr hneed)]
      exact congrArg (Option.map _) (hscan 0)
    · rw [htracked k hk]
      exact hdry k hk
    · rintro _ ⟨⟩ extra
      exact (hscan extra).trans (hscan 0).symm

/-- One key touched three times and two keys behind it. -/
def touchedAhead : List Op :=
  [.admitKey ⟨1, 7⟩ 100 0, .touch ⟨1, 7⟩ 0, .touch ⟨1, 7⟩ 0, .touch ⟨1, 7⟩ 0, .admitKey ⟨1, 8⟩ 60 0,
    .admitKey ⟨1, 9⟩ 60 0]

theorem victims_deliver_touchedAhead :
    ∃ s tr, (policy inOrder).play (newS3FIFO 0 0) touchedAhead = some (s, tr) ∧
      ∃ s' l, s.victims 1 130 0 [] = some (s', l) ∧
        ((130 : Int64).toInt ≤ (l.map fun c => c.size.toInt).sum ∨ ∀ k : Key,
          k.ns = 1 → s'.tracked k = none) := by
  refine ⟨_, _, rfl, ?_⟩
  obtain ⟨s', l, hv, hend, -⟩ :=
    victims_deliver inOrder 0 0 touchedAhead _ _ rfl 1 130 0 (by decide) []
  exact ⟨s', l, hv, hend⟩

end S3FIFO

end KVStash.Eviction
