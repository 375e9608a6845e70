/- GID: KVStash/Eviction/Queues
   digest: The two queues of a domain and its byte counters, through every section under the queue
     lock. -/

import KVStash.Eviction.Domain

set_option autoImplicit false

namespace KVStash.Eviction

open Foundation Foundation.Fifo Function List

namespace Domain

variable {p : Settings} {d d' : Domain} {S M l r : List ℕ} {e : ℕ}

def sizes (d : Domain) (l : List ℕ) : ℤ := (l.map fun e => (d.entry e).size.toInt).sum

/-- The two queues hold the entries of two lists, exactly those that say so, and the counters are
the sums and the number of these. An entry `x` may be on its way between the queues: it is in
neither, whatever it says. -/
structure Queues (x : Option ℕ) (d : Domain) (S M : List ℕ) : Prop where
  small : Holds d.links d.small S
  main : Holds d.links d.main M
  out : ∀ e, x = some e → e ∉ S ∧ e ∉ M
  mem_small : ∀ e, x ≠ some e → (e ∈ S ↔ (d.entry e).place = .small)
  mem_main : ∀ e, x ≠ some e → (e ∈ M ↔ (d.entry e).place = .main)
  smallBytes : d.smallBytes = Int64.ofInt (d.sizes S)
  mainBytes : d.mainBytes = Int64.ofInt (d.sizes M)
  mainCount : d.mainCount = M.length
  unborn : ∀ e, d.fresh ≤ e → (d.entry e).place = .unqueued

def Ok (d : Domain) : Prop := ∃ S M, d.Queues none S M

theorem sizes_append (d : Domain) (l r : List ℕ) : d.sizes (l ++ r) = d.sizes l + d.sizes r := by
  rw [sizes, map_append, sum_append]
  rfl

theorem sizes_cons (d : Domain) (e : ℕ) (l : List ℕ) :
    d.sizes (e :: l) = (d.entry e).size.toInt + d.sizes l :=
  sum_cons

theorem sizes_concat (d : Domain) (l : List ℕ) (e : ℕ) :
    d.sizes (l ++ [e]) = d.sizes l + (d.entry e).size.toInt := by
  rw [sizes_append, sizes_cons]
  exact congrArg _ (add_zero _)

theorem sizes_congr (h : ∀ e ∈ l, (d'.entry e).size = (d.entry e).size) :
    d'.sizes l = d.sizes l := by
  unfold sizes
  congr 1
  exact map_congr_left fun e he => congrArg Int64.toInt (h e he)

theorem ofInt_sizes_concat (d : Domain) (l : List ℕ) (e : ℕ) :
    Int64.ofInt (d.sizes (l ++ [e])) = Int64.ofInt (d.sizes l) + (d.entry e).size := by
  rw [sizes_concat, Int64.ofInt_add, Int64.ofInt_toInt]

theorem ofInt_sizes_delete (d : Domain) (l r : List ℕ) (e : ℕ) :
    Int64.ofInt (d.sizes (l ++ r)) = Int64.ofInt (d.sizes (l ++ e :: r)) - (d.entry e).size := by
  have hsum : d.sizes (l ++ e :: r) = d.sizes (l ++ r) + (d.entry e).size.toInt := by
    rw [sizes_append, sizes_append, sizes_cons]
    omega
  rw [hsum, Int64.ofInt_add, Int64.ofInt_toInt, Int64.add_sub_cancel]

theorem entry_setPlace (d : Domain) (e : ℕ) (w : Where) (n : ℕ) :
    (d.setPlace e w).entry n = if e = n then { d.entry n with place := w } else d.entry n := rfl

theorem key_setPlace (d : Domain) (e : ℕ) (w : Where) (n : ℕ) :
    ((d.setPlace e w).entry n).key = (d.entry n).key := by
  rw [entry_setPlace]
  split <;> rfl

theorem size_setPlace (d : Domain) (e : ℕ) (w : Where) (n : ℕ) :
    ((d.setPlace e w).entry n).size = (d.entry n).size := by
  rw [entry_setPlace]
  split <;> rfl

theorem queues_new : Queues none new [] [] where
  small := holds_empty _
  main := holds_empty _
  out _ h := nomatch h
  mem_small e _ := by simp [new]
  mem_main e _ := by simp [new]
  smallBytes := rfl
  mainBytes := rfl
  mainCount := rfl
  unborn _ _ := rfl

namespace Queues

variable {x : Option ℕ}

theorem disjoint (hq : Queues x d S M) (hs : e ∈ S) (hm : e ∈ M) : False := by
  have hx : x ≠ some e := fun h => (hq.out e h).1 hs
  have hsmall := (hq.mem_small e hx).mp hs
  have hmain := (hq.mem_main e hx).mp hm
  rw [hsmall] at hmain
  cases hmain

theorem congr (hq : Queues x d S M) (hlinks : d'.links = d.links) (hsmall : d'.small = d.small)
    (hmain : d'.main = d.main) (hsb : d'.smallBytes = d.smallBytes)
    (hmb : d'.mainBytes = d.mainBytes) (hmc : d'.mainCount = d.mainCount)
    (hfresh : d'.fresh = d.fresh) (hplace : ∀ e, (d'.entry e).place = (d.entry e).place)
    (hsize : ∀ e, (d'.entry e).size = (d.entry e).size) : Queues x d' S M where
  small := by rw [hlinks, hsmall]; exact hq.small
  main := by rw [hlinks, hmain]; exact hq.main
  out := hq.out
  mem_small e he := by rw [hplace]; exact hq.mem_small e he
  mem_main e he := by rw [hplace]; exact hq.mem_main e he
  smallBytes := by rw [hsb, sizes_congr fun e _ => hsize e, hq.smallBytes]
  mainBytes := by rw [hmb, sizes_congr fun e _ => hsize e, hq.mainBytes]
  mainCount := by rw [hmc, hq.mainCount]
  unborn e he := by rw [hplace]; exact hq.unborn e (hfresh ▸ he)

theorem detach (hq : Queues none d S M) (hs : (d.entry e).place ≠ .small)
    (hm : (d.entry e).place ≠ .main) : Queues (some e) d S M where
  small := hq.small
  main := hq.main
  out := by
    rintro _ ⟨⟩
    exact ⟨fun h => hs ((hq.mem_small e nofun).mp h), fun h => hm ((hq.mem_main e nofun).mp h)⟩
  mem_small e' _ := hq.mem_small e' nofun
  mem_main e' _ := hq.mem_main e' nofun
  smallBytes := hq.smallBytes
  mainBytes := hq.mainBytes
  mainCount := hq.mainCount
  unborn := hq.unborn

theorem leaveSmall {h' : Links ℕ} {q' : Fifo ℕ} (hq : Queues none d (l ++ e :: r) M)
    (hs : Holds h' q' (l ++ r)) (hsame : SameOutside (· ∈ l ++ e :: r) d.links h') :
    Queues (some e)
      { d with links := h', small := q', smallBytes := d.smallBytes - (d.entry e).size }
      (l ++ r) M where
  small := hs
  main := hq.main.frame hsame fun n hn hs => hq.disjoint hs hn
  out := by
    rintro _ ⟨⟩
    refine ⟨fun hmem => ?_, fun hmem => hq.disjoint (mem_append_right l mem_cons_self) hmem⟩
    exact (nodup_middle.mp hq.small.nodup).notMem hmem
  mem_small n hn := by
    have hne : n ≠ e := fun h => hn (h ▸ rfl)
    rw [← hq.mem_small n nofun, mem_append, mem_append, mem_cons, or_iff_right hne]
  mem_main n _ := hq.mem_main n nofun
  smallBytes := by
    show d.smallBytes - (d.entry e).size = Int64.ofInt (d.sizes (l ++ r))
    rw [ofInt_sizes_delete, hq.smallBytes]
  mainBytes := hq.mainBytes
  mainCount := hq.mainCount
  unborn := hq.unborn

theorem leaveMain {h' : Links ℕ} {q' : Fifo ℕ} (hq : Queues none d S (l ++ e :: r))
    (hm : Holds h' q' (l ++ r)) (hsame : SameOutside (· ∈ l ++ e :: r) d.links h') :
    Queues (some e) { d with
      links := h', main := q', mainBytes := d.mainBytes - (d.entry e).size, mainCount :=
        d.mainCount - 1 }
      S (l ++ r) where
  small := hq.small.frame hsame fun n hn hm => hq.disjoint hn hm
  main := hm
  out := by
    rintro _ ⟨⟩
    refine ⟨fun hmem => hq.disjoint hmem (mem_append_right l mem_cons_self), fun hmem => ?_⟩
    exact (nodup_middle.mp hq.main.nodup).notMem hmem
  mem_small n _ := hq.mem_small n nofun
  mem_main n hn := by
    have hne : n ≠ e := fun h => hn (h ▸ rfl)
    rw [← hq.mem_main n nofun, mem_append, mem_append, mem_cons, or_iff_right hne]
  smallBytes := hq.smallBytes
  mainBytes := by
    show d.mainBytes - (d.entry e).size = Int64.ofInt (d.sizes (l ++ r))
    rw [ofInt_sizes_delete, hq.mainBytes]
  mainCount := by
    show d.mainCount - 1 = (l ++ r).length
    rw [hq.mainCount, length_append, length_append, length_cons]
    omega
  unborn := hq.unborn

theorem arriveSmall (hq : Queues (some e) d S M) (hplace : (d.entry e).place = .small) :
    Queues none { d.pushSmall e with smallBytes := d.smallBytes + (d.entry e).size }
      (S ++ [e]) M := by
  obtain ⟨hs, hm⟩ := hq.out e rfl
  obtain ⟨hheld, hsame⟩ := hq.small.pushTail hs
  refine ⟨hheld, ?_, nofun, fun n _ => ?_, fun n _ => ?_, ?_, hq.mainBytes, hq.mainCount, hq.unborn⟩
  · refine hq.main.frame hsame fun n hn hor => hor.elim (fun h => hq.disjoint h hn) ?_
    rintro rfl
    exact hm hn
  · show n ∈ S ++ [e] ↔ (d.entry n).place = .small
    by_cases hne : n = e
    · subst hne
      exact iff_of_true (mem_append_right S mem_cons_self) hplace
    · rw [← hq.mem_small n fun h => hne (Option.some.inj h).symm, mem_append, mem_singleton,
        or_iff_left hne]
  · show n ∈ M ↔ (d.entry n).place = .main
    by_cases hne : n = e
    · subst hne
      exact iff_of_false hm (by rw [hplace]; nofun)
    · exact hq.mem_main n fun h => hne (Option.some.inj h).symm
  · show d.smallBytes + (d.entry e).size = Int64.ofInt (d.sizes (S ++ [e]))
    rw [ofInt_sizes_concat, hq.smallBytes]

theorem arriveMain (hq : Queues (some e) d S M) (hplace : (d.entry e).place = .main) :
    Queues none { d.pushMain e with
      mainBytes := d.mainBytes + (d.entry e).size, mainCount := d.mainCount + 1 } S (M ++ [e]) := by
  obtain ⟨hs, hm⟩ := hq.out e rfl
  obtain ⟨hheld, hsame⟩ := hq.main.pushTail hm
  refine ⟨?_, hheld, nofun, fun n _ => ?_, fun n _ => ?_, hq.smallBytes, ?_, ?_, hq.unborn⟩
  · refine hq.small.frame hsame fun n hn hor => hor.elim (fun h => hq.disjoint hn h) ?_
    rintro rfl
    exact hs hn
  · show n ∈ S ↔ (d.entry n).place = .small
    by_cases hne : n = e
    · subst hne
      exact iff_of_false hs (by rw [hplace]; nofun)
    · exact hq.mem_small n fun h => hne (Option.some.inj h).symm
  · show n ∈ M ++ [e] ↔ (d.entry n).place = .main
    by_cases hne : n = e
    · subst hne
      exact iff_of_true (mem_append_right M mem_cons_self) hplace
    · rw [← hq.mem_main n fun h => hne (Option.some.inj h).symm, mem_append, mem_singleton,
        or_iff_left hne]
  · show d.mainBytes + (d.entry e).size = Int64.ofInt (d.sizes (M ++ [e]))
    rw [ofInt_sizes_concat, hq.mainBytes]
  · show d.mainCount + 1 = (M ++ [e]).length
    rw [hq.mainCount, length_append, length_singleton]

theorem setPlace (hq : Queues (some e) d S M) (he : e < d.fresh) (w : Where) :
    Queues (some e) (d.setPlace e w) S M := by
  have hplace : ∀ n, n ≠ e → ((d.setPlace e w).entry n).place = (d.entry n).place := fun n hn => by
    rw [entry_setPlace, if_neg (Ne.symm hn)]
  have hne : ∀ n, some e ≠ some n → n ≠ e := fun n h heq => h (heq ▸ rfl)
  refine ⟨hq.small, hq.main, hq.out, fun n hn => ?_, fun n hn => ?_, ?_, ?_, hq.mainCount,
    fun n hn => ?_⟩
  · rw [hplace n (hne n hn)]
    exact hq.mem_small n hn
  · rw [hplace n (hne n hn)]
    exact hq.mem_main n hn
  · rw [sizes_congr fun n _ => size_setPlace d e w n]
    exact hq.smallBytes
  · rw [sizes_congr fun n _ => size_setPlace d e w n]
    exact hq.mainBytes
  · rw [hplace n (Nat.ne_of_gt (Nat.lt_of_lt_of_le he hn))]
    exact hq.unborn n hn

theorem settle (hq : Queues (some e) d S M) (hs : (d.entry e).place ≠ .small)
    (hm : (d.entry e).place ≠ .main) : Queues none d S M where
  small := hq.small
  main := hq.main
  out := nofun
  mem_small n _ := by
    by_cases hne : n = e
    · subst hne
      exact iff_of_false (hq.out n rfl).1 hs
    · exact hq.mem_small n fun h => hne (Option.some.inj h).symm
  mem_main n _ := by
    by_cases hne : n = e
    · subst hne
      exact iff_of_false (hq.out n rfl).2 hm
    · exact hq.mem_main n fun h => hne (Option.some.inj h).symm
  smallBytes := hq.smallBytes
  mainBytes := hq.mainBytes
  mainCount := hq.mainCount
  unborn := hq.unborn

theorem lt_fresh (hq : Queues x d S M) (h : (d.entry e).place ≠ .unqueued) : e < d.fresh :=
  Nat.lt_of_not_le fun hle => h (hq.unborn e hle)

end Queues

/-! ### What the rest of the policy sees of a domain -/

inductive Stage
  | unqueued | queued | dead
  deriving DecidableEq

def stageOf : Where → Stage
  | .unqueued => .unqueued
  | .small | .main => .queued
  | .dead => .dead

def stage (d : Domain) (e : ℕ) : Stage := stageOf (d.entry e).place

/-- A domain with right queues and the same table and entries, whose entries are at the given
stages. -/
structure Becomes (d d' : Domain) (st : ℕ → Stage) : Prop where
  ok : d'.Ok
  table : d'.table = d.table
  fresh : d'.fresh = d.fresh
  key : ∀ e, (d'.entry e).key = (d.entry e).key
  size : ∀ e, (d'.entry e).size = (d.entry e).size
  stage : d'.stage = st

theorem place_of_stage (h : d.stage e ≠ .queued) :
    (d.entry e).place ≠ .small ∧ (d.entry e).place ≠ .main := by
  unfold stage at h
  constructor <;> intro hp <;> rw [hp] at h <;> exact h rfl

theorem stage_setPlace (d : Domain) (e : ℕ) (w : Where) :
    (d.setPlace e w).stage = update d.stage e (stageOf w) := by
  funext n
  unfold stage
  rw [entry_setPlace]
  by_cases hne : n = e
  · subst hne
    rw [if_pos rfl, update_self]
  · rw [if_neg (Ne.symm hne), update_of_ne hne]

theorem maybeGrowGhost_eq (p : Settings) (d : Domain) :
    ∃ g, d.maybeGrowGhost p = { d with ghost := g } := by
  unfold maybeGrowGhost
  split
  · exact ⟨d.ghost, rfl⟩
  dsimp only
  split
  · exact ⟨d.ghost, rfl⟩
  · exact ⟨_, rfl⟩

theorem maybeDecay_eq (p : Settings) (d : Domain) (now : Int64) :
    ∃ hi t g, d.maybeDecay p now = { d with mainHi := hi, lastDecay := t, ghost := g } := by
  unfold maybeDecay
  split
  · exact ⟨d.mainHi, d.lastDecay, d.ghost, rfl⟩
  split
  · exact ⟨d.mainHi, now, d.ghost, rfl⟩
  · split
    · exact ⟨d.mainHi, d.lastDecay, d.ghost, rfl⟩
    · exact ⟨_, _, _, rfl⟩

variable {st : ℕ → Stage}

theorem Queues.becomes (hq : Queues none d' S M) (htable : d'.table = d.table)
    (hfresh : d'.fresh = d.fresh) (hkey : ∀ e, (d'.entry e).key = (d.entry e).key)
    (hsize : ∀ e, (d'.entry e).size = (d.entry e).size) (hst : d'.stage = st) : Becomes d d' st :=
  ⟨⟨S, M, hq⟩, htable, hfresh, hkey, hsize, hst⟩

theorem Becomes.trans {d'' : Domain} {st' : ℕ → Stage} (h : Becomes d d' st)
    (h' : Becomes d' d'' st') : Becomes d d'' st' where
  ok := h'.ok
  table := h'.table.trans h.table
  fresh := h'.fresh.trans h.fresh
  key e := (h'.key e).trans (h.key e)
  size e := (h'.size e).trans (h.size e)
  stage := h'.stage

theorem Becomes.base {d₁ : Domain} (h : Becomes d₁ d' st) (htable : d₁.table = d.table)
    (hfresh : d₁.fresh = d.fresh) (hentry : d₁.entry = d.entry) : Becomes d d' st where
  ok := h.ok
  table := h.table.trans htable
  fresh := h.fresh.trans hfresh
  key e := hentry ▸ h.key e
  size e := hentry ▸ h.size e
  stage := h.stage

theorem Ok.congr (hok : d.Ok) (hlinks : d'.links = d.links) (hsmall : d'.small = d.small)
    (hmain : d'.main = d.main) (hsb : d'.smallBytes = d.smallBytes)
    (hmb : d'.mainBytes = d.mainBytes) (hmc : d'.mainCount = d.mainCount)
    (hfresh : d'.fresh = d.fresh) (hplace : ∀ e, (d'.entry e).place = (d.entry e).place)
    (hsize : ∀ e, (d'.entry e).size = (d.entry e).size) : d'.Ok := by
  obtain ⟨S, M, hq⟩ := hok
  exact ⟨S, M, hq.congr hlinks hsmall hmain hsb hmb hmc hfresh hplace hsize⟩

theorem Ok.refl (hok : d.Ok) : Becomes d d d.stage :=
    ⟨hok, rfl, rfl, fun _ => rfl, fun _ => rfl, rfl⟩

theorem Becomes.ghost (h : Becomes d d' st) (hi : ℕ) (t : Int64) (g : GhostRing) :
    Becomes d { d' with mainHi := hi, lastDecay := t, ghost := g } st where
  ok := h.ok.congr rfl rfl rfl rfl rfl rfl rfl (fun _ => rfl) fun _ => rfl
  table := h.table
  fresh := h.fresh
  key := h.key
  size := h.size
  stage := h.stage

theorem Becomes.maybeGrowGhost (h : Becomes d d' st) : Becomes d (d'.maybeGrowGhost p) st := by
  obtain ⟨g, hg⟩ := maybeGrowGhost_eq p d'
  rw [hg]
  exact h.ghost d'.mainHi d'.lastDecay g

theorem Becomes.maybeDecay (h : Becomes d d' st) (now : Int64) :
    Becomes d (d'.maybeDecay p now) st := by
  obtain ⟨hi, t, g, hg⟩ := maybeDecay_eq p d' now
  rw [hg]
  exact h.ghost hi t g

theorem Queues.toSmall (hq : Queues (some e) d S M) (he : e < d.fresh) :
    Becomes d (d.toSmall e) (update d.stage e .queued) := by
  have hplace : ((d.setPlace e .small).entry e).place = .small := by rw [entry_setPlace, if_pos rfl]
  exact ((hq.setPlace he .small).arriveSmall hplace).becomes rfl rfl (key_setPlace d e .small)
    (size_setPlace d e .small) (stage_setPlace d e .small)

theorem Queues.toMain (hq : Queues (some e) d S M) (he : e < d.fresh) :
    Becomes d (d.toMain p e) (update d.stage e .queued) := by
  have hplace : ((d.setPlace e .main).entry e).place = .main := by rw [entry_setPlace, if_pos rfl]
  have hmain : Becomes d { (d.setPlace e .main).pushMain e with
      mainBytes := d.mainBytes + ((d.setPlace e .main).entry e).size, mainCount := d.mainCount + 1 }
      (update d.stage e .queued) :=
    ((hq.setPlace he .main).arriveMain hplace).becomes rfl rfl (key_setPlace d e .main)
      (size_setPlace d e .main) (stage_setPlace d e .main)
  unfold Domain.toMain
  dsimp only
  split
  · -- the new watermark, and the ghost that may grow with it
    exact (hmain.ghost (d.mainCount + 1) d.lastDecay d.ghost).maybeGrowGhost
  · exact hmain

theorem Ok.enqueue (hok : d.Ok) (he : e < d.fresh) (hst : d.stage e ≠ .queued) (now : Int64) :
    Becomes d (d.enqueue p e now)
      (if d.stage e = .unqueued then update d.stage e .queued else d.stage) := by
  have hdecay : Becomes d (d.maybeDecay p now) d.stage := hok.refl.maybeDecay now
  have hlt : e < (d.maybeDecay p now).fresh := hdecay.fresh ▸ he
  have hst' : (d.maybeDecay p now).stage e ≠ .queued := hdecay.stage ▸ hst
  unfold Domain.enqueue
  dsimp only
  split
  · rename_i hdead
    have hne : d.stage e ≠ .unqueued := by
      rw [← hdecay.stage, stage, hdead]
      nofun
    rw [if_neg hne]
    exact hdecay
  · rename_i hdead
    have hun : d.stage e = .unqueued := by
      rw [← hdecay.stage]
      unfold stage at hst' ⊢
      cases hp : ((d.maybeDecay p now).entry e).place with
      | unqueued => rfl
      | small | main => rw [hp] at hst'; exact absurd rfl hst'
      | dead => exact absurd hp hdead
    obtain ⟨S, M, hq⟩ := hdecay.ok
    obtain ⟨hs, hm⟩ := place_of_stage hst'
    rw [if_pos hun, ← hdecay.stage]
    split
    · exact hdecay.trans ((hq.detach hs hm).toMain hlt)
    · exact hdecay.trans ((hq.detach hs hm).toSmall hlt)

theorem Queues.bury (hq : Queues (some e) d S M) (he : e < d.fresh) :
    Becomes d (d.setPlace e .dead) (update d.stage e .dead) := by
  have hplace : ((d.setPlace e .dead).entry e).place = .dead := by rw [entry_setPlace, if_pos rfl]
  refine ((hq.setPlace he .dead).settle ?_ ?_).becomes rfl rfl (key_setPlace d e .dead)
    (size_setPlace d e .dead) (stage_setPlace d e .dead)
  · rw [hplace]
    nofun
  · rw [hplace]
    nofun

theorem Ok.dequeue (hok : d.Ok) (he : e < d.fresh) :
    Becomes d (d.dequeue e) (update d.stage e .dead) := by
  obtain ⟨S, M, hq⟩ := hok
  unfold Domain.dequeue
  cases hp : (d.entry e).place with
  | small =>
    obtain ⟨l, r, rfl⟩ := append_of_mem ((hq.mem_small e nofun).mpr hp)
    obtain ⟨hs, hsame⟩ := hq.small.unlink
    exact ((hq.leaveSmall hs hsame).bury he).base rfl rfl rfl
  | main =>
    obtain ⟨l, r, rfl⟩ := append_of_mem ((hq.mem_main e nofun).mpr hp)
    obtain ⟨hm, hsame⟩ := hq.main.unlink
    exact ((hq.leaveMain hm hsame).bury he).base rfl rfl rfl
  | _ =>
    exact (hq.detach (by rw [hp]; nofun) (by rw [hp]; nofun)).bury he

theorem fromSmall_count (h : ¬(d.small.count = 0 ∧ d.main.count = 0)) :
    (d.fromSmall = true → d.small.count ≠ 0) ∧ (d.fromSmall = false → d.main.count ≠ 0) := by
  unfold fromSmall
  generalize decide ((d.smallBytes + d.mainBytes) / 10 < d.smallBytes) = b
  by_cases hs : d.small.count = 0
  · have hm : d.main.count ≠ 0 := fun hm => h ⟨hs, hm⟩
    cases b <;> simp [hs, hm]
  · by_cases hm : d.main.count = 0 <;> cases b <;> simp [hs, hm]

private theorem update_stage (h : d.stage e = .queued) : update d.stage e .queued = d.stage := by
  rw [← h, update_eq_self]

theorem Queues.visitSmall (hq : Queues none d (e :: S) M) :
    ∃ v, d.visitSmall p = some v ∧
      ((∃ d', v = .moved d' ∧ Becomes d d' d.stage) ∨
        ∃ d', v = .expel d' e ∧ Becomes d d' (update d.stage e .dead)) := by
  have hplace : (d.entry e).place = .small := (hq.mem_small e nofun).mp mem_cons_self
  have hlt : e < d.fresh := hq.lt_fresh (by rw [hplace]; nofun)
  have hst : d.stage e = .queued := by rw [stage, hplace]; rfl
  obtain ⟨h', q', hpop, hheld, hsame⟩ := hq.small.popHead
  have hleft := Queues.leaveSmall (l := []) hq hheld hsame
  rw [Domain.visitSmall, hpop, Option.map_some]
  refine ⟨_, rfl, ?_⟩
  dsimp only
  split
  · left
    refine ⟨_, rfl, ?_⟩
    have hmain := (hleft.toMain (p := p) hlt).base (d := d) rfl rfl rfl
    exact update_stage hst ▸ hmain
  right
  refine ⟨_, rfl, ?_⟩
  have hghost : Queues (some e) { d with
      links := h', small := q', smallBytes := d.smallBytes - (d.entry e).size
      ghost := d.ghost.push (p.fingerprint (d.entry e).key) } S M :=
    hleft.congr rfl rfl rfl rfl rfl rfl rfl (fun _ => rfl) fun _ => rfl
  exact (hghost.bury hlt).base rfl rfl rfl

theorem entry_setFreq (d : Domain) (e f n : ℕ) :
    (d.setFreq e f).entry n = if e = n then { d.entry n with freq := f } else d.entry n := rfl

theorem place_setFreq (d : Domain) (e f n : ℕ) :
    ((d.setFreq e f).entry n).place = (d.entry n).place := by
  rw [entry_setFreq]
  split <;> rfl

theorem size_setFreq (d : Domain) (e f n : ℕ) :
    ((d.setFreq e f).entry n).size = (d.entry n).size := by
  rw [entry_setFreq]
  split <;> rfl

theorem key_setFreq (d : Domain) (e f n : ℕ) : ((d.setFreq e f).entry n).key = (d.entry n).key := by
  rw [entry_setFreq]
  split <;> rfl

theorem Ok.setFreq (hok : d.Ok) (e f : ℕ) : Becomes d (d.setFreq e f) d.stage where
  ok := hok.congr rfl rfl rfl rfl rfl rfl rfl (place_setFreq d e f) (size_setFreq d e f)
  table := rfl
  fresh := rfl
  key := key_setFreq d e f
  size := size_setFreq d e f
  stage := by
    funext n
    exact congrArg stageOf (place_setFreq d e f n)

theorem Queues.visitMain (hq : Queues none d S (e :: M)) :
    ∃ v, d.visitMain = some v ∧
      ((∃ d', v = .moved d' ∧ Becomes d d' d.stage) ∨
        ∃ d', v = .expel d' e ∧ Becomes d d' (update d.stage e .dead)) := by
  have hplace : (d.entry e).place = .main := (hq.mem_main e nofun).mp mem_cons_self
  have hlt : e < d.fresh := hq.lt_fresh (by rw [hplace]; nofun)
  obtain ⟨h', q', hpop, hheld, hsame⟩ := hq.main.popHead
  have hleft := Queues.leaveMain (l := []) hq hheld hsame
  rw [Domain.visitMain, hpop, Option.map_some]
  refine ⟨_, rfl, ?_⟩
  dsimp only
  split
  · left
    refine ⟨_, rfl, ?_⟩
    -- the second chance moves no bytes: what the entry takes out it brings back
    set f := (d.entry e).freq - 1
    have hfreq : Queues (some e) { d with
        links := h', main := q', mainBytes := d.mainBytes - (d.entry e).size
        mainCount := d.mainCount - 1, entry := (d.setFreq e f).entry } S M :=
      hleft.congr rfl rfl rfl rfl rfl rfl rfl (place_setFreq d e f) (size_setFreq d e f)
    have hback := hfreq.arriveMain ((place_setFreq d e f e).trans hplace)
    have hcount : d.mainCount = d.mainCount - 1 + 1 := by
      have := hq.mainCount
      rw [length_cons] at this
      omega
    have hbytes :
        d.mainBytes = d.mainBytes - (d.entry e).size + ((d.setFreq e f).entry e).size := by
      rw [size_setFreq, Int64.sub_add_cancel]
    have hmoved :
        Queues none (({ d with links := h', main := q' } : Domain).setFreq e f |>.pushMain e)
          S (M ++ [e]) :=
      hback.congr rfl rfl rfl rfl hbytes hcount rfl (fun _ => rfl) fun _ => rfl
    refine hmoved.becomes rfl rfl (key_setFreq d e f) (size_setFreq d e f) ?_
    funext n
    exact congrArg stageOf (place_setFreq d e f n)
  · right
    exact ⟨_, rfl, (hleft.bury hlt).base rfl rfl rfl⟩

theorem Ok.visit (hok : d.Ok) :
    (d.visit p = some .dry ∧ ∀ e, d.stage e ≠ .queued) ∨
      (∃ d', d.visit p = some (.moved d') ∧ Becomes d d' d.stage) ∨
      ∃ d' e, d.visit p = some (.expel d' e) ∧ d.stage e = .queued ∧
        Becomes d d' (update d.stage e .dead) := by
  obtain ⟨S, M, hq⟩ := hok
  unfold Domain.visit
  have hscount := hq.small.count
  have hmcount := hq.main.count
  by_cases hdry : d.small.count = 0 ∧ d.main.count = 0
  · left
    refine ⟨if_pos hdry, fun e he => ?_⟩
    have hS : S = [] := length_eq_zero_iff.mp (hscount ▸ hdry.1)
    have hM : M = [] := length_eq_zero_iff.mp (hmcount ▸ hdry.2)
    have hs := hq.mem_small e nofun
    have hm := hq.mem_main e nofun
    unfold stage at he
    cases hp : (d.entry e).place with
    | unqueued | dead => rw [hp] at he; cases he
    | small => exact not_mem_nil (hS ▸ hs.mpr hp)
    | main => exact not_mem_nil (hM ▸ hm.mpr hp)
  · right
    obtain ⟨hfs, hfm⟩ := fromSmall_count hdry
    rw [if_neg hdry]
    cases hf : d.fromSmall with
    | true =>
      cases S with
      | nil => exact absurd hscount (hfs hf)
      | cons e S =>
        have hst :
            d.stage e = .queued := by rw [stage, (hq.mem_small e nofun).mp mem_cons_self]; rfl
        obtain ⟨v, hv, ⟨d', rfl, hb⟩ | ⟨d', rfl, hb⟩⟩ := hq.visitSmall (p := p)
        · exact .inl ⟨d', hv, hb⟩
        · exact .inr ⟨d', e, hv, hst, hb⟩
    | false =>
      cases M with
      | nil => exact absurd hmcount (hfm hf)
      | cons e M =>
        have hst : d.stage e = .queued := by rw [stage, (hq.mem_main e nofun).mp mem_cons_self]; rfl
        obtain ⟨v, hv, ⟨d', rfl, hb⟩ | ⟨d', rfl, hb⟩⟩ := hq.visitMain
        · exact .inl ⟨d', hv, hb⟩
        · exact .inr ⟨d', e, hv, hst, hb⟩

/-! ### The table -/

/-- A domain in which a key has been published: the entry is new and in no queue. -/
structure Publishes (p : Settings) (d d' : Domain) (k : Key) (size : Int64) : Prop where
  ok : d'.Ok
  get : ∀ k', d'.get p k' = if k' = k then some d.fresh else d.get p k'
  fresh : d'.fresh = d.fresh + 1
  entry : ∀ e, d'.entry e = if d.fresh = e then ⟨k, size, .unqueued, 0⟩ else d.entry e

theorem Ok.publish {k : Key} (hok : d.Ok) (hget : d.get p k = none) (size : Int64) :
    ∃ d', d.publish p k size = some (d', d.fresh) ∧ Publishes p d d' k size := by
  obtain ⟨S, M, hq⟩ := hok
  refine ⟨{ d with
    entry := fun m => if d.fresh = m then ⟨k, size, .unqueued, 0⟩ else d.entry m
    fresh := d.fresh + 1
    table := d.table.put p.shardIdx k d.fresh }, ?_, ?_⟩
  · rw [Domain.publish, hget]
  have hplace : ∀ e, (if d.fresh = e then ⟨k, size, .unqueued, 0⟩ else d.entry e : Entry).place =
      (d.entry e).place := by
    intro e
    by_cases he : d.fresh = e
    · rw [if_pos he, hq.unborn e he.le]
    · rw [if_neg he]
  have hborn : ∀ e, (d.entry e).place ≠ .unqueued →
      (if d.fresh = e then ⟨k, size, .unqueued, 0⟩ else d.entry e : Entry).size =
      (d.entry e).size := by
    intro e he
    rw [if_neg (Nat.ne_of_gt (hq.lt_fresh he))]
  refine ⟨⟨S, M, hq.small, hq.main, nofun, fun e _ => ?_, fun e _ => ?_, ?_, ?_, hq.mainCount,
    fun e he => ?_⟩,
    fun k' => Shards.get_put .., rfl, fun e => rfl⟩
  · dsimp only
    rw [hplace e]
    exact hq.mem_small e nofun
  · dsimp only
    rw [hplace e]
    exact hq.mem_main e nofun
  · refine hq.smallBytes.trans (congrArg _ (sizes_congr fun e he => hborn e ?_).symm)
    rw [(hq.mem_small e nofun).mp he]
    nofun
  · refine hq.mainBytes.trans (congrArg _ (sizes_congr fun e he => hborn e ?_).symm)
    rw [(hq.mem_main e nofun).mp he]
    nofun
  · dsimp only
    rw [hplace e]
    exact hq.unborn e (Nat.le_of_succ_le he)

theorem publish_of_get {k : Key} {e : ℕ} (hget : d.get p k = some e) (size : Int64) :
    d.publish p k size = none := by
  rw [Domain.publish, hget]

theorem Ok.tableDelete (hok : d.Ok) (k : Key) : (d.tableDelete p k).Ok :=
  hok.congr rfl rfl rfl rfl rfl rfl rfl (fun _ => rfl) fun _ => rfl

theorem get_tableDelete (p : Settings) (d : Domain) (k k' : Key) :
    (d.tableDelete p k).get p k' = if k' = k then none else d.get p k' := Shards.get_drop ..

theorem Becomes.get (h : Becomes d d' st) (k : Key) : d'.get p k = d.get p k := by
  rw [Domain.get, h.table]
  rfl

/-- The queues hold the entries of the table and no others, no key twice, and the counters are the
sums and the number of the queued entries. -/
structure Consistent (p : Settings) (d : Domain) (S M : List ℕ) : Prop where
  small : Holds d.links d.small S
  main : Holds d.links d.main M
  entries : ∀ e, e ∈ S ++ M ↔ ∃ k, d.get p k = some e
  key : ∀ k e, d.get p k = some e → (d.entry e).key = k
  once : ((S ++ M).map fun e => (d.entry e).key).Nodup
  smallBytes : d.smallBytes = Int64.ofInt (d.sizes S)
  mainBytes : d.mainBytes = Int64.ofInt (d.sizes M)
  mainCount : d.mainCount = M.length

theorem Queues.mem_iff (hq : Queues none d S M) : e ∈ S ++ M ↔ d.stage e = .queued := by
  rw [mem_append, hq.mem_small e nofun, hq.mem_main e nofun, stage]
  cases (d.entry e).place with
  | small | main => exact iff_of_true (by simp) rfl
  | unqueued | dead => exact iff_of_false (by simp) nofun

theorem Ok.consistent (hok : d.Ok)
    (htable : ∀ k e, d.get p k = some e → (d.entry e).key = k ∧ d.stage e = .queued)
    (hqueued : ∀ e, d.stage e = .queued → d.get p (d.entry e).key = some e) :
    ∃ S M, d.Consistent p S M := by
  obtain ⟨S, M, hq⟩ := hok
  have hget : ∀ e ∈ S ++ M, d.get p (d.entry e).key = some e :=
    fun e he => hqueued e (hq.mem_iff.mp he)
  refine ⟨S, M, hq.small, hq.main, fun e => ⟨fun he => ⟨_, hget e he⟩, ?_⟩,
    fun k e hk => (htable k e hk).1, ?_, hq.smallBytes, hq.mainBytes, hq.mainCount⟩
  · rintro ⟨k, hk⟩
    exact hq.mem_iff.mpr (htable k e hk).2
  have hnodup : (S ++ M).Nodup :=
    hq.small.nodup.append hq.main.nodup fun e hs hm => hq.disjoint hs hm
  refine (nodup_map_iff_inj_on hnodup).mpr fun a ha b hb heq => ?_
  have hab := hget a ha
  rw [heq, hget b hb] at hab
  exact (Option.some.inj hab).symm

end Domain

end KVStash.Eviction
