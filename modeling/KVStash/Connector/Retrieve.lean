/- GID: KVStash/Connector/Retrieve
   digest: The objects that a batched get of the LMCache connector allocates, returns and gives
     back. -/

import Mathlib.Data.List.Perm.Basic
import Mathlib.Data.List.Nodup

set_option autoImplicit false

namespace KVStash.Connector.Retrieve

open List

/-- What a call of `alloc` comes to. It refuses before it has an object; it has one and fails, or
finds it not contiguous; or it stashes the object, and the view of it is returned or fails. -/
inductive Alloc
  | refused
  | stray (obj : ℕ)
  | stashed (obj : ℕ) (view : Bool)

def Alloc.obj : Alloc → Option ℕ
  | .refused => none
  | .stray obj | .stashed obj _ => some obj

def Alloc.stash : Alloc → Option ℕ
  | .stashed obj _ => some obj
  | _ => none

/-- The client's `batch_get_scatter`: the calls of `alloc` it makes, each for another key, and
whether the statuses that it returns are OK; `none` is an exception. -/
structure Scatter where
  calls : List (ℕ × Alloc)
  once : (calls.map Prod.fst).Nodup
  statuses : Option (List Bool)

/-- When the awaiting task is cancelled: the job has not begun, it is at work, or its future is
done. -/
inductive Cancel
  | queued
  | working
  | done
  deriving DecidableEq

structure Get where
  keys : ℕ
  scatter : Scatter
  cancel : Option Cancel

/-- What becomes of the objects: those the caller gets, and those `ref_count_down` is called on. -/
structure Outcome where
  returned : List ℕ
  released : List ℕ

namespace Scatter

variable (s : Scatter)

def objects : List ℕ := s.calls.filterMap (·.2.obj)

def results : List (ℕ × ℕ) := s.calls.filterMap fun c => c.2.stash.map (c.1, ·)

/-- The consecutive hits from key `i` on, at most `n` of them. -/
def hitsFrom (ok : List Bool) : ℕ → ℕ → List ℕ
  | _, 0 => []
  | i, n + 1 =>
    match s.results.lookup i with
    | some obj => if ok[i]? = some true then obj :: hitsFrom ok (i + 1) n else []
    | none => []

/-- The executor's job `_do`; what it returns is lost if it raises. -/
def job (keys : ℕ) : Option Outcome :=
  s.statuses.map fun ok =>
    let hits := s.hitsFrom ok 0 keys
    ⟨hits, (s.results.filter (hits.length ≤ ·.1)).map Prod.snd⟩

end Scatter

/-- `batched_get_non_blocking`. A cancelled task cancels the future that it awaits: its result is
then a `CancelledError`, which the callback that was to release the objects does not catch. -/
def Get.run (g : Get) : Outcome :=
  match g.cancel, g.scatter.job g.keys with
  | some .queued, _ | _, none => ⟨[], []⟩
  | some .working, some o => ⟨[], o.released⟩
  | some .done, some o => ⟨[], o.released ++ o.returned⟩
  | none, some o => o

def Get.allocated (g : Get) : List ℕ :=
  match g.cancel with
  | some .queued => []
  | _ => g.scatter.objects

/-- Every object that is allocated is stashed, a scatter that raises has allocated none, and a job
that is cancelled at work has no hit at its first key. -/
structure Get.Smooth (g : Get) : Prop where
  stashed : ∀ c ∈ g.scatter.calls, ∀ obj, c.2 ≠ .stray obj
  raises : g.scatter.statuses = none → ∀ c ∈ g.scatter.calls, c.2 = .refused
  working : g.cancel = some .working → 0 < g.keys → ∀ ok ∈ g.scatter.statuses, ok[0]? = some true →
    ∀ c ∈ g.scatter.calls, c.1 = 0 → c.2.stash = none

namespace Scatter

variable {s : Scatter}

theorem nodup_results : (s.results.map Prod.fst).Nodup := by
  refine s.once.sublist ?_
  rw [results, map_filterMap]
  induction s.calls with
  | nil => exact List.Sublist.refl _
  | cons c rest ih =>
    obtain ⟨i, a⟩ := c
    cases a with
    | refused | stray obj => exact ih.cons _
    | stashed obj view => exact ih.cons_cons _

theorem objects_eq (h : ∀ c ∈ s.calls, ∀ obj, c.2 ≠ .stray obj) :
    s.objects = s.results.map Prod.snd := by
  rw [objects, results, map_filterMap]
  refine filterMap_congr fun c hc => ?_
  obtain ⟨i, a⟩ := c
  cases a with
  | refused | stashed obj view => rfl
  | stray obj => exact absurd rfl (h _ hc obj)

theorem objects_eq_nil : s.objects = [] ↔ ∀ c ∈ s.calls, c.2 = .refused := by
  rw [objects, filterMap_eq_nil_iff]
  refine forall₂_congr fun c _ => ?_
  cases c.2 <;> simp [Alloc.obj]

/-- A stray object is one more than are stashed. -/
theorem stashed_of_length (h : s.objects.length ≤ s.results.length) :
    ∀ c ∈ s.calls, ∀ obj, c.2 ≠ .stray obj := by
  have hle : ∀ calls : List (ℕ × Alloc),
      (calls.filterMap fun c => c.2.stash.map (c.1, ·)).length ≤
      (calls.filterMap (·.2.obj)).length := by
    intro calls
    rw [length_filterMap_eq_countP, length_filterMap_eq_countP]
    refine countP_mono_left fun c _ => ?_
    cases c.2 <;> simp [Alloc.stash, Alloc.obj]
  rintro ⟨i, -⟩ hc obj rfl
  obtain ⟨front, back, hcalls⟩ := append_of_mem hc
  have hfront := hle front
  have hback := hle back
  rw [objects, results, hcalls, filterMap_append, filterMap_append, length_append, length_append]
    at h
  change _ + ((back.filterMap (·.2.obj)).length + 1) ≤ _ + (back.filterMap _).length at h
  omega

theorem lookup_results_zero :
    s.results.lookup 0 = none ↔ ∀ c ∈ s.calls, c.1 = 0 → c.2.stash = none := by
  simp only [lookup_eq_none_iff, results, mem_filterMap, Option.map_eq_some_iff, bne_iff_ne]
  constructor
  · intro h c hc hzero
    by_contra hne
    obtain ⟨obj, hobj⟩ := Option.ne_none_iff_exists'.mp hne
    exact h _ ⟨c, hc, obj, hobj, rfl⟩ hzero.symm
  · rintro h - ⟨c, hc, obj, hobj, rfl⟩ hzero
    cases hobj.symm.trans (h c hc hzero.symm)

/-- One more hit is one row less among those past the hits. -/
theorem filter_results {i obj : ℕ} (h : s.results.lookup i = some obj) :
    (s.results.filter (i ≤ ·.1)).Perm ((i, obj) :: s.results.filter (i + 1 ≤ ·.1)) := by
  have hmem : (i, obj) ∈ s.results := by
    obtain ⟨front, back, hl, -⟩ := lookup_eq_some_iff.mp h
    rw [hl]
    exact mem_append_right _ mem_cons_self
  have hperm := perm_cons_erase hmem
  have hother : ∀ r ∈ s.results.erase (i, obj), r.1 ≠ i := by
    have hnd := (hperm.map Prod.fst).nodup_iff.mp s.nodup_results
    rw [map_cons, nodup_cons] at hnd
    exact fun r hr he => hnd.1 (mem_map.mpr ⟨r, hr, he⟩)
  have hsame : (s.results.erase (i, obj)).filter (i ≤ ·.1) =
      (s.results.erase (i, obj)).filter (i + 1 ≤ ·.1) := by
    refine filter_congr fun r hr => ?_
    have := hother r hr
    exact decide_eq_decide.mpr (by omega)
  have hge := hperm.filter (i ≤ ·.1)
  have hgt := hperm.filter (i + 1 ≤ ·.1)
  rw [filter_cons_of_pos (by simp), hsame] at hge
  rw [filter_cons_of_neg (by simp)] at hgt
  exact hge.trans (hgt.symm.cons _)

theorem hitsFrom_perm (ok : List Bool) (i n : ℕ) :
    ((s.results.filter (i ≤ ·.1)).map Prod.snd).Perm
      (s.hitsFrom ok i n ++ (s.results.filter (i + (s.hitsFrom ok i n).length ≤ ·.1)).map
        Prod.snd) := by
  induction n generalizing i with
  | zero => exact List.Perm.refl _
  | succ n ih =>
    rw [hitsFrom]
    split
    next obj h =>
      split
      · have hrest := ((filter_results h).map Prod.snd).trans ((ih (i + 1)).cons obj)
        rwa [Nat.add_right_comm, Nat.add_assoc] at hrest
      · exact List.Perm.refl _
    next => exact List.Perm.refl _

theorem job_perm {keys : ℕ} {o : Outcome} (h : s.job keys = some o) :
    (s.results.map Prod.snd).Perm (o.returned ++ o.released) := by
  obtain ⟨ok, -, rfl⟩ := Option.map_eq_some_iff.mp h
  have hperm := s.hitsFrom_perm ok 0 keys
  rwa [filter_eq_self.mpr (by simp), Nat.zero_add] at hperm

theorem returned_eq_nil {keys : ℕ} {o : Outcome} (h : s.job keys = some o) : o.returned = [] ↔
    (0 < keys → ∀ ok ∈ s.statuses, ok[0]? = some true → s.results.lookup 0 = none) := by
  obtain ⟨ok, hok, rfl⟩ := Option.map_eq_some_iff.mp h
  cases keys with
  | zero => simp [hitsFrom]
  | succ n =>
    rw [hok]
    simp only [hitsFrom]
    grind

end Scatter

/-- Three keys: a hit, a key that is refused, and a hit behind it, which is given back. -/
def threeKeys : Scatter := ⟨[(0, .stashed 5 true), (1, .refused), (2, .stashed 6 true)], by decide,
  some [true, false, true]⟩

example : (Get.run ⟨3, threeKeys, none⟩).released = [6] := rfl

end KVStash.Connector.Retrieve
