/- GID: KVStash/Foundation/Table
   digest: Finite tables of rows with distinct keys, totals over their rows, and tables split over
     an index. -/

import Mathlib.Data.List.AList
import Mathlib.Algebra.Order.Group.Nat
import Mathlib.Algebra.Order.BigOperators.Group.List
import Mathlib.Algebra.BigOperators.Fin

set_option autoImplicit false

namespace KVStash.Foundation

open AList

variable {K V M : Type}

/-- A finite map from keys to rows. -/
abbrev Table (K V : Type) := AList fun _ : K => V

namespace Table

/-- The sum of a quantity over the rows. -/
def total [AddCommMonoid M] (f : K → V → M) (t : Table K V) : M :=
  (t.entries.map fun e => f e.1 e.2).sum

def size (t : Table K V) : ℕ := t.entries.length

def filter (p : K → Bool) (t : Table K V) : Table K V :=
  ⟨t.entries.filter fun e => p e.1, t.nodupKeys.sublist List.filter_sublist⟩

variable [DecidableEq K] [AddCommMonoid M] {f f' : K → V → M} {t t' : Table K V} {k : K} {v : V}

theorem total_insert (f : K → V → M) (t : Table K V) (k : K) (v : V) :
    total f (t.insert k v) = f k v + total f (t.erase k) := by
  rw [total, entries_insert, List.map_cons, List.sum_cons]
  rfl

theorem lookup_insert_ite (t : Table K V) (k : K) (v : V) (k' : K) :
    (t.insert k v).lookup k' = if k' = k then some v else t.lookup k' := by
  split
  · rename_i hk
    rw [hk, lookup_insert]
  · rename_i hk
    rw [lookup_insert_ne hk]

theorem lookup_erase_ite (t : Table K V) (k k' : K) :
    (t.erase k).lookup k' = if k' = k then none else t.lookup k' := by
  split
  · rename_i hk
    rw [hk, lookup_erase]
  · rename_i hk
    rw [lookup_erase_ne hk]

theorem lookup_of_erase {k' : K} (h : (t.erase k').lookup k = some v) : t.lookup k = some v := by
  by_cases hk : k = k'
  · rw [hk, lookup_erase] at h
    cases h
  · rwa [lookup_erase_ne hk] at h

theorem lookup_of_insert {k' : K} {v' : V} (h : (t.insert k v).lookup k' = some v') :
    k' = k ∧ v' = v ∨ t.lookup k' = some v' := by
  by_cases hk : k' = k
  · rw [hk, lookup_insert] at h
    exact .inl ⟨hk, (Option.some.inj h).symm⟩
  · rw [lookup_insert_ne hk] at h
    exact .inr h

theorem entries_perm (h : t.lookup k = some v) :
    t.entries.Perm (⟨k, v⟩ :: (t.erase k).entries) := by
  have hrows : ∀ l : List (Sigma fun _ : K => V), v ∈ l.dlookup k →
      l.Perm (⟨k, v⟩ :: l.kerase k) := by
    intro l
    induction l with
    | nil => exact fun h => nomatch h
    | cons e l ih =>
      intro h
      by_cases hk : k = e.1
      · subst hk
        rw [List.dlookup_cons_eq, Option.mem_some_iff] at h
        rw [List.kerase_cons_eq rfl, ← h]
      · rw [List.dlookup_cons_ne _ _ hk] at h
        rw [List.kerase_cons_ne hk]
        exact ((ih h).cons e).trans (.swap ..)
  exact hrows t.entries h

theorem total_erase (f : K → V → M) (h : t.lookup k = some v) :
    f k v + total f (t.erase k) = total f t := by
  rw [total, total, ((entries_perm h).map _).sum_eq, List.map_cons, List.sum_cons]

theorem total_update (f : K → V → M) (h : t.lookup k = some v) (v' : V) :
    f k v + total f (t.insert k v') = f k v' + total f t := by
  rw [total_insert, ← total_erase f h, add_left_comm]

theorem erase_of_lookup_none (h : t.lookup k = none) : t.erase k = t :=
  ext (List.kerase_of_notMem_keys (lookup_eq_none.mp h))

theorem total_insert_new (f : K → V → M) (h : t.lookup k = none) (v : V) :
    total f (t.insert k v) = f k v + total f t := by
  rw [total_insert, erase_of_lookup_none h]

omit [DecidableEq K] in
theorem size_eq_total (t : Table K V) : size t = total (fun _ _ => 1) t := by
  simp [size, total]

theorem size_erase_le (t : Table K V) (k : K) : size (t.erase k) ≤ size t :=
  (List.kerase_sublist k t.entries).length_le

theorem size_update (h : t.lookup k = some v) (v' : V) : size (t.insert k v') = size t := by
  have := total_update (fun _ _ => 1) h v'
  rw [size_eq_total, size_eq_total]
  omega

theorem size_insert_le (t : Table K V) (k : K) (v : V) : size (t.insert k v) ≤ 1 + size t := by
  have := size_erase_le t k
  rw [size, entries_insert, List.length_cons, Nat.add_comm]
  exact Nat.add_le_add_left this 1

/-- What a key adds to a total. -/
def share (f : K → V → M) (t : Table K V) (k : K) : M := (t.lookup k).elim 0 (f k)

theorem total_eq_share (f : K → V → M) (t : Table K V) (k : K) :
    total f t = share f t k + total f (t.erase k) := by
  unfold share
  cases h : t.lookup k with
  | none => rw [Option.elim_none, zero_add, erase_of_lookup_none h]
  | some v => exact (total_erase f h).symm

theorem share_erase_self (f : K → V → M) (t : Table K V) (k : K) : share f (t.erase k) k = 0 := by
  rw [share, lookup_erase, Option.elim_none]

theorem share_erase_ne {k' : K} (h : k' ≠ k) : share f (t.erase k) k' = share f t k' := by
  rw [share, share, lookup_erase_ne h]

theorem total_congr (h : ∀ k, share f' t' k = share f t k) : total f' t' = total f t := by
  induction hn : size t generalizing t t' with
  | zero =>
    have hnil : t.entries = [] := List.length_eq_zero_iff.mp hn
    have hzero : total f' t' = 0 := List.sum_eq_zero fun x hx => by
      obtain ⟨e, he, rfl⟩ := List.mem_map.mp hx
      have hk := h e.1
      rw [share, show t'.lookup e.1 = some e.2 from mem_lookup_iff.mpr he, share] at hk
      rw [show t.lookup e.1 = none from ?_] at hk
      · exact hk
      · rw [lookup, hnil, List.dlookup_nil]
    rw [hzero, total, hnil]
    rfl
  | succ n ih =>
    obtain ⟨e, he⟩ := List.exists_mem_of_length_pos (l := t.entries) (by rw [size] at hn; omega)
    have hsize := total_erase (fun (_ : K) (_ : V) => 1) (mem_lookup_iff.mpr he)
    rw [← size_eq_total, ← size_eq_total] at hsize
    rw [total_eq_share f' t' e.1, total_eq_share f t e.1, h e.1]
    refine congrArg _ (ih (fun k => ?_) (by omega))
    by_cases hk : k = e.1
    · rw [hk, share_erase_self, share_erase_self]
    · rw [share_erase_ne hk, share_erase_ne hk, h k]

theorem le_total {g : K → V → ℕ} (h : t.lookup k = some v) : g k v ≤ total g t := by
  rw [← total_erase g h]
  exact Nat.le_add_right _ _

theorem total_mono {g g' : K → V → ℕ} (h : ∀ k v, t.lookup k = some v → g k v ≤ g' k v) :
    total g t ≤ total g' t := by
  refine List.sum_le_sum fun e he => h e.1 e.2 ?_
  exact mem_lookup_iff.mpr he

theorem lookup_filter (p : K → Bool) (t : Table K V) (k : K) :
    (t.filter p).lookup k = if p k then t.lookup k else none := by
  ext v
  rw [← Option.mem_def, ← Option.mem_def, mem_lookup_iff, filter, List.mem_filter]
  by_cases hp : p k
  · rw [if_pos hp, mem_lookup_iff]
    exact and_iff_left hp
  · rw [if_neg hp]
    simp [hp]

theorem total_eq_sum {ι : Type} {key : ι → K} {val : ι → V} {l : List ι} (hkeys : (l.map key).Nodup)
    (hrow : ∀ i ∈ l, t.lookup (key i) = some (val i))
    (hall : ∀ k v, t.lookup k = some v → (∃ i ∈ l, key i = k) ∨ f k v = 0) :
    total f t = (l.map fun i => f (key i) (val i)).sum := by
  induction l generalizing t with
  | nil =>
    refine List.sum_eq_zero fun x hx => ?_
    obtain ⟨e, he, rfl⟩ := List.mem_map.mp hx
    exact (hall e.1 e.2 (mem_lookup_iff.mpr he)).resolve_left (by simp)
  | cons i l ih =>
    rw [List.map_cons, List.nodup_cons] at hkeys
    have hne : ∀ j ∈ l, key j ≠ key i := fun j hj heq => hkeys.1 (heq ▸ List.mem_map_of_mem hj)
    rw [List.map_cons, List.sum_cons, ← total_erase f (hrow i List.mem_cons_self), ih hkeys.2]
    · intro j hj
      rw [lookup_erase_ne (hne j hj)]
      exact hrow j (List.mem_cons_of_mem i hj)
    intro k v hk
    have hki : k ≠ key i := by
      rintro rfl
      rw [lookup_erase] at hk
      cases hk
    rw [lookup_erase_ne hki] at hk
    rcases hall k v hk with ⟨j, hj, rfl⟩ | h0
    · exact .inl ⟨j, (List.mem_cons.mp hj).resolve_left fun h => hki (h ▸ rfl), rfl⟩
    · exact .inr h0
end Table

/-- A table split over the values of an index. -/
def Shards (I K V : Type) := I → Table K V

namespace Shards

variable {I K V : Type} [DecidableEq I] [DecidableEq K]

def empty : Shards I K V := fun _ => ∅

def get (idx : K → I) (s : Shards I K V) (k : K) : Option V := (s (idx k)).lookup k

def put (idx : K → I) (s : Shards I K V) (k : K) (v : V) : Shards I K V :=
  fun i => if i = idx k then (s i).insert k v else s i

def drop (idx : K → I) (s : Shards I K V) (k : K) : Shards I K V :=
  fun i => if i = idx k then (s i).erase k else s i

variable (idx : K → I) (s : Shards I K V) (k k' : K) (v : V)

omit [DecidableEq I] in
@[simp] theorem get_empty : (empty : Shards I K V).get idx k = none := AList.lookup_empty k

theorem get_put : (s.put idx k v).get idx k' = if k' = k then some v else s.get idx k' := by
  unfold get put
  by_cases hi : idx k' = idx k
  · rw [if_pos hi, Table.lookup_insert_ite]
  · rw [if_neg hi, if_neg (mt (congrArg idx) hi)]

theorem get_drop : (s.drop idx k).get idx k' = if k' = k then none else s.get idx k' := by
  unfold get drop
  by_cases hi : idx k' = idx k
  · rw [if_pos hi, Table.lookup_erase_ite]
  · rw [if_neg hi, if_neg (mt (congrArg idx) hi)]

variable {idx s k k'} {i : I} {v' : V}

theorem lookup_put (h : (s.put idx k v i).lookup k' = some v') :
    (i = idx k ∧ k' = k ∧ v' = v) ∨ (s i).lookup k' = some v' := by
  unfold put at h
  split at h
  · rename_i hi
    exact (Table.lookup_of_insert h).imp_left fun heq => ⟨hi, heq⟩
  · exact .inr h

theorem lookup_drop (h : (s.drop idx k i).lookup k' = some v') : (s i).lookup k' = some v' := by
  unfold drop at h
  split at h
  · exact Table.lookup_of_erase h
  · exact h

def size [Fintype I] (s : Shards I K V) : ℕ := ∑ i, Table.size (s i)

theorem size_drop [Fintype I] {idx : K → I} {s : Shards I K V} {k : K} {v : V}
    (h : s.get idx k = some v) : (s.drop idx k).size + 1 = s.size := by
  have hrow := Table.total_erase (fun _ _ => 1) h
  rw [← Table.size_eq_total, ← Table.size_eq_total] at hrow
  have hrest : ∑ i ∈ Finset.univ.erase (idx k), Table.size (s.drop idx k i) =
      ∑ i ∈ Finset.univ.erase (idx k), Table.size (s i) :=
    Finset.sum_congr rfl fun i hi => by rw [drop, if_neg (Finset.ne_of_mem_erase hi)]
  unfold size
  rw [← Finset.add_sum_erase _ _ (Finset.mem_univ (idx k)),
    ← Finset.add_sum_erase _ _ (Finset.mem_univ (idx k)), hrest, drop, if_pos rfl]
  omega

end Shards

end KVStash.Foundation
