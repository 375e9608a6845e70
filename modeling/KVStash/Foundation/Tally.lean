/- GID: KVStash/Foundation/Tally
   digest: Sums over the first numbers that change at one place, and multisets of pairwise related
     items. -/

import Mathlib.Algebra.BigOperators.Finprod

set_option autoImplicit false

namespace KVStash.Foundation.Tally

open Finset

variable {M : Type} [AddCommMonoid M] {n i j : ℕ}

/-- The total of a quantity over the first `n` numbers. -/
def tally (n : ℕ) (f : ℕ → M) : M := ∑ i ∈ range n, f i

@[simp] theorem tally_zero (f : ℕ → M) : tally 0 f = 0 := sum_range_zero f

theorem tally_succ (n : ℕ) (f : ℕ → M) : tally (n + 1) f = tally n f + f n :=
  sum_range_succ f n

theorem tally_congr {f g : ℕ → M} (h : ∀ i < n, f i = g i) : tally n f = tally n g :=
  sum_congr rfl fun i hi => h i (mem_range.mp hi)

theorem tally_exchange (hi : i < n) {f g : ℕ → M} (h : ∀ j < n, j ≠ i → f j = g j) :
    g i + tally n f = f i + tally n g := by
  have hm : i ∈ range n := mem_range.mpr hi
  have hrest : ∑ j ∈ (range n).erase i, f j = ∑ j ∈ (range n).erase i, g j := by
    apply sum_congr rfl
    intro j hj
    rw [mem_erase, mem_range] at hj
    exact h j hj.2 hj.1
  unfold tally
  rw [← add_sum_erase _ f hm, ← add_sum_erase _ g hm, hrest, add_left_comm]

theorem tally_nonneg {f : ℕ → ℤ} (h : ∀ i < n, 0 ≤ f i) : 0 ≤ tally n f :=
  sum_nonneg fun i hi => h i (mem_range.mp hi)

theorem tally_eq_finsum {K : Type} {P : ℕ → Prop} [DecidablePred P] {g : ℕ → K}
    {f : K → M} (hinj : ∀ i < n, ∀ j < n, P i → P j → g i = g j → i = j)
    (hall : ∀ k, f k ≠ 0 → ∃ i < n, P i ∧ g i = k) :
    tally n (fun i => if P i then f (g i) else 0) = ∑ᶠ k, f k := by
  classical
  have hsub : Function.support f ⊆ (((range n).filter P).image g : Finset K) := by
    intro k hk
    obtain ⟨i, hi, hl, rfl⟩ := hall k hk
    exact mem_coe.mpr (mem_image_of_mem _ (by simp [hi, hl]))
  rw [finsum_eq_sum_of_support_subset f hsub, sum_image, sum_filter]
  · rfl
  · intro i hi j hj hij
    rw [mem_coe, mem_filter, mem_range] at hi hj
    exact hinj i hi.1 j hj.1 hi.2 hj.2 hij

theorem exists_tally_eq_add (hi : i < n) (f : ℕ → M) : ∃ x, tally n f = f i + x :=
  ⟨_, (add_sum_erase _ f (mem_range.mpr hi)).symm⟩

theorem exists_tally_eq_add_add (hi : i < n) (hj : j < n) (hij : i ≠ j) (f : ℕ → M) :
    ∃ x, tally n f = f i + (f j + x) := by
  have hm : j ∈ (range n).erase i :=
    mem_erase.mpr ⟨hij.symm, mem_range.mpr hj⟩
  refine ⟨∑ x ∈ ((range n).erase i).erase j, f x, ?_⟩
  unfold tally
  rw [← add_sum_erase _ f (mem_range.mpr hi), ← add_sum_erase _ f hm]

/-! ### Weights of what is in a multiset -/

section Weigh

variable {α : Type}

/-- The total weight of the items of a multiset. -/
def weigh (w : α → M) (m : Multiset α) : M := (m.map w).sum

variable (w : α → M)

@[simp] theorem weigh_zero : weigh w 0 = 0 := rfl

@[simp] theorem weigh_add (m f : Multiset α) : weigh w (m + f) = weigh w m + weigh w f := by
  simp [weigh]

@[simp] theorem weigh_singleton (x : α) : weigh w {x} = w x := by
  simp [weigh]

@[simp] theorem weigh_cons (x : α) (m : Multiset α) : weigh w (x ::ₘ m) = w x + weigh w m := by
  simp [weigh]

theorem weigh_skip {w : α → M} {x : α} (hx : w x = 0) (m : Multiset α) :
    weigh w ({x} + m) = weigh w m := by
  rw [weigh_add, weigh_singleton, hx, zero_add]

theorem weigh_nonneg {w : α → ℤ} (hw : ∀ x, 0 ≤ w x) (m : Multiset α) : 0 ≤ weigh w m := by
  induction m using Multiset.induction_on with
  | empty => exact le_refl _
  | cons x m ih =>
    rw [weigh_cons]
    exact add_nonneg (hw x) ih

end Weigh

/-- Two items of a pairwise related list, counted as often as they occur in it. -/
theorem rel_of_pair_le {α : Type} {r : α → α → Prop} (hr : ∀ a b, r a b → r b a) {l : List α}
    (hl : l.Pairwise r) {a b : α} {s : Multiset α} (h : (l : Multiset α) = {a} + ({b} + s)) :
    r a b := by
  have hperm : l.Perm (a :: b :: s.toList) := by
    rw [← Multiset.coe_eq_coe, h]
    simp only [Multiset.singleton_add, ← Multiset.cons_coe, Multiset.coe_toList]
  have hp := (hperm.pairwise_iff (fun {a b} => hr a b)).mp hl
  exact (List.pairwise_cons.mp hp).1 b List.mem_cons_self

/-! ### Balances -/

section Balances

variable {u b b' : ℕ → ℤ} {i : ℕ} {n : ℤ}

theorem update_charge (hu : ∀ j, u j = b j)
    (hb : ∀ j, b' j = b j + if i = j then n else 0) (j : ℕ) :
    Function.update u i (u i + n) j = b' j := by
  have hbj := hb j
  by_cases hj : j = i
  · subst hj
    rw [if_pos rfl] at hbj
    rw [Function.update_self, hu j, hbj]
  · rw [if_neg (Ne.symm hj)] at hbj
    rw [Function.update_of_ne hj, hu j, hbj, add_zero]

theorem update_refund_add (hn : n ≤ u i) (j : ℕ) :
    Function.update u i (max 0 (u i - n)) j + (if i = j then n else 0) = u j := by
  by_cases hj : j = i
  · subst hj
    rw [Function.update_self, if_pos rfl, max_eq_right (sub_nonneg.mpr hn), sub_add_cancel]
  · rw [Function.update_of_ne hj, if_neg (Ne.symm hj), add_zero]

theorem update_refund (hu : ∀ j, u j = b j) (hb : ∀ j, b j = b' j + if i = j then n else 0)
    (hpos : ∀ j, 0 ≤ b' j) (j : ℕ) : Function.update u i (max 0 (u i - n)) j = b' j := by
  have hn : n ≤ u i := by
    rw [hu, hb, if_pos rfl]
    exact le_add_of_nonneg_left (hpos i)
  have hadd := update_refund_add hn j
  rw [hu j, hb j] at hadd
  exact add_right_cancel hadd

end Balances

end KVStash.Foundation.Tally
