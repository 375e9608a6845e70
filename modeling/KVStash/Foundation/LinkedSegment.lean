/- GID: KVStash/Foundation/LinkedSegment
   digest: Doubly linked segments threaded through arrays, and tilings of an interval by them. -/

import Mathlib.Algebra.GroupWithZero.Nat
import Mathlib.Data.List.Nodup

set_option autoImplicit false

namespace KVStash.Foundation.LinkedSegment

open List

universe u

variable {ι : Type u}

/-- The first member of a list, or the given end when the list is empty. -/
def first : List ι → Option ι → Option ι
  | [], q => q
  | i :: _, _ => some i

/-- The last member of a list, or the given start when the list is empty. -/
def final : Option ι → List ι → Option ι
  | p, [] => p
  | _, i :: l => final (some i) l

/-- A list of array slots threaded in both directions. The slot before the
segment is `p` and the slot after it is `q`. -/
def Linked (next prev : ι → Option ι) : Option ι → List ι → Option ι → Prop
  | _, [], _ => True
  | p, i :: l, q => prev i = p ∧ next i = first l q ∧ Linked next prev (some i) l q

@[simp] theorem first_nil (q : Option ι) : first [] q = q := rfl
@[simp] theorem first_cons (i : ι) (l : List ι) (q : Option ι) : first (i :: l) q = some i := rfl
@[simp] theorem final_nil (p : Option ι) : final p [] = p := rfl
@[simp] theorem final_cons (p : Option ι) (i : ι) (l : List ι) :
    final p (i :: l) = final (some i) l := rfl

theorem first_append (l r : List ι) (q : Option ι) : first (l ++ r) q = first l (first r q) := by
  cases l <;> rfl

theorem final_append (p : Option ι) (l r : List ι) : final p (l ++ r) = final (final p l) r := by
  induction l generalizing p with
  | nil => rfl
  | cons i l ih => exact ih (some i)

@[simp] theorem final_concat (p : Option ι) (l : List ι) (i : ι) : final p (l ++ [i]) = some i := by
  rw [final_append]
  rfl

theorem first_none (l : List ι) : first l none = l.head? := by
  cases l <;> rfl

variable {l : List ι} {i : ι}

theorem mem_of_final {p : Option ι} (h : final p l = some i) : i ∈ l ∨ p = some i := by
  induction l generalizing p with
  | nil => exact Or.inr h
  | cons j l ih =>
    rcases ih h with hm | hm
    · exact Or.inl (mem_cons_of_mem j hm)
    · rw [Option.some.injEq] at hm
      exact Or.inl (hm ▸ mem_cons_self)

theorem mem_of_first {q : Option ι} (h : first l q = some i) : i ∈ l ∨ q = some i := by
  cases l with
  | nil => exact Or.inr h
  | cons j l =>
    rw [first_cons, Option.some.injEq] at h
    exact Or.inl (h ▸ mem_cons_self)

theorem mem_of_final_none (h : final none l = some i) : i ∈ l := by
  rcases mem_of_final h with hm | hm
  · exact hm
  · simp at hm

theorem mem_of_first_none (h : first l none = some i) : i ∈ l := by
  rcases mem_of_first h with hm | hm
  · exact hm
  · simp at hm

theorem eq_concat_of_final (h : final none l = some i) : ∃ r, l = r ++ [i] := by
  rcases eq_nil_or_concat l with rfl | ⟨r, j, rfl⟩
  · simp at h
  · refine ⟨r, ?_⟩
    rw [concat_eq_append, final_concat, Option.some.injEq] at h
    rw [concat_eq_append, h]

theorem eq_cons_of_first (h : first l none = some i) : ∃ r, l = i :: r := by
  cases l with
  | nil => simp at h
  | cons j r =>
    rw [first_cons, Option.some.injEq] at h
    exact ⟨r, h ▸ rfl⟩

section Links

variable {next prev next' prev' : ι → Option ι} {p p' q q' : Option ι} {l r : List ι}

theorem linked_append :
    Linked next prev p (l ++ r) q ↔
      Linked next prev p l (first r q) ∧ Linked next prev (final p l) r q := by
  induction l generalizing p with
  | nil => simp [Linked]
  | cons i l ih =>
    simp only [cons_append, Linked, first_append, final_cons, ih, and_assoc]

theorem Linked.congr (h : Linked next prev p l q) (hn : ∀ i ∈ l, next' i = next i)
    (hp : ∀ i ∈ l, prev' i = prev i) : Linked next' prev' p l q := by
  induction l generalizing p with
  | nil => trivial
  | cons i l ih =>
    obtain ⟨h1, h2, h3⟩ := h
    refine ⟨?_, ?_, ?_⟩
    · rw [hp i mem_cons_self, h1]
    · rw [hn i mem_cons_self, h2]
    · exact ih h3 (fun j hj => hn j (mem_cons_of_mem i hj))
        (fun j hj => hp j (mem_cons_of_mem i hj))

theorem Linked.redirect_first (h : Linked next prev p l q) (hn : ∀ i ∈ l, next' i = next i)
    (hp : ∀ i ∈ l.tail, prev' i = prev i) (hh : ∀ i, first l none = some i → prev' i = p') :
    Linked next' prev' p' l q := by
  cases l with
  | nil => trivial
  | cons i l =>
    obtain ⟨_, h2, h3⟩ := h
    refine ⟨hh i rfl, ?_, ?_⟩
    · rw [hn i mem_cons_self, h2]
    · exact h3.congr (fun j hj => hn j (mem_cons_of_mem i hj)) hp

theorem Linked.redirect_final (h : Linked next prev p l q) (hp : ∀ i ∈ l, prev' i = prev i)
    (hn : ∀ i ∈ l.dropLast, next' i = next i) (hf : ∀ i, final none l = some i → next' i = q') :
    Linked next' prev' p l q' := by
  rcases eq_nil_or_concat l with rfl | ⟨r, i, rfl⟩
  · trivial
  rw [concat_eq_append] at *
  rw [linked_append] at h ⊢
  have hmem : ∀ j ∈ r, j ∈ r ++ [i] := fun j hj => mem_append_left _ hj
  refine ⟨?_, ?_, ?_, trivial⟩
  · refine h.1.congr (fun j hj => hn j ?_) (fun j hj => hp j (hmem j hj))
    simpa using hj
  · rw [hp i (by simp)]
    exact h.2.1
  · exact hf i (final_concat none r i)

theorem Linked.at_member (h : Linked next prev p (l ++ i :: r) q) :
    prev i = final p l ∧ next i = first r q := by
  have hr := (linked_append.mp h).2
  exact ⟨hr.1, hr.2.1⟩

/-- Two segments whose inner ends are given new neighbours. -/
theorem Linked.rejoin [DecidableEq ι] {x y x' y' : Option ι} (hl : Linked next prev none l x)
    (hr : Linked next prev y r none) (hnd : (l ++ r).Nodup)
    (hn : ∀ j ∈ l ++ r, next' j = if final none l = some j then x' else next j)
    (hp : ∀ j ∈ l ++ r, prev' j = if first r none = some j then y' else prev j) :
    Linked next' prev' none l x' ∧ Linked next' prev' y' r none := by
  obtain ⟨ndl, ndr, ndlr⟩ := nodup_append.mp hnd
  constructor
  · refine hl.redirect_final ?_ ?_ ?_
    · intro j hj
      rw [hp j (mem_append_left r hj)]
      exact if_neg (fun hf => ndlr j hj j (mem_of_first_none hf) rfl)
    · intro j hj
      rw [hn j (mem_append_left r (dropLast_subset l hj))]
      refine if_neg (fun hf => ?_)
      obtain ⟨u, rfl⟩ := eq_concat_of_final hf
      rw [dropLast_concat] at hj
      exact (nodup_append.mp ndl).2.2 j hj j (mem_singleton.mpr rfl) rfl
    · intro j hj
      rw [hn j (mem_append_left r (mem_of_final_none hj))]
      exact if_pos hj
  · refine hr.redirect_first ?_ ?_ ?_
    · intro j hj
      rw [hn j (mem_append_right l hj)]
      exact if_neg (fun hf => ndlr j (mem_of_final_none hf) j hj rfl)
    · intro j hj
      rw [hp j (mem_append_right l (mem_of_mem_tail hj))]
      refine if_neg (fun hf => ?_)
      obtain ⟨u, rfl⟩ := eq_cons_of_first hf
      exact (nodup_cons.mp ndr).1 hj
    · intro j hj
      rw [hp j (mem_append_right l (mem_of_first_none hj))]
      exact if_pos hj

theorem Linked.delete [DecidableEq ι] (h : Linked next prev none (l ++ i :: r) none)
    (hnd : (l ++ i :: r).Nodup)
    (hn : ∀ j ∈ l ++ r, next' j = if final none l = some j then first r none else next j)
    (hp : ∀ j ∈ l ++ r, prev' j = if first r none = some j then final none l else prev j) :
    Linked next' prev' none (l ++ r) none := by
  rw [linked_append] at h ⊢
  obtain ⟨hl, _, _, hr⟩ := h
  exact hl.rejoin hr (hnd.sublist ((sublist_cons_self i r).append_left l)) hn hp

theorem Linked.insert [DecidableEq ι] (h : Linked next prev none (l ++ r) none)
    (hnd : (l ++ r).Nodup) (hpi : prev' i = final none l) (hni : next' i = first r none)
    (hn : ∀ j ∈ l ++ r, next' j = if final none l = some j then some i else next j)
    (hp : ∀ j ∈ l ++ r, prev' j = if first r none = some j then some i else prev j) :
    Linked next' prev' none (l ++ i :: r) none := by
  rw [linked_append] at h ⊢
  obtain ⟨hl, hr⟩ := h.1.rejoin h.2 hnd hn hp
  exact ⟨hl, hpi, hni, hr⟩

end Links

section Tiling

variable {off size off' size' : ι → ℕ} {a b : ℕ} {l r : List ι}

/-- The members' ranges `[off i, off i + size i)` cover `[a, b)` in the order
of the list, each starting where the one before it ends. -/
def Tiles (off size : ι → ℕ) : ℕ → List ι → ℕ → Prop
  | a, [], b => a = b
  | a, i :: l, b => off i = a ∧ 0 < size i ∧ Tiles off size (a + size i) l b

theorem tiles_append :
    Tiles off size a (l ++ r) b ↔ ∃ m, Tiles off size a l m ∧ Tiles off size m r b := by
  induction l generalizing a with
  | nil => simp [Tiles]
  | cons i l ih => simp [Tiles, ih, and_assoc]

theorem Tiles.congr (h : Tiles off size a l b) (ho : ∀ i ∈ l, off' i = off i)
    (hs : ∀ i ∈ l, size' i = size i) : Tiles off' size' a l b := by
  induction l generalizing a with
  | nil => exact h
  | cons i l ih =>
    obtain ⟨h1, h2, h3⟩ := h
    refine ⟨?_, ?_, ?_⟩
    · rw [ho i mem_cons_self, h1]
    · rw [hs i mem_cons_self]
      exact h2
    · rw [hs i mem_cons_self]
      exact ih h3 (fun j hj => ho j (mem_cons_of_mem i hj))
        (fun j hj => hs j (mem_cons_of_mem i hj))

theorem Tiles.le (h : Tiles off size a l b) : a ≤ b := by
  induction l generalizing a with
  | nil => exact Nat.le_of_eq h
  | cons i l ih => exact Nat.le_trans (Nat.le_add_right _ _) (ih h.2.2)

theorem Tiles.bounds (h : Tiles off size a l b) (hi : i ∈ l) :
    a ≤ off i ∧ off i + size i ≤ b ∧ 0 < size i := by
  induction l generalizing a with
  | nil => simp at hi
  | cons j l ih =>
    obtain ⟨h1, h2, h3⟩ := h
    rcases mem_cons.mp hi with rfl | hm
    · exact ⟨Nat.le_of_eq h1.symm, h1 ▸ h3.le, h2⟩
    · obtain ⟨g1, g2, g3⟩ := ih h3 hm
      exact ⟨by omega, g2, g3⟩

theorem Tiles.pairwise (h : Tiles off size a l b) :
    l.Pairwise (fun i j => off i + size i ≤ off j) := by
  induction l generalizing a with
  | nil => exact List.Pairwise.nil
  | cons i l ih =>
    obtain ⟨h1, _, h3⟩ := h
    refine List.Pairwise.cons ?_ (ih h3)
    intro j hj
    have := (h3.bounds hj).1
    omega

theorem Tiles.sum (h : Tiles off size a l b) : a + (l.map size).sum = b := by
  induction l generalizing a with
  | nil => simpa [Tiles] using h
  | cons i l ih =>
    have := ih h.2.2
    simp only [map_cons, sum_cons]
    omega

end Tiling

end KVStash.Foundation.LinkedSegment
