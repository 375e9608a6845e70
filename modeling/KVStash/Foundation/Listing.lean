/- GID: KVStash/Foundation/Listing
   digest: Association lists in the strict order of their keys. -/

import Mathlib.Data.List.Basic

set_option autoImplicit false

namespace KVStash.Foundation

open List

/-- Rows in the order `lt` of their keys, each key once. -/
structure Listing (K V : Type) (lt : K → K → Prop) where
  rows : List (K × V)
  sorted : rows.Pairwise fun a b => lt a.1 b.1

namespace Listing

variable {K V : Type} {lt : K → K → Prop} {l : Listing K V lt} {k i : K} {v w : V}

def empty : Listing K V lt := ⟨[], .nil⟩

private theorem ne_of_behind [Std.Irrefl lt] {x y : K × V} {rest : List (K × V)}
    (h : (x :: rest).Pairwise fun a b => lt a.1 b.1) (hy : y ∈ rest) : y.1 ≠ x.1 := by
  intro he
  have hlt := (pairwise_cons.mp h).1 y hy
  rw [he] at hlt
  exact Std.Irrefl.irrefl _ hlt

theorem unique [Std.Irrefl lt] (h : (k, v) ∈ l.rows) (h' : (k, w) ∈ l.rows) : v = w := by
  obtain ⟨rows, sorted⟩ := l
  induction rows with
  | nil => cases h
  | cons x rest ih =>
    rcases mem_cons.mp h with hx | hx
    · rcases mem_cons.mp h' with hy | hy
      · exact (Prod.mk.inj (hx.trans hy.symm)).2
      · exact absurd (congrArg Prod.fst hx) (ne_of_behind (y := (k, w)) sorted hy)
    · rcases mem_cons.mp h' with hy | hy
      · exact absurd (congrArg Prod.fst hy) (ne_of_behind (y := (k, v)) sorted hx)
      · exact ih (pairwise_cons.mp sorted).2 hx hy

def filterKeys (l : Listing K V lt) (P : K → Bool) : Listing K V lt :=
  ⟨l.rows.filter fun x => P x.1, l.sorted.filter _⟩

theorem mem_filterKeys {P : K → Bool} : (i, w) ∈ (l.filterKeys P).rows ↔
    (i, w) ∈ l.rows ∧ P i = true := by
  rw [filterKeys, mem_filter]

variable [DecidableEq K]

def find (l : Listing K V lt) (k : K) : Option V := (l.rows.find? fun x => x.1 = k).map Prod.snd

theorem find_eq_some [Std.Irrefl lt] : l.find k = some v ↔ (k, v) ∈ l.rows := by
  constructor
  · intro h
    obtain ⟨⟨i, w⟩, hx, rfl⟩ := Option.map_eq_some_iff.mp h
    have hk : i = k := by simpa using find?_some hx
    exact hk ▸ mem_of_find?_eq_some hx
  intro h
  cases hx : l.rows.find? fun x => x.1 = k with
  | none =>
    have hne := find?_eq_none.mp hx _ h
    exact absurd (decide_eq_true rfl) hne
  | some x =>
    have hk : x.1 = k := by simpa using find?_some hx
    have hm : (k, x.2) ∈ l.rows := hk ▸ mem_of_find?_eq_some hx
    rw [find, hx, Option.map_some, unique hm h]

theorem find_eq_none : l.find k = none ↔ ∀ v, (k, v) ∉ l.rows := by
  rw [find, Option.map_eq_none_iff, find?_eq_none]
  constructor
  · intro h v hm
    exact h _ hm (decide_eq_true rfl)
  · rintro h ⟨i, v⟩ hm hk
    exact h v (of_decide_eq_true hk ▸ hm)

def erase (l : Listing K V lt) (k : K) : Listing K V lt := l.filterKeys (· ≠ k)

theorem mem_erase : (i, w) ∈ (l.erase k).rows ↔ i ≠ k ∧ (i, w) ∈ l.rows := by
  rw [erase, mem_filterKeys, decide_eq_true_eq, and_comm]

def insertRow (lt : K → K → Prop) [DecidableRel lt] (k : K) (v : V) : List (K × V) → List (K × V)
  | [] => [(k, v)]
  | x :: rest =>
    if x.1 = k then (k, v) :: rest
    else if lt k x.1 then (k, v) :: x :: rest
    else x :: insertRow lt k v rest

variable [DecidableRel lt]

theorem mem_insertRow [IsStrictOrder K lt] {rows : List (K × V)}
    (h : rows.Pairwise fun a b => lt a.1 b.1) :
    (i, w) ∈ insertRow lt k v rows ↔ i = k ∧ w = v ∨ i ≠ k ∧ (i, w) ∈ rows := by
  induction rows with
  | nil => simp [insertRow]
  | cons x rest ih =>
    have hrest := (pairwise_cons.mp h).2
    rw [insertRow]
    by_cases hx : x.1 = k
    · rw [if_pos hx, mem_cons, mem_cons]
      constructor
      · rintro (he | hm)
        · exact .inl (Prod.mk.inj he)
        · exact .inr ⟨fun hi => ne_of_behind h hm (hi.trans hx.symm), .inr hm⟩
      · rintro (⟨rfl, rfl⟩ | ⟨hne, rfl | hm⟩)
        · exact .inl rfl
        · exact absurd hx hne
        · exact .inr hm
    · rw [if_neg hx]
      split
      · rename_i hlt
        rw [mem_cons]
        constructor
        · rintro (he | hm)
          · exact .inl (Prod.mk.inj he)
          · refine .inr ⟨?_, hm⟩
            rintro rfl
            rcases mem_cons.mp hm with he | hm
            · exact hx (congrArg Prod.fst he).symm
            · exact Std.Irrefl.irrefl _
                (IsTrans.trans _ _ _ ((pairwise_cons.mp h).1 _ hm) hlt)
        · rintro (⟨rfl, rfl⟩ | ⟨-, hm⟩)
          · exact .inl rfl
          · exact .inr hm
      · rw [mem_cons, ih hrest, mem_cons]
        constructor
        · rintro (he | ⟨rfl, rfl⟩ | ⟨hne, hm⟩)
          · refine .inr ⟨?_, .inl he⟩
            rintro rfl
            exact hx (congrArg Prod.fst he).symm
          · exact .inl ⟨rfl, rfl⟩
          · exact .inr ⟨hne, .inr hm⟩
        · rintro (⟨rfl, rfl⟩ | ⟨hne, he | hm⟩)
          · exact .inr (.inl ⟨rfl, rfl⟩)
          · exact .inl he
          · exact .inr (.inr ⟨hne, hm⟩)

theorem sorted_insertRow [IsStrictTotalOrder K lt] (k : K) (v : V) {rows : List (K × V)}
    (h : rows.Pairwise fun a b => lt a.1 b.1) :
    (insertRow lt k v rows).Pairwise fun a b => lt a.1 b.1 := by
  induction rows with
  | nil => exact pairwise_singleton _ _
  | cons x rest ih =>
    obtain ⟨hx, hrest⟩ := pairwise_cons.mp h
    rw [insertRow]
    split
    · rename_i heq
      exact pairwise_cons.mpr ⟨heq ▸ hx, hrest⟩
    rename_i hne
    split
    · rename_i hlt
      refine pairwise_cons.mpr ⟨?_, h⟩
      intro y hy
      rcases mem_cons.mp hy with rfl | hy
      · exact hlt
      · exact IsTrans.trans _ _ _ hlt (hx y hy)
    · rename_i hnlt
      refine pairwise_cons.mpr ⟨?_, ih hrest⟩
      rintro ⟨i, w⟩ hy
      rcases (mem_insertRow hrest).mp hy with ⟨rfl, rfl⟩ | ⟨-, hm⟩
      · rcases trichotomous_of lt x.1 i with hlt | heq | hgt
        · exact hlt
        · exact absurd heq hne
        · exact absurd hgt hnlt
      · exact hx _ hm

variable [IsStrictTotalOrder K lt]

def put (l : Listing K V lt) (k : K) (v : V) : Listing K V lt :=
  ⟨insertRow lt k v l.rows, sorted_insertRow k v l.sorted⟩

theorem mem_put : (i, w) ∈ (l.put k v).rows ↔ i = k ∧ w = v ∨ i ≠ k ∧ (i, w) ∈ l.rows :=
  mem_insertRow l.sorted

end Listing

end KVStash.Foundation
