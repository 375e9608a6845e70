/- GID: KVStash/Foundation/BitMask
   digest: Bit sets stored in naturals, and the two-level index that summarises rows of eight. -/

import Mathlib.Data.Nat.Bitwise
import Mathlib.Data.List.Range

set_option autoImplicit false

namespace KVStash.Foundation.BitMask

open Function List

/-- The bits of `m` that are not in `k` (the operator `&^`). -/
def andNot (m k : ℕ) : ℕ := m ^^^ (m &&& k)

/-- The lowest set bit of a word below `2 ^ 32`, or `32` for the empty word. -/
def trailingZeros32 (x : ℕ) : ℕ := ((range 32).find? (x.testBit ·)).getD 32

@[simp] theorem testBit_andNot (m k i : ℕ) :
    (andNot m k).testBit i = (m.testBit i && !k.testBit i) := by
  rw [andNot, Nat.testBit_xor, Nat.testBit_and]
  cases m.testBit i <;> cases k.testBit i <;> rfl

theorem andNot_lt {m k w : ℕ} (h : m < 2 ^ w) : andNot m k < 2 ^ w := by
  apply Nat.lt_pow_two_of_testBit
  intro i hi
  rw [testBit_andNot,
    Nat.testBit_lt_two_pow (lt_of_lt_of_le h (Nat.pow_le_pow_right (by omega) hi))]
  rfl

@[simp] theorem testBit_setBit (m i j : ℕ) :
    (m ||| 1 <<< i).testBit j = (m.testBit j || decide (i = j)) := by
  rw [Nat.testBit_or, Nat.one_shiftLeft, Nat.testBit_two_pow]

@[simp] theorem testBit_clearBit (m i j : ℕ) :
    (andNot m (1 <<< i)).testBit j = (m.testBit j && !decide (i = j)) := by
  rw [testBit_andNot, Nat.one_shiftLeft, Nat.testBit_two_pow]

theorem setBit_lt {m i w : ℕ} (h : m < 2 ^ w) (hi : i < w) : m ||| 1 <<< i < 2 ^ w := by
  refine Nat.or_lt_two_pow h ?_
  rw [Nat.one_shiftLeft]
  exact Nat.pow_lt_pow_right (by omega) hi

theorem and_bit_ne_zero (m i : ℕ) : m &&& 1 <<< i ≠ 0 ↔ m.testBit i = true := by
  rw [Nat.one_shiftLeft, Nat.and_two_pow]
  cases m.testBit i <;> simp

theorem ne_zero_iff_testBit (m : ℕ) : m ≠ 0 ↔ ∃ i, m.testBit i = true := by
  constructor
  · exact Nat.exists_testBit_of_ne_zero
  · rintro ⟨i, hi⟩ rfl
    simp at hi

theorem testBit_lt_width {m w i : ℕ} (h : m < 2 ^ w) (hi : m.testBit i = true) : i < w := by
  by_contra hge
  have :=
    Nat.testBit_lt_two_pow
      (lt_of_lt_of_le h (Nat.pow_le_pow_right (by omega) (Nat.le_of_not_lt hge)))
  simp [this] at hi

theorem trailingZeros32_spec {x : ℕ} (h32 : x < 2 ^ 32) (hx : x ≠ 0) :
    x.testBit (trailingZeros32 x) = true ∧ ∀ j < trailingZeros32 x, x.testBit j = false := by
  obtain ⟨i, hi⟩ := (ne_zero_iff_testBit x).mp hx
  have hlt := testBit_lt_width h32 hi
  cases hf : (range 32).find? (x.testBit ·) with
  | none =>
    have := find?_eq_none.mp hf i (mem_range.mpr hlt)
    exact absurd hi this
  | some k =>
    have hk : trailingZeros32 x = k := by rw [trailingZeros32, hf]; rfl
    rw [hk]
    refine ⟨by simpa using find?_some hf, ?_⟩
    obtain ⟨_, as, bs, heq, hall⟩ := find?_eq_some_iff_append.mp hf
    intro j hj
    have hlen : as.length = k := by
      have hk32 : k < 32 := mem_range.mp (heq ▸ by simp)
      have hget : (range 32)[as.length]? = some k := by rw [heq]; simp
      have hbound : as.length < 32 := by
        have := congrArg length heq
        simp at this
        omega
      rw [getElem?_range hbound] at hget
      exact Option.some.inj hget
    have hjm : j ∈ as := by
      have hget : (range 32)[j]? = some j := by
        apply getElem?_range
        have := congrArg length heq
        simp at this
        omega
      rw [heq, getElem?_append_left (by omega)] at hget
      exact mem_of_getElem? hget
    simpa using hall j hjm

section TwoLevel

/-- A two-level index of the numbers with property `N`: bit `l` of row `t` stands
for `8 * t + l`, and the top word has a bit for each row that is not zero. -/
structure TwoLevel (rows : ℕ → ℕ) (topWord : ℕ) (N : ℕ → Prop) : Prop where
  leaf : ∀ t l, l < 8 → ((rows t).testBit l = true ↔ N (8 * t + l))
  leafWidth : ∀ t, rows t < 2 ^ 8
  top : ∀ t, topWord.testBit t = true ↔ rows t ≠ 0
  topWidth : topWord < 2 ^ 32

variable {rows : ℕ → ℕ} {topWord : ℕ} {N N' : ℕ → Prop} {t l : ℕ}

theorem TwoLevel.congr (h : TwoLevel rows topWord N) (hN : ∀ b, N b ↔ N' b) :
    TwoLevel rows topWord N' where
  leaf t l hl := (h.leaf t l hl).trans (hN _)
  leafWidth := h.leafWidth
  top := h.top
  topWidth := h.topWidth

theorem TwoLevel.row_ne_zero (h : TwoLevel rows topWord N) (t : ℕ) :
    rows t ≠ 0 ↔ ∃ l < 8, N (8 * t + l) := by
  rw [ne_zero_iff_testBit]
  constructor
  · rintro ⟨l, hl⟩
    have hlt := testBit_lt_width (h.leafWidth t) hl
    exact ⟨l, hlt, (h.leaf t l hlt).mp hl⟩
  · rintro ⟨l, hlt, hne⟩
    exact ⟨l, (h.leaf t l hlt).mpr hne⟩

theorem le_log2_of_testBit {m i : ℕ} (h : m.testBit i = true) : i ≤ m.log2 :=
  (Nat.le_log2 ((ne_zero_iff_testBit m).mpr ⟨i, h⟩)).mpr (Nat.ge_two_pow_of_testBit h)

/-- The highest bit of the highest row stands for the greatest number. -/
theorem TwoLevel.highest (h : TwoLevel rows topWord N) (ht : topWord ≠ 0) :
    rows topWord.log2 ≠ 0 ∧ (rows topWord.log2).log2 < 8 ∧
      N (8 * topWord.log2 + (rows topWord.log2).log2) ∧
      ∀ t l, l < 8 → N (8 * t + l) → 8 * t + l ≤ 8 * topWord.log2 + (rows topWord.log2).log2 := by
  have hrow : rows topWord.log2 ≠ 0 := (h.top _).mp (Nat.testBit_log2 ht)
  have hleaf := Nat.testBit_log2 hrow
  have hlt := testBit_lt_width (h.leafWidth _) hleaf
  refine ⟨hrow, hlt, (h.leaf _ _ hlt).mp hleaf, fun t l hl hN => ?_⟩
  have htop := le_log2_of_testBit ((h.top t).mpr ((h.row_ne_zero t).mpr ⟨l, hl, hN⟩))
  rcases htop.lt_or_eq with hlow | rfl
  · omega
  · have hle := le_log2_of_testBit ((h.leaf _ l hl).mpr hN)
    omega

theorem TwoLevel.set (h : TwoLevel rows topWord N) (hl : l < 8) (ht : t < 32) :
    TwoLevel (update rows t (rows t ||| 1 <<< l)) (topWord ||| 1 <<< t)
      (fun b => b = 8 * t + l ∨ N b) where
  leaf t' l' hl' := by
    rw [update_apply]
    split
    · rename_i he
      subst he
      rw [testBit_setBit, Bool.or_eq_true, h.leaf t' l' hl', decide_eq_true_iff]
      constructor
      · rintro (hn | rfl)
        · exact Or.inr hn
        · exact Or.inl rfl
      · rintro (he | hn)
        · exact Or.inr (by omega)
        · exact Or.inl hn
    · rename_i hne
      rw [h.leaf t' l' hl']
      constructor
      · exact Or.inr
      · rintro (he | hn)
        · omega
        · exact hn
  leafWidth t' := by
    rw [update_apply]
    split
    · exact setBit_lt (h.leafWidth t) hl
    · exact h.leafWidth t'
  top t' := by
    rw [testBit_setBit, Bool.or_eq_true, decide_eq_true_iff, h.top, update_apply]
    split
    · rename_i he
      refine iff_of_true (Or.inr he.symm) ?_
      exact (ne_zero_iff_testBit _).mpr ⟨l, by simp⟩
    rename_i hne
    constructor
    · rintro (hr | he)
      · exact hr
      · exact absurd he.symm hne
    · exact Or.inl
  topWidth := setBit_lt h.topWidth ht

theorem TwoLevel.clear (h : TwoLevel rows topWord N) (hl : l < 8) :
    TwoLevel (update rows t (andNot (rows t) (1 <<< l)))
      (if andNot (rows t) (1 <<< l) = 0 then andNot topWord (1 <<< t) else topWord)
      (fun b => b ≠ 8 * t + l ∧ N b) where
  leaf t' l' hl' := by
    rw [update_apply]
    split
    · rename_i he
      subst he
      rw [testBit_clearBit, Bool.and_eq_true, h.leaf t' l' hl', Bool.not_eq_true',
        decide_eq_false_iff_not]
      constructor
      · rintro ⟨hn, hne⟩
        exact ⟨by omega, hn⟩
      · rintro ⟨hne, hn⟩
        exact ⟨hn, by omega⟩
    · rename_i hne
      rw [h.leaf t' l' hl']
      constructor
      · intro hn
        exact ⟨by omega, hn⟩
      · exact And.right
  leafWidth t' := by
    rw [update_apply]
    split
    · exact andNot_lt (h.leafWidth t)
    · exact h.leafWidth t'
  top t' := by
    rw [update_apply]
    by_cases hz : andNot (rows t) (1 <<< l) = 0
    · rw [if_pos hz, testBit_clearBit, Bool.and_eq_true, h.top, Bool.not_eq_true',
        decide_eq_false_iff_not]
      split
      · rename_i he
        exact iff_of_false (fun hc => hc.2 he.symm) (fun hc => hc hz)
      rename_i hne
      constructor
      · exact And.left
      · intro hr
        exact ⟨hr, fun he => hne he.symm⟩
    · rw [if_neg hz, h.top]
      split
      · rename_i he
        subst he
        refine iff_of_true (fun hr => hz ?_) hz
        rw [hr]
        simp [andNot]
      · rfl
  topWidth := by
    split
    · exact andNot_lt h.topWidth
    · exact h.topWidth

end TwoLevel

end KVStash.Foundation.BitMask
