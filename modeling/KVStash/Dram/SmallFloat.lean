/- GID: KVStash/Dram/SmallFloat
   digest: The 8-bit float-log size codes of the offset allocator and their rounding laws. -/

import Mathlib.Data.Nat.Log
import Mathlib.Data.Nat.Bitwise
import Mathlib.Tactic.Ring
import Mathlib.Tactic.IntervalCases

set_option autoImplicit false

namespace KVStash.Dram.SmallFloat

def mantissaBits : ℕ := 3
def mantissaValue : ℕ := 1 <<< mantissaBits
def mantissaMask : ℕ := mantissaValue - 1

def leadingZeros32 (x : ℕ) : ℕ := if x = 0 then 32 else 31 - Nat.log2 x

/-- The size code rounded up: a mantissa overflow carries into the exponent. -/
def uintToFloatRoundUp (size : ℕ) : ℕ :=
  if size < mantissaValue then size
  else
    let highestSetBit := 31 - leadingZeros32 size
    let mantissaStartBit := highestSetBit - mantissaBits
    let exp := mantissaStartBit + 1
    let mantissa := (size >>> mantissaStartBit) &&& mantissaMask
    let lowBitsMask := (1 <<< mantissaStartBit) - 1
    let mantissa := if size &&& lowBitsMask ≠ 0 then mantissa + 1 else mantissa
    (exp <<< mantissaBits) + mantissa

def uintToFloatRoundDown (size : ℕ) : ℕ :=
  if size < mantissaValue then size
  else
    let highestSetBit := 31 - leadingZeros32 size
    let mantissaStartBit := highestSetBit - mantissaBits
    let exp := mantissaStartBit + 1
    let mantissa := (size >>> mantissaStartBit) &&& mantissaMask
    (exp <<< mantissaBits) ||| mantissa

def floatToUint (f : ℕ) : ℕ :=
  let exp := f >>> mantissaBits
  let mantissa := f &&& mantissaMask
  if exp = 0 then mantissa else (mantissa ||| mantissaValue) <<< (exp - 1)

private theorem and_seven (x : ℕ) : x &&& 7 = x % 8 := Nat.and_two_pow_sub_one_eq_mod x 3

private def scale (size : ℕ) : ℕ := Nat.log2 size - 3

variable {size : ℕ}

theorem highest_bit (hne : size ≠ 0) (h32 : size < 2 ^ 32) :
    31 - leadingZeros32 size = Nat.log2 size := by
  have hlt : Nat.log2 size < 32 := (Nat.log2_lt hne).mpr h32
  simp only [leadingZeros32, hne, if_false]
  omega

private theorem leading_bits (size : ℕ) (h8 : 8 ≤ size) :
    8 ≤ size / 2 ^ scale size ∧ size / 2 ^ scale size < 16 := by
  have hne : size ≠ 0 := by omega
  have hlog : 3 ≤ Nat.log2 size := (Nat.le_log2 hne).mpr (by simpa using h8)
  have hlo : 2 ^ Nat.log2 size ≤ size := Nat.log2_self_le hne
  have hhi : size < 2 ^ (Nat.log2 size + 1) := Nat.lt_log2_self
  have hsplit : 2 ^ Nat.log2 size = 8 * 2 ^ scale size := by
    rw [scale, show (8 : ℕ) = 2 ^ 3 from rfl, ← pow_add]
    congr 1
    omega
  have hpos : 0 < 2 ^ scale size := Nat.two_pow_pos _
  constructor
  · rw [Nat.le_div_iff_mul_le hpos]
    omega
  · rw [Nat.div_lt_iff_lt_mul hpos]
    rw [pow_succ] at hhi
    omega

private theorem roundDown_normal (h8 : 8 ≤ size) (h32 : size < 2 ^ 32) :
    uintToFloatRoundDown size = 8 * scale size + size / 2 ^ scale size := by
  have hm := leading_bits size h8
  have hnot : ¬ size < mantissaValue := by simp [mantissaValue, mantissaBits]; omega
  simp only [uintToFloatRoundDown, hnot, if_false, highest_bit (by omega) h32]
  change ((scale size + 1) <<< 3) ||| ((size >>> scale size) &&& 7) = _
  rw [and_seven, Nat.shiftRight_eq_div_pow, ← Nat.shiftLeft_add_eq_or_of_lt (by omega),
    Nat.shiftLeft_eq]
  omega

private theorem roundDown_small (h8 : size < 8) : uintToFloatRoundDown size = size := by
  simp [uintToFloatRoundDown, mantissaValue, mantissaBits, h8]

private theorem roundUp_normal (h8 : 8 ≤ size) (h32 : size < 2 ^ 32) :
    uintToFloatRoundUp size = 8 * scale size + size / 2 ^ scale size +
      (if size % 2 ^ scale size = 0 then 0 else 1) := by
  have hm := leading_bits size h8
  have hnot : ¬ size < mantissaValue := by simp [mantissaValue, mantissaBits]; omega
  simp only [uintToFloatRoundUp, hnot, if_false, highest_bit (by omega) h32]
  change ((scale size + 1) <<< 3) + (if size &&& (1 <<< scale size - 1) ≠ 0
    then ((size >>> scale size) &&& 7) + 1 else (size >>> scale size) &&& 7) = _
  rw [and_seven, Nat.shiftRight_eq_div_pow, Nat.one_shiftLeft,
    Nat.and_two_pow_sub_one_eq_mod, Nat.shiftLeft_eq]
  split_ifs <;> omega

private theorem floatToUint_normal {e m : ℕ} (h8 : 8 ≤ m) (h16 : m < 16) :
    floatToUint (8 * e + m) = m * 2 ^ e := by
  have hexp : (8 * e + m) >>> 3 = e + 1 := by
    rw [Nat.shiftRight_eq_div_pow]
    omega
  have hman : (8 * e + m) &&& 7 = m - 8 := by
    rw [and_seven]
    omega
  have hor : (m - 8) ||| 8 = m := by
    interval_cases m <;> rfl
  change (if (8 * e + m) >>> 3 = 0 then (8 * e + m) &&& 7
    else (((8 * e + m) &&& 7) ||| 8) <<< ((8 * e + m) >>> 3 - 1)) = _
  rw [hexp, hman, hor, if_neg (by omega), Nat.shiftLeft_eq]
  rfl

private theorem floatToUint_small {f : ℕ} (h : f < 8) : floatToUint f = f := by
  interval_cases f <;> rfl

theorem floatToUint_lt_succ (f : ℕ) : floatToUint f < floatToUint (f + 1) := by
  by_cases h7 : f < 7
  · rw [floatToUint_small (by omega), floatToUint_small (by omega)]
    omega
  by_cases h8 : f = 7
  · subst h8
    decide
  have hlo : 8 ≤ f := by omega
  have hf : f = 8 * (f / 8 - 1) + (f % 8 + 8) := by omega
  have hpos : 0 < 2 ^ (f / 8 - 1) := Nat.two_pow_pos _
  by_cases hc : f % 8 < 7
  · have hs : f + 1 = 8 * (f / 8 - 1) + (f % 8 + 9) := by omega
    rw [hs]
    conv_lhs => rw [hf]
    rw [floatToUint_normal (by omega) (by omega), floatToUint_normal (by omega) (by omega)]
    exact Nat.mul_lt_mul_of_pos_right (by omega) hpos
  · have hs : f + 1 = 8 * (f / 8 - 1 + 1) + 8 := by omega
    rw [hs]
    conv_lhs => rw [hf]
    rw [floatToUint_normal (by omega) (by omega), floatToUint_normal (by omega) (by omega),
      pow_succ]
    have hmod : f % 8 = 7 := by omega
    rw [hmod]
    omega

theorem floatToUint_strictMono : StrictMono floatToUint :=
  strictMono_nat_of_lt_succ floatToUint_lt_succ

theorem floatToUint_roundDown_le (h32 : size < 2 ^ 32) :
    floatToUint (uintToFloatRoundDown size) ≤ size := by
  by_cases h8 : size < 8
  · rw [roundDown_small h8, floatToUint_small h8]
  · have hm := leading_bits size (by omega)
    rw [roundDown_normal (by omega) h32, floatToUint_normal hm.1 hm.2]
    exact Nat.div_mul_le_self size _

theorem lt_floatToUint_roundDown_succ (h32 : size < 2 ^ 32) :
    size < floatToUint (uintToFloatRoundDown size + 1) := by
  by_cases h8 : size < 8
  · have := floatToUint_lt_succ size
    rw [floatToUint_small h8] at this
    rwa [roundDown_small h8]
  have hm := leading_bits size (by omega)
  have hdiv := Nat.div_add_mod size (2 ^ scale size)
  have hmod := Nat.mod_lt size (Nat.two_pow_pos (scale size))
  rw [roundDown_normal (by omega) h32]
  by_cases h15 : size / 2 ^ scale size < 15
  · rw [Nat.add_assoc, floatToUint_normal (by omega) (by omega), Nat.add_mul, Nat.one_mul,
      Nat.mul_comm]
    omega
  · have h : 8 * scale size + size / 2 ^ scale size + 1 = 8 * (scale size + 1) + 8 := by omega
    have he : size / 2 ^ scale size = 15 := by omega
    rw [h, floatToUint_normal (by omega) (by omega), pow_succ]
    rw [he] at hdiv
    omega

/-- The two roundings differ by one code, except at the sizes that a code stands for. -/
theorem roundUp_eq (h32 : size < 2 ^ 32) : uintToFloatRoundUp size = uintToFloatRoundDown size +
    if floatToUint (uintToFloatRoundDown size) = size then 0 else 1 := by
  by_cases h8 : size < 8
  · rw [roundDown_small h8, if_pos (floatToUint_small h8)]
    simp [uintToFloatRoundUp, mantissaValue, mantissaBits, h8]
  have hm := leading_bits size (by omega)
  have hdiv := Nat.div_add_mod size (2 ^ scale size)
  rw [roundUp_normal (by omega) h32, roundDown_normal (by omega) h32, floatToUint_normal hm.1 hm.2]
  rw [Nat.mul_comm] at hdiv
  congr 1
  split_ifs <;> omega

theorem le_floatToUint_roundUp (h32 : size < 2 ^ 32) :
    size ≤ floatToUint (uintToFloatRoundUp size) := by
  have hlt := lt_floatToUint_roundDown_succ h32
  rw [roundUp_eq h32]
  split_ifs with h
  · exact h.ge
  · exact hlt.le

theorem le_roundDown_iff (h32 : size < 2 ^ 32) {b : ℕ} : b ≤ uintToFloatRoundDown size ↔
    floatToUint b ≤ size := by
  constructor
  · intro h
    exact (floatToUint_strictMono.monotone h).trans (floatToUint_roundDown_le h32)
  · intro h
    exact Nat.le_of_lt_succ
      (floatToUint_strictMono.lt_iff_lt.mp (h.trans_lt (lt_floatToUint_roundDown_succ h32)))

theorem roundUp_le_iff (h32 : size < 2 ^ 32) {b : ℕ} : uintToFloatRoundUp size ≤ b ↔
    size ≤ floatToUint b := by
  constructor
  · intro h
    exact (le_floatToUint_roundUp h32).trans (floatToUint_strictMono.monotone h)
  · intro h
    have hle := floatToUint_roundDown_le h32
    rw [roundUp_eq h32]
    split_ifs with he
    · exact floatToUint_strictMono.le_iff_le.mp (he.trans_le h)
    · exact floatToUint_strictMono.lt_iff_lt.mp ((hle.lt_of_ne he).trans_le h)

theorem le_of_roundUp_le_roundDown {n : ℕ} (hn : n < 2 ^ 32) (hs : size < 2 ^ 32)
    (h : uintToFloatRoundUp n ≤ uintToFloatRoundDown size) : n ≤ size :=
  ((roundUp_le_iff hn).mp h).trans (floatToUint_roundDown_le hs)

theorem roundDown_lt (h32 : size < 2 ^ 32) : uintToFloatRoundDown size < 240 := by
  by_contra h
  have hlast : floatToUint 240 ≤ size := (le_roundDown_iff h32).mp (not_lt.mp h)
  exact absurd h32 (not_lt.mpr hlast)

theorem roundDown_pos (hpos : 0 < size) (h32 : size < 2 ^ 32) : 0 < uintToFloatRoundDown size :=
  (le_roundDown_iff h32).mpr (hpos : floatToUint 1 ≤ size)

/-- The codes 0 to 239 are the bins: each size is between the values of two neighbours, which are
its roundings. -/
theorem bins_bracket :
    StrictMonoOn floatToUint (Set.Iic 239) ∧ (∀ b ≤ 239, floatToUint b < 2 ^ 32) ∧
    (∀ n : UInt32, n.toNat ≤ floatToUint 239 →
      IsLeast {b | b ≤ 239 ∧ n.toNat ≤ floatToUint b} (uintToFloatRoundUp n.toNat)) ∧
    (∀ n : UInt32, floatToUint 239 < n.toNat → uintToFloatRoundUp n.toNat = 240) ∧
    (∀ size : UInt32,
      IsGreatest {b | b ≤ 239 ∧ floatToUint b ≤ size.toNat} (uintToFloatRoundDown size.toNat)) ∧
    ∀ n size : UInt32, uintToFloatRoundUp n.toNat ≤ uintToFloatRoundDown size.toNat → n ≤ size := by
  have hlast : floatToUint 239 < 2 ^ 32 := by decide
  refine ⟨floatToUint_strictMono.strictMonoOn _, fun b hb => ?_, fun n hn => ?_, fun n hn => ?_,
    fun size => ?_,
    fun n size => le_of_roundUp_le_roundDown n.toNat_lt size.toNat_lt⟩
  · exact (floatToUint_strictMono.monotone hb).trans_lt hlast
  · have h := @roundUp_le_iff _ n.toNat_lt
    exact ⟨⟨h.mpr hn, h.mp le_rfl⟩, fun b hb => h.mpr hb.2⟩
  · have hdown := roundDown_lt n.toNat_lt
    have hup := (le_roundDown_iff n.toNat_lt).mpr hn.le
    have hval : uintToFloatRoundDown n.toNat = 239 := by omega
    rw [roundUp_eq n.toNat_lt, hval, if_neg hn.ne]
  · have h := @le_roundDown_iff _ size.toNat_lt
    exact ⟨⟨Nat.le_of_lt_succ (roundDown_lt size.toNat_lt), h.mp le_rfl⟩, fun b hb => h.mpr hb.2⟩

end KVStash.Dram.SmallFloat
