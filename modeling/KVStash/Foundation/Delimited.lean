/- GID: KVStash/Foundation/Delimited
   digest: Length-prefixed texts can be told apart, and fields behind the last separator. -/

import KVStash.Foundation.Bytes

set_option autoImplicit false

namespace KVStash.Foundation.Delimited

open Bytes List

/-- A text whose number of bytes fits the four bytes in front of it. -/
abbrev Text := { s : String // s.utf8ByteSize < 2 ^ 32 }

def Text.empty : Text := ⟨"", by decide⟩

def Text.bytes (t : Text) : List UInt8 := t.1.toByteArray.data.toList

/-- The text behind its length. -/
def lps (t : Text) : List UInt8 := leBytes 4 t.bytes.length ++ t.bytes

theorem Text.bytes_inj {a b : Text} (h : a.bytes = b.bytes) : a = b :=
  Subtype.ext (String.toByteArray_inj.mp (ByteArray.ext (Array.toList_inj.mp h)))

theorem Text.length_bytes_lt (t : Text) : t.bytes.length < 256 ^ 4 := t.2

theorem lps_append_inj {a b : Text} {x y : List UInt8} (h : lps a ++ x = lps b ++ y) :
    a = b ∧ x = y := by
  rw [lps, lps, append_assoc, append_assoc] at h
  obtain ⟨hlen, hrest⟩ := append_inj h (by rw [length_leBytes, length_leBytes])
  have hlen : a.bytes.length = b.bytes.length := by
    rw [← leNat_leBytes_of_lt a.length_bytes_lt, hlen, leNat_leBytes_of_lt b.length_bytes_lt]
  obtain ⟨hbytes, hrest⟩ := append_inj hrest hlen
  exact ⟨Text.bytes_inj hbytes, hrest⟩

theorem lps_ne_nil (t : Text) : lps t ≠ [] := by
  intro h
  have := congrArg length h
  rw [lps, length_append, length_leBytes] at this
  simp at this

theorem flatMap_lps_inj {as bs : List Text} (h : as.flatMap lps = bs.flatMap lps) : as = bs := by
  induction as generalizing bs with
  | nil =>
    cases bs with
    | nil => rfl
    | cons b bs => exact absurd (append_eq_nil_iff.mp h.symm).1 (lps_ne_nil b)
  | cons a as ih =>
    cases bs with
    | nil => exact absurd (append_eq_nil_iff.mp h).1 (lps_ne_nil a)
    | cons b bs =>
      obtain ⟨rfl, hrest⟩ := lps_append_inj h
      rw [ih hrest]

/-- What stands behind the last separator is told apart from what stands in front of it. -/
theorem sep_inj {α : Type} {c : α} {x y a b : List α} (h : x ++ c :: a = y ++ c :: b) (ha : c ∉ a)
    (hb : c ∉ b) : x = y ∧ a = b := by
  rcases append_eq_append_iff.mp h with ⟨z, hy, hz⟩ | ⟨z, hx, hz⟩
  · cases z with
    | nil =>
      rw [nil_append] at hz
      rw [append_nil] at hy
      exact ⟨hy.symm, (cons.inj hz).2⟩
    | cons d z =>
      rw [(cons.inj hz).2] at ha
      exact absurd (mem_append_right z mem_cons_self) ha
  · cases z with
    | nil =>
      rw [nil_append] at hz
      rw [append_nil] at hx
      exact ⟨hx, (cons.inj hz).2.symm⟩
    | cons d z =>
      rw [(cons.inj hz).2] at hb
      exact absurd (mem_append_right z mem_cons_self) hb

theorem notMem_natRepr {c : Char} (hdigit : c.isDigit = false) (m : ℕ) : c ∉ m.repr.toList := by
  intro hm
  rw [Nat.toList_repr] at hm
  have hc := Nat.isDigit_of_mem_toDigits (b := 10) (by decide) (by decide) hm
  rw [hdigit] at hc
  cases hc

theorem notMem_repr {c : Char} (hdigit : c.isDigit = false) (hsign : c ≠ '-') (n : ℤ) :
    c ∉ n.repr.toList := by
  intro hc
  rw [Int.repr_eq_if] at hc
  split at hc
  · exact notMem_natRepr hdigit _ hc
  · rw [String.toList_append, mem_append] at hc
    exact hc.elim (by simpa using hsign) (notMem_natRepr hdigit _)

theorem natRepr_inj {m n : ℕ} (h : m.repr.toList = n.repr.toList) : m = n := by
  rw [Nat.toList_repr, Nat.toList_repr] at h
  rw [← @Nat.ofDigitChars_ten_toDigits m, h, Nat.ofDigitChars_ten_toDigits]

theorem repr_inj {m n : ℤ} (h : m.repr.toList = n.repr.toList) : m = n := by
  have hneg : ∀ k : ℕ, (Int.negSucc k).repr.toList = '-' :: (k + 1).repr.toList := fun k => by
    simp [Int.repr]
  have hminus : ∀ k : ℕ, '-' ∉ k.repr.toList := notMem_natRepr rfl
  cases m with
  | ofNat m =>
    cases n with
    | ofNat n => exact congrArg Int.ofNat (natRepr_inj h)
    | negSucc n =>
      rw [hneg] at h
      exact absurd (h ▸ mem_cons_self) (hminus m)
  | negSucc m =>
    cases n with
    | ofNat n =>
      rw [hneg] at h
      exact absurd (h ▸ mem_cons_self) (hminus n)
    | negSucc n =>
      rw [hneg, hneg] at h
      rw [Nat.succ.inj (natRepr_inj (cons.inj h).2)]

end KVStash.Foundation.Delimited
