/- GID: KVStash/Tenant/TokenHash
   digest: The two readers of a token hash: the admin endpoint's and the registry file's. -/

import Mathlib.Algebra.Group.Nat.Even

set_option autoImplicit false

namespace KVStash.Tenant.TokenHash

def fromHexChar (c : UInt8) : Option UInt8 :=
  if 48 ≤ c ∧ c ≤ 57 then some (c - 48)
  else if 97 ≤ c ∧ c ≤ 102 then some (c - 87)
  else if 65 ≤ c ∧ c ≤ 70 then some (c - 55)
  else none

/-- `hex.DecodeString`: hexadecimal characters only, and an even number of them. -/
def decodeString : List UInt8 → Option (List UInt8)
  | [] => some []
  | [_] => none
  | a :: b :: rest =>
    match fromHexChar a, fromHexChar b with
    | some x, some y => (decodeString rest).map ((16 * x + y) :: ·)
    | _, _ => none

/-- How an entry of the registry file is read. -/
def loadTokenHash (s : List UInt8) : Option (List UInt8) := (decodeString s).filter (·.length == 32)

/-- The spaces that a verb of `Sscanf` discards; a newline is not one of them. -/
def isSpace (c : UInt8) : Bool := c ∈ [9, 11, 12, 13, 32]

/-- `Sscanf` with `%02x` on two bytes: spaces in front are discarded, and the digits end at the
first character that is none. What follows them is not looked at. -/
def sscanfHex (a b : UInt8) : Option UInt8 :=
  match fromHexChar a with
  | some x => some (((fromHexChar b).map (16 * x + ·)).getD x)
  | none => if isSpace a then fromHexChar b else none

inductive TokenHashError
  | length
  | scan
  deriving DecidableEq

def decodePairs : List UInt8 → Except TokenHashError (List UInt8)
  | a :: b :: rest =>
    match sscanfHex a b with
    | some x => (decodePairs rest).map (x :: ·)
    | none => .error .scan
  | _ => .ok []

def decodeTokenHash (s : List UInt8) : Except TokenHashError (List UInt8) :=
  if s.length ≠ 64 then .error .length else decodePairs s

variable {s : List UInt8}

theorem hex_of_decodeString {h : List UInt8} (hs : decodeString s = some h) :
    s.length = 2 * h.length ∧ ∀ c ∈ s, (fromHexChar c).isSome := by
  induction s using decodeString.induct generalizing h with
  | case1 =>
    cases hs
    simp
  | case2 => cases hs
  | case3 a b rest x y hx hy ih =>
    rw [decodeString, hx, hy] at hs
    obtain ⟨t, ht, rfl⟩ := Option.map_eq_some_iff.mp hs
    obtain ⟨hlen, hhex⟩ := ih ht
    refine ⟨?_, by simpa [hx, hy] using hhex⟩
    simp only [List.length_cons]
    omega
  | case4 a b rest hno =>
    rw [decodeString] at hs
    split at hs
    next x y hx hy => exact absurd hy (hno x y hx)
    next => cases hs

/-- A digit starts every piece of two bytes, or stands right behind a space. -/
def Scans : List UInt8 → Prop
  | a :: b :: rest =>
    ((fromHexChar a).isSome ∨ isSpace a ∧ (fromHexChar b).isSome) ∧ Scans rest
  | _ => True

theorem sscanfHex_isSome (a b : UInt8) :
    (sscanfHex a b).isSome ↔ (fromHexChar a).isSome ∨ isSpace a ∧ (fromHexChar b).isSome := by
  unfold sscanfHex
  cases fromHexChar a <;> cases isSpace a <;> simp

theorem scans_iff : (decodePairs s).toOption.isSome ↔ Scans s := by
  fun_induction decodePairs s with
  | case1 a b rest x hx ih =>
    rw [Scans, ← sscanfHex_isSome, hx, ← ih]
    cases decodePairs rest <;> simp [Except.map, Except.toOption]
  | case2 a b rest hx =>
    rw [Scans, ← sscanfHex_isSome, hx]
    simp [Except.toOption]
  | case3 s hs => simp [Scans, Except.toOption]

/-- On hexadecimal characters both readers go through the string alike. -/
theorem decodePairs_eq (hhex : ∀ c ∈ s, (fromHexChar c).isSome) (heven : Even s.length) :
    (decodePairs s).toOption = decodeString s := by
  induction s using decodeString.induct with
  | case1 => rfl
  | case2 a => exact absurd heven (by simp)
  | case3 a b rest x y hx hy ih =>
    have hrest := ih (fun c hc => hhex c (by simp [hc])) (by simpa [Nat.even_add] using heven)
    rw [decodePairs, decodeString, sscanfHex, hx, hy, ← hrest]
    cases decodePairs rest <;> rfl
  | case4 a b rest hno =>
    obtain ⟨x, hx⟩ := Option.isSome_iff_exists.mp (hhex a (by simp))
    obtain ⟨y, hy⟩ := Option.isSome_iff_exists.mp (hhex b (by simp))
    exact absurd hy (hno x y hx)

theorem loadTokenHash_eq (s : List UInt8) :
    loadTokenHash s = if s.length = 64 then decodeString s else none := by
  cases hs : decodeString s with
  | none => simp [loadTokenHash, hs]
  | some h =>
    have hlen := (hex_of_decodeString hs).1
    have hiff : s.length = 64 ↔ h.length = 32 := by omega
    simp [loadTokenHash, hs, hiff, Option.filter]

/-- The two readers agree, and only hexadecimal strings are accepted, exactly for the strings that
are hexadecimal if they have 64 bytes and the scan gets through them. -/
theorem decodeTokenHash_eq_load (s : List UInt8) :
    ((decodeTokenHash s).toOption = loadTokenHash s ∧
        ∀ h, decodeTokenHash s = .ok h → ∀ c ∈ s, (fromHexChar c).isSome) ↔
      (s.length = 64 → Scans s → ∀ c ∈ s, (fromHexChar c).isSome) := by
  rw [loadTokenHash_eq, decodeTokenHash]
  by_cases hlen : s.length = 64
  · rw [if_neg (not_not.mpr hlen), if_pos hlen, ← scans_iff]
    constructor
    · rintro ⟨-, hhex⟩ - hscan
      cases hd : decodePairs s with
      | error e => simp [hd, Except.toOption] at hscan
      | ok h => exact hhex h hd
    · intro hcond
      refine ⟨?_, fun h hd => hcond hlen (by simp [hd, Except.toOption])⟩
      cases hs : decodeString s with
      | some h =>
        exact (decodePairs_eq (hex_of_decodeString hs).2 (hlen ▸ by decide)).trans hs
      | none =>
        by_contra hne
        have hscan := Option.isSome_iff_ne_none.mpr hne
        have heq := decodePairs_eq (hcond hlen hscan) (hlen ▸ by decide)
        exact hne (heq.trans hs)
  · rw [if_pos hlen, if_neg hlen]
    simp [hlen, Except.toOption]

/-- `0g`, 32 times over, is the hash of 32 zeros at the endpoint. -/
theorem decodeTokenHash_lax :
    decodeTokenHash (List.replicate 32 [48, 103]).flatten = .ok (List.replicate 32 0) ∧
      loadTokenHash (List.replicate 32 [48, 103]).flatten = none ∧ fromHexChar 103 = none :=
  ⟨rfl, rfl, rfl⟩

end KVStash.Tenant.TokenHash
