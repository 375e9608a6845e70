/- GID: KVStash/Server/Range
   digest: The Range header of an S3 request: the parser, and the byte ranges of RFC 9110. -/

import Mathlib.Algebra.GroupWithZero.Nat
import Mathlib.Data.List.DropRight

set_option autoImplicit false

namespace KVStash.Server.Range

open List

/-! ### The parser -/

def isSpace (c : Char) : Bool :=
  c.toNat ∈ [9, 10, 11, 12, 13, 32, 0x85, 0xA0, 0x1680, 0x2028, 0x2029, 0x202F, 0x205F, 0x3000] ∨
    0x2000 ≤ c.toNat ∧ c.toNat ≤ 0x200A

def trimSpace (s : List Char) : List Char := (s.dropWhile isSpace).rdropWhile isSpace

def value (ds : List Char) : ℕ := ds.foldl (fun n c => 10 * n + (c.toNat - 48)) 0

def digits (ds : List Char) : Bool := ds ≠ [] ∧ ds.all Char.isDigit

/-- `strconv.ParseInt` in base 10 with 64 bits: a sign of either kind, and digits. -/
def parseInt : List Char → Option ℤ
  | '-' :: ds => if digits ds ∧ value ds ≤ 2 ^ 63 then some (-value ds) else none
  | '+' :: ds | ds => if digits ds ∧ value ds < 2 ^ 63 then some (value ds) else none

inductive Answer
  | ignore
  | valid (start last : ℤ)
  | unsatisfiable
  deriving DecidableEq

/-- The two sides of the first hyphen, behind the unit. -/
def parts (hdr : List Char) : Option (List Char × List Char) :=
  if (hdr.take 6).map Char.toLower ≠ "bytes=".toList then none
  else
    let r := trimSpace (hdr.drop 6)
    if ',' ∈ r then none
    else
      match r.dropWhile (· ≠ '-') with
      | [] => none
      | _ :: after => some (trimSpace (r.takeWhile (· ≠ '-')), trimSpace after)

def parseRange (hdr : List Char) (size : ℕ) : Answer :=
  match parts hdr with
  | none => .ignore
  | some (firstStr, lastStr) =>
    if firstStr = [] then
      match parseInt lastStr with
      | none => .ignore
      | some n =>
        if n < 0 then .ignore
        else if n = 0 ∨ size = 0 then .unsatisfiable
        else .valid (size - min n size) (size - 1)
    else
      match parseInt firstStr with
      | none => .ignore
      | some first =>
        if first < 0 then .ignore
        else if size ≤ first then .unsatisfiable
        else if lastStr = [] then .valid first (size - 1)
        else
          match parseInt lastStr with
          | none => .ignore
          | some v => if v < first then .ignore else .valid first (min v (size - 1))

/-! ### The ranges of the RFC -/

inductive ByteRange
  | int (first : ℕ) (last : Option ℕ)
  | suffix (n : ℕ)

/-- The bytes that a range selects of a representation; one whose last position is before its first
selects none. -/
def ByteRange.select (size : ℕ) : ByteRange → Option (ℤ × ℤ)
  | .int first none => if first < size then some (first, size - 1) else none
  | .int first (some last) =>
      if first < size ∧ first ≤ last then some (first, min (last : ℤ) (size - 1)) else none
  | .suffix n => if 0 < n ∧ 0 < size then some (size - min (n : ℤ) size, size - 1) else none

def Number (ds : List Char) (n : ℕ) : Prop := digits ds ∧ value ds = n

/-- The two sides of the hyphen spell a range. -/
def Spells (a b : List Char) : ByteRange → Prop
  | .int first none => Number a first ∧ b = []
  | .int first (some last) => Number a first ∧ Number b last
  | .suffix n => a = [] ∧ Number b n

/-- The header is the unit, a range with spaces around it, and around the hyphen. -/
def Splits (hdr a b : List Char) : Prop :=
  ∃ unit range x y, hdr = unit ++ range ∧ unit.map Char.toLower = "bytes=".toList ∧
    trimSpace range = x ++ '-' :: y ∧
    trimSpace x = a ∧ trimSpace y = b

def Denotes (hdr : List Char) (rg : ByteRange) : Prop := ∃ a b, Splits hdr a b ∧ Spells a b rg

/-- Numbers of 63 bits, and no last position before the first. -/
def ByteRange.Fits : ByteRange → Prop
  | .int first none => first < 2 ^ 63
  | .int first (some last) => first ≤ last ∧ last < 2 ^ 63
  | .suffix n => n < 2 ^ 63

def signed (ds : List Char) : Bool := ds.head? = some '+' ∨ ds.head? = some '-'

/-- No number of an answered range has a sign, and a first position behind the end is followed by
digits or nothing. -/
structure Plain (a b : List Char) (size : ℕ) : Prop where
  suffix : a = [] → ∀ n, parseInt b = some n → 0 ≤ n → signed b = false
  behind : ∀ first, parseInt a = some first → size ≤ first → signed a = false ∧ (b = [] ∨ digits b)
  within : ∀ first, parseInt a = some first → 0 ≤ first → first < size →
    (b = [] ∨ ∃ last, parseInt b = some last ∧ first ≤ last) → signed a = false ∧ signed b = false

/-! ### What is cut off and what is parsed -/

theorem mem_trimSpace_or {c : Char} {s : List Char} (h : c ∈ s) : c ∈ trimSpace s ∨ isSpace c := by
  rw [← takeWhile_append_dropWhile (p := isSpace) (l := s), mem_append] at h
  rcases h with h | h
  · exact .inr (mem_takeWhile_imp h)
  · rw [← rdropWhile_append_rtakeWhile (p := isSpace) (l := s.dropWhile isSpace), mem_append] at h
    exact h.imp id mem_rtakeWhile_imp

theorem parseInt_digits {ds : List Char} (h : digits ds) (hlt : value ds < 2 ^ 63) :
    parseInt ds = some ↑(value ds) := by
  unfold parseInt
  split
  · simp [digits] at h
  · simp [digits] at h
  · exact if_pos ⟨h, hlt⟩

theorem number_of_parseInt {ds : List Char} {n : ℤ} (h : parseInt ds = some n)
    (hsign : signed ds = false) : Number ds n.toNat ∧ n = value ds := by
  unfold parseInt at h
  split at h
  · cases hsign
  · cases hsign
  · split_ifs at h with hd
    cases h
    exact ⟨⟨hd.1, rfl⟩, rfl⟩

theorem splits_of_parts {hdr a b : List Char} (h : parts hdr = some (a, b)) : Splits hdr a b := by
  unfold parts at h
  dsimp only at h
  split_ifs at h with hunit hcomma
  split at h
  · cases h
  next c after hdrop =>
    cases h
    refine ⟨hdr.take 6, hdr.drop 6, _, after, (take_append_drop 6 hdr).symm,
      not_not.mp hunit, ?_, rfl, rfl⟩
    have hhead : c = '-' := by
      have := head?_dropWhile_not (fun c : Char => decide (c ≠ '-')) (trimSpace (hdr.drop 6))
      rw [hdrop] at this
      simpa using this
    subst hhead
    rw [← hdrop, takeWhile_append_dropWhile]

theorem notMem_of_trimSpace {c : Char} {s : List Char} (hc : isSpace c = false)
    (hd : c.isDigit = false) (h : trimSpace s = [] ∨ digits (trimSpace s)) : c ∉ s := by
  intro hm
  rcases mem_trimSpace_or hm with hm | hm
  · rcases h with h | h
    · rw [h] at hm
      cases hm
    · have hall := (of_decide_eq_true h).2
      exact absurd (hd.symm.trans (all_eq_true.mp hall c hm)) Bool.false_ne_true
  · exact absurd (hc.symm.trans hm) Bool.false_ne_true

theorem Spells.sides {a b : List Char} {rg : ByteRange} (h : Spells a b rg) :
    (a = [] ∨ digits a) ∧ (b = [] ∨ digits b) := by
  rcases rg with ⟨first, _ | last⟩ | n
  · exact ⟨.inr h.1.1, .inl h.2⟩
  · exact ⟨.inr h.1.1, .inr h.2.1⟩
  · exact ⟨.inl h.1, .inr h.2.1⟩

theorem unsigned {ds : List Char} (h : ds = [] ∨ digits ds) : signed ds = false := by
  rcases h with rfl | h
  · rfl
  · have hall : ∀ c ∈ ds, c.isDigit := all_eq_true.mp (of_decide_eq_true h).2
    refine decide_eq_false fun hs => ?_
    rcases hs with hs | hs <;> exact absurd (hall _ (mem_of_head? hs)) (by decide)

/-- The first hyphen of a range stands between its numbers. -/
theorem parts_of_denotes {hdr : List Char} {rg : ByteRange} (h : Denotes hdr rg) :
    ∃ a b, parts hdr = some (a, b) ∧ Spells a b rg := by
  obtain ⟨a, b, ⟨unit, range, x, y, rfl, hunit, hrange, rfl, rfl⟩, hs⟩ := h
  refine ⟨_, _, ?_, hs⟩
  obtain ⟨hx, hy⟩ := hs.sides
  have hlen : unit.length = 6 := by
    have := congrArg length hunit
    rwa [length_map] at this
  have hcomma : ',' ∉ x ++ '-' :: y := by
    simp [notMem_of_trimSpace (c := ',') rfl rfl hx, notMem_of_trimSpace (c := ',') rfl rfl hy]
  have hhyphen : ∀ c ∈ x, decide (c ≠ '-') = true := fun c hc =>
    decide_eq_true fun he => notMem_of_trimSpace rfl rfl hx (he ▸ hc)
  rw [parts, take_left' hlen, drop_left' hlen, hrange, if_neg (not_not.mpr hunit), if_neg hcomma,
    dropWhile_append_of_pos hhyphen, takeWhile_append_of_pos hhyphen]
  simp

variable {hdr : List Char} {size : ℕ}

/-- An answer other than `ignore` is the one the RFC gives. -/
def Right (hdr : List Char) (size : ℕ) : Answer → Prop
  | .ignore => True
  | .valid start last => ∃ rg, Denotes hdr rg ∧ rg.select size = some (start,
      last) ∧ 0 ≤ start ∧ start ≤ last ∧ last < size
  | .unsatisfiable => ∃ rg, Denotes hdr rg ∧ rg.select size = none

theorem parseRange_right (h : ∀ p ∈ parts hdr, Plain p.1 p.2 size) :
    Right hdr size (parseRange hdr size) := by
  unfold parseRange
  split
  · trivial
  next a b hparts =>
    have hplain := h (a, b) hparts
    have hdenotes : ∀ rg, Spells a b rg → Denotes hdr rg :=
      fun rg hs => ⟨a, b, splits_of_parts hparts, hs⟩
    by_cases hfirst : a = []
    · rw [if_pos hfirst]
      split
      · trivial
      next n hn =>
        by_cases hneg : n < 0
        · rw [if_pos hneg]
          trivial
        obtain ⟨hnum, rfl⟩ := number_of_parseInt hn (hplain.suffix hfirst n hn (by omega))
        have hrg := hdenotes (.suffix (value b)) ⟨hfirst, hnum⟩
        rw [if_neg hneg]
        split_ifs with hzero
        · exact ⟨_, hrg, by rw [ByteRange.select, if_neg (by omega)]⟩
        · exact ⟨_, hrg, by rw [ByteRange.select, if_pos (by omega)], by omega, by omega, by omega⟩
    · rw [if_neg hfirst]
      split
      · trivial
      next n hn =>
        by_cases hneg : n < 0
        · rw [if_pos hneg]
          trivial
        rw [if_neg hneg]
        by_cases hsize : (size : ℤ) ≤ n
        · obtain ⟨ha, hb⟩ := hplain.behind n hn hsize
          obtain ⟨hnum, rfl⟩ := number_of_parseInt hn ha
          rw [if_pos hsize]
          rcases hb with hnone | hdig
          · exact ⟨_, hdenotes (.int (value a) none) ⟨hnum, hnone⟩,
              by rw [ByteRange.select, if_neg (by omega)]⟩
          · exact ⟨_, hdenotes (.int (value a) (some (value b))) ⟨hnum, hdig, rfl⟩,
              by rw [ByteRange.select, if_neg (by omega)]⟩
        · have hwithin := hplain.within n hn (by omega) (by omega)
          rw [if_neg hsize]
          by_cases hlast : b = []
          · obtain ⟨hnum, rfl⟩ := number_of_parseInt hn (hwithin (.inl hlast)).1
            rw [if_pos hlast]
            exact ⟨_, hdenotes (.int (value a) none) ⟨hnum, hlast⟩,
              by rw [ByteRange.select, if_pos (by omega)], by omega, by omega, by omega⟩
          · rw [if_neg hlast]
            split
            · trivial
            next v hv =>
              by_cases hrev : v < n
              · rw [if_pos hrev]
                trivial
              obtain ⟨ha, hb⟩ := hwithin (.inr ⟨v, hv, by omega⟩)
              obtain ⟨hnum, rfl⟩ := number_of_parseInt hn ha
              obtain ⟨hnum', rfl⟩ := number_of_parseInt hv hb
              rw [if_neg hrev]
              exact ⟨_, hdenotes (.int (value a) (some (value b))) ⟨hnum, hnum'⟩,
                by rw [ByteRange.select, if_pos (by omega)], by omega, by omega, by omega⟩

/-- An answer that is right is about sides that are digits or empty. -/
theorem sides_of_right {a b : List Char} (hparts : parts hdr = some (a, b)) {ans : Answer}
    (h : Right hdr size ans) (hans : ans ≠ .ignore) :
    (a = [] ∨ digits a) ∧ (b = [] ∨ digits b) := by
  have hrg : ∃ rg, Denotes hdr rg := by
    cases ans with
    | ignore => exact absurd rfl hans
    | valid start last => exact h.imp fun _ hrg => hrg.1
    | unsatisfiable => exact h.imp fun _ hrg => hrg.1
  obtain ⟨rg, hrg⟩ := hrg
  obtain ⟨a', b', hparts', hs⟩ := parts_of_denotes hrg
  cases hparts.symm.trans hparts'
  exact hs.sides

theorem plain_of_right {a b : List Char} (hparts : parts hdr = some (a, b))
    (h : Right hdr size (parseRange hdr size)) : Plain a b size := by
  have hsides := sides_of_right hparts h
  have hne : ∀ {first}, parseInt a = some first → a ≠ [] := by
    rintro first hfirst rfl
    cases hfirst
  rw [parseRange, hparts] at hsides
  dsimp only at hsides
  refine ⟨fun hempty n hn hpos => unsigned (hsides ?_).2, fun first hfirst hsize => ?_,
    fun first hfirst hpos hsize hlast => ?_⟩
  · rw [if_pos hempty, hn]
    grind
  · rw [if_neg (hne hfirst), hfirst] at hsides
    dsimp only at hsides
    rw [if_neg (by omega), if_pos hsize] at hsides
    obtain ⟨ha, hb⟩ := hsides nofun
    exact ⟨unsigned ha, hb⟩
  · have hans := hsides ?_
    · exact ⟨unsigned hans.1, unsigned hans.2⟩
    rw [if_neg (hne hfirst), hfirst]
    dsimp only
    rw [if_neg (by omega), if_neg (by omega)]
    rcases hlast with hlast | ⟨last, hlast, hle⟩
    · rw [if_pos hlast]
      nofun
    · rw [hlast]
      grind

theorem parseRange_of_denotes {rg : ByteRange} (h : Denotes hdr rg) (hfits : rg.Fits) :
    parseRange hdr size ≠ .ignore := by
  obtain ⟨a, b, hparts, hs⟩ := parts_of_denotes h
  have hne : digits a → a ≠ [] := fun hd => (of_decide_eq_true hd).1
  rw [parseRange, hparts]
  dsimp only
  rcases rg with ⟨first, _ | last⟩ | n
  · obtain ⟨⟨hd, rfl⟩, rfl⟩ := hs
    rw [if_neg (hne hd), parseInt_digits hd hfits]
    grind
  · obtain ⟨⟨hd, rfl⟩, hd', rfl⟩ := hs
    rw [if_neg (hne hd), parseInt_digits hd (hfits.1.trans_lt hfits.2), parseInt_digits hd' hfits.2]
    have := hfits.1
    grind
  · obtain ⟨rfl, hd, rfl⟩ := hs
    rw [if_pos rfl, parseInt_digits hd hfits]
    grind

theorem parseRange_correct (hdr : List Char) (size : ℕ) :
    ((∀ start last, parseRange hdr size = .valid start last → ∃ rg, Denotes hdr rg ∧
        rg.select size = some (start, last) ∧ 0 ≤ start ∧ start ≤ last ∧ last < size) ∧
      (parseRange hdr size = .unsatisfiable → ∃ rg, Denotes hdr rg ∧ rg.select size = none) ∧
      ∀ rg, Denotes hdr rg → rg.Fits → parseRange hdr size ≠ .ignore) ↔
    ∀ p ∈ parts hdr, Plain p.1 p.2 size := by
  constructor
  · rintro ⟨hvalid, hnone, -⟩ ⟨a, b⟩ hparts
    apply plain_of_right hparts
    cases hans : parseRange hdr size with
    | ignore => trivial
    | valid start last => exact hvalid start last hans
    | unsatisfiable => exact hnone hans
  · intro h
    have hright := parseRange_right h
    refine ⟨fun start last he => ?_, fun he => ?_, fun rg => parseRange_of_denotes⟩
    · rwa [he] at hright
    · rwa [he] at hright

/-- Signs are taken for part of a number, and behind the end of the object anything may follow the
hyphen. -/
theorem parseRange_lax :
    parseRange "bytes=+1-5".toList 9 = .valid 1 5 ∧ parseRange "bytes=0--0".toList 9 = .valid 0 0 ∧
      parseRange "bytes=9-abc".toList 5 = .unsatisfiable ∧
      ∀ rg, ¬Denotes "bytes=+1-5".toList rg ∧ ¬Denotes "bytes=0--0".toList rg ∧
        ¬Denotes "bytes=9-abc".toList rg := by
  refine ⟨by decide +kernel, by decide +kernel, by decide +kernel, fun rg => ?_⟩
  have hno : ∀ {hdr a b}, parts hdr = some (a, b) →
      ((a = [] || digits a) && (b = [] || digits b)) = false →
      ¬Denotes hdr rg := by
    intro hdr a b hparts hbad h
    obtain ⟨a', b', hparts', hs⟩ := parts_of_denotes h
    cases hparts.symm.trans hparts'
    have hsides := hs.sides
    simp only [Bool.and_eq_false_iff, Bool.or_eq_false_iff, decide_eq_false_iff_not] at hbad
    grind
  exact ⟨hno (a := ['+', '1']) (b := ['5']) (by decide +kernel) (by decide),
    hno (a := ['0']) (b := ['-', '0']) (by decide +kernel) (by decide),
    hno (a := ['9']) (b := "abc".toList) (by decide +kernel) (by decide)⟩

end KVStash.Server.Range
