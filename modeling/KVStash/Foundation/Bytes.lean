/- GID: KVStash/Foundation/Bytes
   digest: Little-endian fields, byte windows, and files that are read and written at an offset. -/

import Mathlib.Tactic.Ring
import Mathlib.Tactic.Linarith

set_option autoImplicit false

namespace KVStash.Foundation.Bytes

open List

def leNat : List UInt8 → ℕ
  | [] => 0
  | b :: bs => b.toNat + 256 * leNat bs

/-- The `w` little-endian bytes of `n`; what lies above them is dropped. -/
def leBytes : ℕ → ℕ → List UInt8
  | 0, _ => []
  | w + 1, n => UInt8.ofNat n :: leBytes w (n / 256)

@[simp] theorem length_leBytes (w n : ℕ) : (leBytes w n).length = w := by
  induction w generalizing n with
  | zero => rfl
  | succ w ih => simp only [leBytes, length_cons, ih]

theorem leNat_leBytes (w n : ℕ) : leNat (leBytes w n) = n % 256 ^ w := by
  induction w generalizing n with
  | zero => simp [leBytes, leNat, Nat.mod_one]
  | succ w ih =>
    have hb : (UInt8.ofNat n).toNat = n % 256 := UInt8.toNat_ofNat'
    rw [leBytes, leNat, ih, hb, pow_succ', Nat.mod_mul]

theorem leNat_leBytes_of_lt {w n : ℕ} (h : n < 256 ^ w) : leNat (leBytes w n) = n := by
  rw [leNat_leBytes, Nat.mod_eq_of_lt h]

theorem leNat_lt (bs : List UInt8) : leNat bs < 256 ^ bs.length := by
  induction bs with
  | nil => simp [leNat]
  | cons b bs ih =>
    have hb : b.toNat < 256 := b.toNat_lt
    rw [leNat, length_cons, pow_succ]
    omega

/-- The `k` bytes of `b` from index `i` (the slice `b[i:i+k]`). -/
def slice (b : List UInt8) (i k : ℕ) : List UInt8 := (b.drop i).take k

/-- The little-endian field of `k` bytes at index `i`. -/
def leAt (b : List UInt8) (i k : ℕ) : ℕ := leNat (slice b i k)

theorem leAt_lt (b : List UInt8) (i k : ℕ) : leAt b i k < 256 ^ k := by
  have hlen : (slice b i k).length ≤ k := by simp [slice]
  exact lt_of_lt_of_le (leNat_lt _) (Nat.pow_le_pow_right (by omega) hlen)

variable {b a c data s : List UInt8}

theorem slice_append {i k : ℕ} (hi : a.length = i) (hk : b.length = k) :
    slice (a ++ (b ++ c)) i k = b := by
  subst hi hk
  simp [slice]

theorem leAt_append {i w n : ℕ} (hi : a.length = i) (hn : n < 256 ^ w) :
    leAt (a ++ (leBytes w n ++ c)) i w = n := by
  rw [leAt, slice_append hi (length_leBytes w n), leNat_leBytes_of_lt hn]

/-- The number of bytes of a list of fields, each given as its width and its value. -/
def widths : List (ℕ × ℕ) → ℕ
  | [] => 0
  | (w, _) :: fs => w + widths fs

def fields : List (ℕ × ℕ) → List UInt8
  | [] => []
  | (w, n) :: fs => leBytes w n ++ fields fs

@[simp] theorem length_fields (fs : List (ℕ × ℕ)) : (fields fs).length = widths fs := by
  induction fs with
  | nil => rfl
  | cons f fs ih => simp only [fields, widths, length_append, length_leBytes, ih]

theorem fields_append (fs gs : List (ℕ × ℕ)) : fields (fs ++ gs) = fields fs ++ fields gs := by
  induction fs with
  | nil => rfl
  | cons f fs ih => simp only [cons_append, fields, ih, append_assoc]

theorem leAt_fields (fs : List (ℕ × ℕ)) {w n : ℕ} (hn : n < 256 ^ w) (gs : List (ℕ × ℕ))
    (rest : List UInt8) : leAt (fields (fs ++ (w, n) :: gs) ++ rest) (widths fs) w = n := by
  rw [fields_append, fields, append_assoc, append_assoc]
  exact leAt_append (length_fields fs) hn

theorem leAt_field {fs : List (ℕ × ℕ)} (i : ℕ) {w n off : ℕ} (hf : fs[i]? = some (w, n))
    (ho : widths (fs.take i) = off) (hn : n < 256 ^ w) (rest : List UInt8) :
    leAt (fields fs ++ rest) off w = n := by
  obtain ⟨hi, hget⟩ := List.getElem?_eq_some_iff.mp hf
  have hsplit : fs.take i ++ (w, n) :: fs.drop (i + 1) = fs := by
    rw [← hget, ← drop_eq_getElem_cons hi, take_append_drop]
  have hread := leAt_fields (fs.take i) hn (fs.drop (i + 1)) rest
  rwa [hsplit, ho] at hread

/-- The first rows of a table whose rows take `size` bytes each. -/
def rows {α : Type} (decode : List UInt8 → α) (size : ℕ) (b : List UInt8) : ℕ → List α
  | 0 => []
  | n + 1 => decode b :: rows decode size (b.drop size) n

theorem length_rows {α : Type} (decode : List UInt8 → α) (size : ℕ) (b : List UInt8) (n : ℕ) :
    (rows decode size b n).length = n := by
  induction n generalizing b with
  | zero => rfl
  | succ n ih => rw [rows, List.length_cons, ih]

section Rows

variable {α : Type} {encode : α → List UInt8} {size : ℕ}

theorem length_flatMap_rows (hlen : ∀ a, (encode a).length = size) (as : List α) :
    (as.flatMap encode).length = as.length * size := by
  induction as with
  | nil => simp
  | cons a as ih =>
    rw [flatMap_cons, length_append, ih, hlen, length_cons, Nat.succ_mul, Nat.add_comm]

theorem rows_flatMap {decode : List UInt8 → α} (hlen : ∀ a, (encode a).length = size)
    (hdec : ∀ a rest, decode (encode a ++ rest) = a) (as : List α) (rest : List UInt8) :
    rows decode size (as.flatMap encode ++ rest) as.length = as := by
  induction as with
  | nil => rfl
  | cons a as ih =>
    have hdrop : (encode a ++ (as.flatMap encode ++ rest)).drop size = as.flatMap encode ++ rest :=
      drop_left' (hlen a)
    rw [length_cons, rows, flatMap_cons, append_assoc, hdec, hdrop, ih]

end Rows

theorem slice_take {i k m : ℕ} (h : i + k ≤ m) : slice (b.take m) i k = slice b i k := by
  rw [slice, slice, drop_take, take_take, Nat.min_eq_left (by omega)]

theorem leAt_take {i k m : ℕ} (h : i + k ≤ m) : leAt (b.take m) i k = leAt b i k := by
  rw [leAt, leAt, slice_take h]

/-- A full read of `n` bytes from a stream; a stream that ends first is an error. -/
def readFull (n : ℕ) (s : List UInt8) : Option (List UInt8 × List UInt8) :=
  if s.length < n then none else some (s.take n, s.drop n)

theorem readFull_append {n : ℕ} (h : a.length = n) (b : List UInt8) :
    readFull n (a ++ b) = some (a, b) := by
  rw [readFull, if_neg (by rw [length_append]; omega), take_left' h, drop_left' h]

theorem readFull_eq_some {n : ℕ} (h : readFull n s = some (a, b)) : a.length = n ∧ s = a ++ b := by
  unfold readFull at h
  split at h
  · exact absurd h (by simp)
  · obtain ⟨rfl, rfl⟩ := Prod.mk.inj (Option.some.inj h)
    exact ⟨by rw [length_take]; omega, (take_append_drop n s).symm⟩

/-- The bytes a byte function gives from `off`, `n` of them. -/
def window (f : ℕ → UInt8) (off : ℕ) : ℕ → List UInt8
  | 0 => []
  | n + 1 => f off :: window f (off + 1) n

@[simp] theorem length_window (f : ℕ → UInt8) (off n : ℕ) : (window f off n).length = n := by
  induction n generalizing off with
  | zero => rfl
  | succ n ih => simp only [window, length_cons, ih]

theorem window_add (f : ℕ → UInt8) (off m n : ℕ) :
    window f off (m + n) = window f off m ++ window f (off + m) n := by
  induction m generalizing off with
  | zero => simp [window]
  | succ m ih =>
    rw [Nat.succ_add, window, window, ih, cons_append, Nat.add_right_comm, Nat.add_assoc]

theorem window_congr {f g : ℕ → UInt8} {off n : ℕ} (h : ∀ i, off ≤ i → i < off + n → f i = g i) :
    window f off n = window g off n := by
  induction n generalizing off with
  | zero => rfl
  | succ n ih =>
    rw [window, window, h off le_rfl (by omega), ih fun i hi hlt => h i (by omega) (by omega)]

theorem slice_window (f : ℕ → UInt8) {off n i k : ℕ} (h : i + k ≤ n) :
    slice (window f off n) i k = window f (off + i) k := by
  obtain ⟨r, rfl⟩ := Nat.exists_eq_add_of_le h
  rw [Nat.add_assoc, window_add, window_add]
  exact slice_append (length_window f off i) (length_window f (off + i) k)

theorem take_window (f : ℕ → UInt8) {off n k : ℕ} (h : k ≤ n) :
    (window f off n).take k = window f off k := by
  simpa [slice] using @slice_window f off n 0 k (by omega)

/-- A file: its length and its bytes. Bytes at and beyond the length are never read. -/
structure File where
  size : ℕ
  byte : ℕ → UInt8

def File.zeros (size : ℕ) : File := ⟨size, fun _ => 0⟩

/-- A full read of `n` bytes at `off`; one that meets the end of the file fails. -/
def File.readAt (f : File) (off n : ℕ) : Option (List UInt8) :=
  if off + n ≤ f.size then some (window f.byte off n) else none

/-- A write at `off`; a write beyond the end grows the file, a hole reads as zeros. -/
def File.writeAt (f : File) (off : ℕ) (data : List UInt8) : File where
  size := max f.size (off + data.length)
  byte i := if off ≤ i ∧ i < off + data.length then data.getD (i - off) 0
    else if i < f.size then f.byte i else 0

theorem File.readAt_eq_some {f : File} {off n : ℕ} (h : off + n ≤ f.size) :
    f.readAt off n = some (window f.byte off n) := if_pos h

theorem File.readAt_isSome {f : File} {off n : ℕ} (h : f.readAt off n = some b) :
    off + n ≤ f.size ∧ b = window f.byte off n := by
  unfold File.readAt at h
  split at h
  · exact ⟨‹_›, (Option.some.inj h).symm⟩
  · cases h

theorem File.size_writeAt {f : File} {off : ℕ} (h : off + data.length ≤ f.size) :
    (f.writeAt off data).size = f.size := Nat.max_eq_left h

private theorem window_getD (data : List UInt8) (off : ℕ) :
    window (fun i => data.getD (i - off) 0) off data.length = data := by
  induction data generalizing off with
  | nil => rfl
  | cons b bs ih =>
    rw [length_cons, window, Nat.sub_self, getD_cons_zero]
    congr 1
    refine Eq.trans (window_congr fun i hi _ => ?_) (ih (off + 1))
    obtain ⟨k, rfl⟩ := Nat.exists_eq_add_of_le hi
    rw [show off + 1 + k - off = k + 1 by omega, show off + 1 + k - (off + 1) = k by omega,
      getD_cons_succ]

theorem window_writeAt (f : File) (off : ℕ) (data : List UInt8) :
    window (f.writeAt off data).byte off data.length = data := by
  refine Eq.trans (window_congr fun i hi hlt => ?_) (window_getD data off)
  exact if_pos ⟨hi, hlt⟩

theorem window_writeAt_of_disjoint {f : File} {off : ℕ} {a n : ℕ}
    (hsize : a + n ≤ f.size) (h : a + n ≤ off ∨ off + data.length ≤ a) :
    window (f.writeAt off data).byte a n = window f.byte a n := by
  refine window_congr fun i hi hlt => ?_
  exact (if_neg (by omega)).trans (if_pos (by omega))

end KVStash.Foundation.Bytes

namespace KVStash.Foundation.Storage

open Bytes

def grow (f : File) (size : ℕ) : File :=
  if f.size < size then ⟨size, fun i => if i < f.size then f.byte i else 0⟩ else f

end KVStash.Foundation.Storage
