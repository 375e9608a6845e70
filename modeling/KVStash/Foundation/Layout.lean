/- GID: KVStash/Foundation/Layout
   digest: Bodies cut into fields that carry a value and fields that do not, reads that stay inside,
     strict codecs. -/

import KVStash.Foundation.Bytes

set_option autoImplicit false

namespace KVStash.Foundation.Bytes

/-! ## Reads that stay inside a buffer -/

/-- The field of `w` bytes at index `i`; `none` is a read that leaves the buffer. -/
def fieldAt (b : List UInt8) (i w : ℕ) : Option ℕ :=
  if i + w ≤ b.length then some (leAt b i w) else none

/-- The slice of `k` bytes at index `i`; `none` is a slice that leaves the buffer. -/
def sliceAt (b : List UInt8) (i k : ℕ) : Option (List UInt8) :=
  if i + k ≤ b.length then some (slice b i k) else none

/-- Everything from index `i` on; `none` is an index behind the end. -/
def tailAt (b : List UInt8) (i : ℕ) : Option (List UInt8) :=
  if i ≤ b.length then some (b.drop i) else none

variable {b : List UInt8} {i : ℕ} {w k n m off size : ℕ}

theorem fieldAt_eq (h : i + w ≤ b.length) : fieldAt b i w = some (leAt b i w) := if_pos h

theorem sliceAt_eq (h : i + k ≤ b.length) : sliceAt b i k = some (slice b i k) := if_pos h

theorem tailAt_eq (h : i ≤ b.length) : tailAt b i = some (b.drop i) := if_pos h

/-! ## Reading back what was written -/

theorem leAt_field_end {fs : List (ℕ × ℕ)} (i : ℕ) (hf : fs[i]? = some (w, n))
    (ho : widths (fs.take i) = off) (hn : n < 256 ^ w) : leAt (fields fs) off w = n := by
  have hread := leAt_field i hf ho hn []
  rwa [List.append_nil] at hread

theorem rows_take {α : Type} {decode : List UInt8 → α}
    (hlocal : ∀ b : List UInt8, decode (b.take size) = decode b) (b : List UInt8)
    (h : n * size ≤ m) : rows decode size (b.take m) n = rows decode size b n := by
  induction n generalizing b m with
  | zero => rfl
  | succ n ih =>
    rw [Nat.succ_mul] at h
    have hrow : decode (b.take m) = decode b := by
      rw [← hlocal (b.take m), List.take_take, Nat.min_eq_left (by omega), hlocal]
    rw [rows, rows, hrow, List.drop_take, ih _ (by omega)]

/-! ## Writing back what was read -/

theorem leBytes_leNat (bs : List UInt8) : leBytes bs.length (leNat bs) = bs := by
  induction bs with
  | nil => rfl
  | cons b bs ih =>
    have hb : b.toNat < 256 := b.toNat_lt
    have hlow : UInt8.ofNat (b.toNat + 256 * leNat bs) = b := by
      apply UInt8.toNat_inj.mp
      rw [UInt8.toNat_ofNat']
      omega
    have hhigh : (b.toNat + 256 * leNat bs) / 256 = leNat bs := by omega
    rw [List.length_cons, leNat, leBytes, hlow, hhigh, ih]

theorem length_slice (h : i + k ≤ b.length) : (slice b i k).length = k := by
  rw [slice, List.length_take, List.length_drop]
  omega

theorem leBytes_leAt (h : i + w ≤ b.length) : leBytes w (leAt b i w) = slice b i w := by
  have hback := leBytes_leNat (slice b i w)
  rwa [length_slice h] at hback

/-- A body as the widths of its parts, each with the mark whether it carries a value. Parts without
the mark are reserved words and padding. -/
abbrev Layout := List (ℕ × Bool)

def Layout.span : Layout → ℕ
  | [] => 0
  | (w, _) :: ps => w + Layout.span ps

/-- The body with the parts that carry no value set to zero. -/
def Layout.blank : Layout → List UInt8 → List UInt8
  | [], _ => []
  | (w, keep) :: ps, b =>
      (if keep then b.take w else List.replicate w 0) ++ Layout.blank ps (b.drop w)

/-- The fields of a body with the layout, read from index `i` on; a part that carries no value
counts as zero. -/
def Layout.read (b : List UInt8) : ℕ → Layout → List (ℕ × ℕ)
  | _, [] => []
  | i, (w, keep) :: ps => (w, if keep then leAt b i w else 0) :: Layout.read b (i + w) ps

theorem Layout.span_append (ps qs : Layout) : span (ps ++ qs) = span ps + span qs := by
  induction ps with
  | nil => rw [List.nil_append, span, Nat.zero_add]
  | cons p ps ih => rw [List.cons_append, span, span, ih, Nat.add_assoc]

theorem Layout.blank_append (ps qs : Layout) (b : List UInt8) :
    blank (ps ++ qs) b = blank ps b ++ blank qs (b.drop (span ps)) := by
  induction ps generalizing b with
  | nil => rfl
  | cons p ps ih => rw [List.cons_append, blank, blank, ih, List.drop_drop, List.append_assoc, span]

theorem Layout.blank_kept (w : ℕ) (ps : Layout) (b : List UInt8) :
    blank ((w, true) :: ps) b = b.take w ++ blank ps (b.drop w) := rfl

theorem Layout.blank_zero (w : ℕ) (b : List UInt8) : blank [(w, false)] b = List.replicate w 0 :=
    List.append_nil _

theorem Layout.blank_take {ps : Layout} (h : span ps ≤ m) (b : List UInt8) :
    blank ps (b.take m) = blank ps b := by
  induction ps generalizing b m with
  | nil => rfl
  | cons p ps ih =>
    rw [span] at h
    rw [blank, blank, List.take_take, Nat.min_eq_left (by omega), List.drop_take, ih (by omega)]

theorem leBytes_zero (w : ℕ) : leBytes w 0 = List.replicate w 0 := by
  induction w with
  | zero => rfl
  | succ w ih => rw [leBytes, Nat.zero_div, ih, List.replicate_succ]; rfl

/-- The fields read from a body, written back, are the body without what carries no value. -/
theorem Layout.fields_read (ps : Layout) (h : i + span ps ≤ b.length) :
    fields (read b i ps) = blank ps (b.drop i) := by
  induction ps generalizing i with
  | nil => rfl
  | cons p ps ih =>
    obtain ⟨w, keep⟩ := p
    rw [span] at h
    rw [read, fields, blank, List.drop_drop, ih (by omega)]
    cases keep with
    | false => rw [if_neg Bool.false_ne_true, if_neg Bool.false_ne_true, leBytes_zero]
    | true => rw [if_pos rfl, if_pos rfl, leBytes_leAt (by omega), slice]

theorem Layout.fields_read_front (ps : Layout) (h : span ps ≤ b.length) :
    fields (read b 0 ps) = blank ps b := ps.fields_read ((Nat.zero_add _).trans_le h)

theorem Layout.flatMap_rows {α : Type} {encode : α → List UInt8}
    {decode : List UInt8 → α} {ps : Layout}
    (hback : ∀ b : List UInt8, span ps ≤ b.length → encode (decode b) = blank ps b) (n : ℕ)
    (h : n * span ps ≤ b.length) :
    (rows decode (span ps) b n).flatMap encode = blank (List.replicate n ps).flatten b := by
  induction n generalizing b with
  | zero => rfl
  | succ n ih =>
    rw [Nat.succ_mul] at h
    have hrest : n * span ps ≤ (b.drop (span ps)).length := by
      rw [List.length_drop]
      omega
    rw [rows, List.flatMap_cons, List.replicate_succ, List.flatten_cons, blank_append, ih hrest,
      hback b (by omega)]

theorem Layout.span_replicate (ps : Layout) (n : ℕ) :
    span (List.replicate n ps).flatten = n * span ps := by
  induction n with
  | zero => rw [List.replicate_zero, List.flatten_nil, span, Nat.zero_mul]
  | succ n ih =>
    rw [List.replicate_succ, List.flatten_cons, span_append, ih, Nat.succ_mul, Nat.add_comm]

/-! ## Strict codecs -/

section Codec

variable {ε α : Type}

/-- What is read at the front of a body: a decoder gets the encodings back whatever allowed bytes
follow, never reads outside the body, accepts a body only if it holds all that its layout declares,
and what it accepts encodes to that part of the body again, up to the parts that carry no value.
`trailing v` says how many bytes may follow. -/
structure StrictAtFront (valid : α → Prop) (trailing : α → ℕ → Prop) (encode : α → List UInt8)
    (decode : List UInt8 → Option (Except ε α)) (layout : α → Layout) : Prop where
  roundTrip : ∀ v rest, valid v → trailing v rest.length → decode (encode v ++ rest) = some (.ok v)
  inside : ∀ b, decode b ≠ none
  declared : ∀ b v, decode b = some (.ok v) → ∃ n, trailing v n ∧ b.length = (layout v).span + n
  reencode : ∀ b v, decode b = some (.ok v) → encode v = (layout v).blank b

/-- A strict codec: nothing may follow. -/
structure Strict (valid : α → Prop) (encode : α → List UInt8)
    (decode : List UInt8 → Option (Except ε α)) (layout : α → Layout) : Prop where
  roundTrip : ∀ v, valid v → decode (encode v) = some (.ok v)
  inside : ∀ b, decode b ≠ none
  declared : ∀ b v, decode b = some (.ok v) → b.length = (layout v).span
  reencode : ∀ b v, decode b = some (.ok v) → encode v = (layout v).blank b

/-- A decoder that never leaves the body is strict if its results are. -/
theorem Strict.of_total {valid : α → Prop} {encode : α → List UInt8}
    {decode : List UInt8 → Option (Except ε α)} {layout : α → Layout}
    {plain : List UInt8 → Except ε α} (htotal : ∀ b, decode b = some (plain b))
    (hround : ∀ v, valid v → plain (encode v) = .ok v)
    (haccept : ∀ b v, plain b = .ok v → b.length = (layout v).span ∧
      encode v = (layout v).blank b) :
    Strict valid encode decode layout where
  roundTrip v hv := by rw [htotal, hround v hv]
  inside b := by
    rw [htotal]
    exact Option.some_ne_none _
  declared b v h := (haccept b v (Option.some.inj ((htotal b).symm.trans h))).1
  reencode b v h := (haccept b v (Option.some.inj ((htotal b).symm.trans h))).2

end Codec

end KVStash.Foundation.Bytes
