/- GID: KVStash/Dram/Tier/Invariant
   digest: What the threads on the DRAM tier own, and how it accounts for references, extents and
     charges. -/

import Mathlib.Order.CompletePartialOrder
import KVStash.Dram.Tier.Model
import KVStash.Foundation.Tally

set_option autoImplicit false

namespace KVStash.Dram.Tier

open Protocol Foundation.Tally

/-! ### What a thread owns -/

/-- What a thread can own: the knowledge that a reference was published, a counted
reference, the duty to free a block nobody refers to, the shard lock of a key with
a block that passed its gate (`moved` once its new home is published), an extent of
no block yet, and a charge that no resident block accounts for. -/
inductive Tok
  | known (r : BlockRef)
  | hold (r : BlockRef)
  | spent (r : BlockRef)
  | inside (k : Key) (r : BlockRef)
  | moved (k : Key) (r : BlockRef)
  | raw (e : Extent)
  | debt (ns n : ℕ)
  deriving DecidableEq

abbrev Own : Type := Multiset Tok

def Tok.extents : Tok → Multiset Extent
  | .raw e => {e}
  | _ => 0

def Tok.owed (ns : ℕ) : Tok → ℤ
  | .debt ns' n => if ns' = ns then n else 0
  | _ => 0

def rawExtents (m : Own) : Multiset Extent := weigh Tok.extents m

def owed (m : Own) (ns : ℕ) : ℤ := weigh (Tok.owed ns) m

@[simp] theorem rawExtents_zero : rawExtents 0 = 0 := rfl

@[simp] theorem rawExtents_add (m f : Own) : rawExtents (m + f) = rawExtents m + rawExtents f :=
  weigh_add _ m f

@[simp] theorem rawExtents_singleton (x : Tok) : rawExtents {x} = x.extents :=
  weigh_singleton _ x

@[simp] theorem rawExtents_cons (x : Tok) (m : Own) :
    rawExtents (x ::ₘ m) = x.extents + rawExtents m :=
  weigh_cons _ x m

@[simp] theorem owed_zero (ns : ℕ) : owed 0 ns = 0 := rfl

@[simp] theorem owed_add (m f : Own) (ns : ℕ) : owed (m + f) ns = owed m ns + owed f ns :=
  weigh_add _ m f

@[simp] theorem owed_singleton (x : Tok) (ns : ℕ) : owed {x} ns = x.owed ns :=
  weigh_singleton _ x

@[simp] theorem owed_cons (x : Tok) (m : Own) (ns : ℕ) :
    owed (x ::ₘ m) ns = x.owed ns + owed m ns :=
  weigh_cons _ x m

theorem owed_nonneg (m : Own) (ns : ℕ) : 0 ≤ owed m ns := by
  apply weigh_nonneg
  intro x
  cases x with
  | debt ns' n =>
    simp only [Tok.owed]
    split <;> omega
  | _ => exact le_refl _

/-- What an audit checks: the quota ledger, the liveness counts of segments, and
the length each digest stands for. -/
structure Audit where
  ledger : Bool
  liveness : Bool
  lenOf : ℕ → ℕ

/-- A charge to account for, when the ledger is audited. -/
def owe (a : Audit) (ns n : ℕ) : Own := if a.ledger ∧ n ≠ 0 then {.debt ns n} else 0

/-- The extent of a block of some length, none for an empty one. -/
def extentOf (offset len : ℕ) : Multiset Extent :=
  if len = 0 then 0 else {⟨offset, bytesToUnits len⟩}

def rawOf (offset len : ℕ) : Own := if len = 0 then 0 else {.raw ⟨offset, bytesToUnits len⟩}

/-! ### The invariant -/

def Minted (s : Store) (r : BlockRef) : Prop := r.id < s.next ∧ (s.cells r.id).ref = r

/-- The extent a block keeps from the allocator: while it is referred to, and until
whoever dropped the last reference frees it. -/
def kept (s : Store) (m : Own) (i : ℕ) : Multiset Extent :=
  if 0 < (s.cells i).refcount ∨ Tok.spent (s.cells i).ref ∈ m then
    extentOf (s.cells i).ref.offset (s.cells i).ref.len else 0

/-- The bytes a resident block accounts for in the ledger of its namespace. -/
def accounted (s : Store) (m : Own) (ns i : ℕ) : ℤ :=
  if s.index (s.cells i).ref.key = some (s.cells i).ref ∧ (s.cells i).ref.key.ns = ns ∧
      Tok.moved (s.cells i).ref.key (s.cells i).ref ∉ m then (s.cells i).ref.len else 0

/-- The tier against what the threads on it own. -/
structure Inv (p : Params) (a : Audit) (s : Store) (m : Own) : Prop where
  ids : ∀ i < s.next, (s.cells i).ref.id = i
  indexed : ∀ k r, s.index k = some r → Minted s r ∧ r.key = k
  minted : ∀ r, .known r ∈ m ∨ .hold r ∈ m ∨ .spent r ∈ m → Minted s r
  counted : ∀ r, Minted s r →
    (s.cells r.id).refcount = (if s.index r.key = some r then 1 else 0) + m.count (.hold r)
  spent : ∀ r, .spent r ∈ m → (s.cells r.id).refcount = 0 ∧ m.count (.spent r) = 1
  inside : ∀ k r, .inside k r ∈ m ∨ .moved k r ∈ m →
    s.index k = some r ∧ m.count (.inside k r) + m.count (.moved k r) = 1
  locked : ∀ k, s.locked k = true ↔ ∃ r, .inside k r ∈ m ∨ .moved k r ∈ m
  extents : (s.extents : Multiset Extent) = rawExtents m + tally s.next (kept s m)
  apart : s.extents.Pairwise Extent.Disjoint
  inArena : ∀ e ∈ s.extents, 0 < e.units ∧ e.offset + e.units ≤ p.units
  sized : a.ledger → ∀ i < s.next, (s.cells i).ref.len = a.lenOf (s.cells i).ref.xxh3
  ledger : a.ledger → ∀ ns, s.used ns = owed m ns + tally s.next (accounted s m ns)

variable {p : Params} {a : Audit} {s s' : Store} {m f : Own} {k : Key} {r : BlockRef}

/-- From what a thread owns, whatever the others own, an action keeps the invariant
and leaves the thread with a response and a resource that satisfy `Q`. -/
def Holds (p : Params) (a : Audit) (x : Act) (m : Own) (Q : x.Resp → Own → Prop) : Prop :=
  ∀ s f, Inv p a s (m + f) → ∀ env r s', exec p x env s = some (r, s') →
    ∃ m', Inv p a s' (m' + f) ∧ Q r m'

theorem start_inv (now : ℕ) : Inv p a (Store.new now) 0 where
  ids i hi := absurd hi (Nat.not_lt_zero i)
  indexed k r h := by simp [Store.new] at h
  minted r h := by simp at h
  counted r h := absurd h.1 (Nat.not_lt_zero _)
  spent r h := by simp at h
  inside k r h := by simp at h
  locked k := by simp [Store.new]
  extents := by simp [Store.new]
  apart := List.Pairwise.nil
  inArena e h := by simp [Store.new] at h
  sized _ i hi := absurd hi (Nat.not_lt_zero i)
  ledger _ ns := by simp [Store.new]

/-- Two states, with what is owned in them, that agree on every block and every key but some. -/
structure Beside (B : BlockRef → Prop) (K : Key → Prop) (s s' : Store) (m m' : Own) : Prop where
  next : s'.next = s.next
  ref : ∀ i, (s'.cells i).ref = (s.cells i).ref
  refcount : ∀ i, ¬B (s.cells i).ref → (s'.cells i).refcount = (s.cells i).refcount
  index : ∀ k, ¬K k → s'.index k = s.index k
  resident : ∀ r, ¬B r → (s'.index r.key = some r ↔ s.index r.key = some r)
  locked : ∀ k, ¬K k → s'.locked k = s.locked k
  ofBlock : ∀ r, ¬B r → m'.count (.hold r) = m.count (.hold r) ∧
    m'.count (.spent r) = m.count (.spent r)
  ofKey : ∀ k r, ¬K k ∨ ¬B r →
    m'.count (.inside k r) = m.count (.inside k r) ∧ m'.count (.moved k r) = m.count (.moved k r)

section Change

variable {B : BlockRef → Prop} {K : Key → Prop} {m' : Own} {x : Tok} {i : ℕ}

theorem mem_of_count (h : m'.count x = m.count x) : x ∈ m' ↔ x ∈ m := by
  rw [← Multiset.count_pos, ← Multiset.count_pos, h]

theorem Beside.minted (hb : Beside B K s s' m m') : Minted s' r ↔ Minted s r := by
  rw [Minted, Minted, hb.next, hb.ref]

theorem Beside.kept (hb : Beside B K s s' m m') (hi : ¬B (s.cells i).ref) :
    kept s' m' i = kept s m i := by
  simp only [Tier.kept, hb.ref, hb.refcount i hi, mem_of_count (hb.ofBlock _ hi).2]

theorem Beside.accounted (hb : Beside B K s s' m m') (ns : ℕ) (hi : ¬B (s.cells i).ref) :
    accounted s' m' ns i = accounted s m ns i := by
  simp only [Tier.accounted, hb.ref, hb.resident _ hi, mem_of_count (hb.ofKey _ _ (.inr hi)).2]

/-- A change of some blocks and keys keeps the invariant if it does so for these and for the
totals. -/
theorem Inv.change (h : Inv p a s m) (hb : Beside B K s s' m m')
    (hindexed : ∀ k r, K k → s'.index k = some r → Minted s r ∧ r.key = k)
    (hminted : ∀ r, .known r ∈ m' ∨ B r ∧ (.hold r ∈ m' ∨ .spent r ∈ m') → Minted s r)
    (hcounted : ∀ r, B r → Minted s r →
      (s'.cells r.id).refcount = (if s'.index r.key = some r then 1 else 0) + m'.count (.hold r))
    (hspent : ∀ r, B r → .spent r ∈ m' → (s'.cells r.id).refcount = 0 ∧ m'.count (.spent r) = 1)
    (hinside : ∀ k r, K k → .inside k r ∈ m' ∨ .moved k r ∈ m' →
      s'.index k = some r ∧ m'.count (.inside k r) + m'.count (.moved k r) = 1)
    (hlocked : ∀ k, K k → (s'.locked k = true ↔ ∃ r, .inside k r ∈ m' ∨ .moved k r ∈ m'))
    (hextents : (s'.extents : Multiset Extent) = rawExtents m' + tally s.next (Tier.kept s' m'))
    (hapart : s'.extents.Pairwise Extent.Disjoint)
    (hinArena : ∀ e ∈ s'.extents, 0 < e.units ∧ e.offset + e.units ≤ p.units)
    (hledger : a.ledger → ∀ ns, s'.used ns = owed m' ns + tally s.next (Tier.accounted s' m' ns)) :
    Inv p a s' m' := by
  refine ⟨?_, ?_, ?_, ?_, ?_, ?_, ?_, hb.next ▸ hextents, hapart, hinArena, ?_, hb.next ▸ hledger⟩
  · intro i hi
    rw [hb.ref]
    exact h.ids i (hb.next ▸ hi)
  · intro k r hr
    rw [hb.minted]
    by_cases hk : K k
    · exact hindexed k r hk hr
    · exact h.indexed k r (hb.index k hk ▸ hr)
  · intro r hr
    rw [hb.minted]
    by_cases hB : B r
    · exact hminted r (hr.imp_right fun hr => ⟨hB, hr⟩)
    · rcases hr with hr | hr
      · exact hminted r (.inl hr)
      · rw [mem_of_count (hb.ofBlock r hB).1, mem_of_count (hb.ofBlock r hB).2] at hr
        exact h.minted r (.inr hr)
  · intro r hr
    rw [hb.minted] at hr
    by_cases hB : B r
    · exact hcounted r hB hr
    · rw [hb.refcount _ (by rwa [hr.2]), (hb.ofBlock r hB).1, h.counted r hr]
      simp only [hb.resident r hB]
  · intro r hr
    by_cases hB : B r
    · exact hspent r hB hr
    · rw [mem_of_count (hb.ofBlock r hB).2] at hr
      have href := (h.minted r (.inr (.inr hr))).2
      rw [hb.refcount _ (by rwa [href]), (hb.ofBlock r hB).2]
      exact h.spent r hr
  · intro k r hr
    by_cases hk : K k
    · exact hinside k r hk hr
    · obtain ⟨hin, hmv⟩ := hb.ofKey k r (.inl hk)
      rw [mem_of_count hin, mem_of_count hmv] at hr
      rw [hb.index k hk, hin, hmv]
      exact h.inside k r hr
  · intro k
    by_cases hk : K k
    · exact hlocked k hk
    · have hmem : ∀ r, (.inside k r ∈ m' ∨ .moved k r ∈ m' ↔ .inside k r ∈ m ∨ .moved k r ∈ m) :=
        fun r =>
        or_congr (mem_of_count (hb.ofKey k r (.inl hk)).1) (mem_of_count (hb.ofKey k r (.inl hk)).2)
      simp only [hb.locked k hk, hmem]
      exact h.locked k
  · intro hl i hi
    rw [hb.ref]
    exact h.sized hl i (hb.next ▸ hi)

/-- Nothing changes about any block or key. -/
theorem Inv.totals (h : Inv p a s m) (hb : Beside (fun _ => False) (fun _ => False) s s' m m')
    (hk : ∀ r, .known r ∈ m' → Minted s r)
    (he : (s'.extents : Multiset Extent) = rawExtents m' + tally s.next (kept s m))
    (hap : s'.extents.Pairwise Extent.Disjoint)
    (har : ∀ e ∈ s'.extents, 0 < e.units ∧ e.offset + e.units ≤ p.units)
    (hu : a.ledger → ∀ ns, s'.used ns = owed m' ns + tally s.next (accounted s m ns)) :
    Inv p a s' m' := by
  have hkept : Tier.kept s' m' = Tier.kept s m := funext fun i => hb.kept (i := i) id
  have hacc : ∀ ns, Tier.accounted s' m' ns = Tier.accounted s m ns := fun ns =>
    funext fun i => hb.accounted (i := i) ns id
  refine h.change hb (fun _ _ h => h.elim) (fun r hr => hk r (hr.resolve_right fun h => h.1.elim))
    (fun _ h => h.elim)
    (fun _ h => h.elim) (fun _ _ h => h.elim) (fun _ h => h.elim) (hkept ▸ he) hap har fun hl ns =>
    ?_
  rw [hacc]
  exact hu hl ns

end Change

/-- The invariant reads the index, the locks, the allocator, the ledger and of each
block its reference and its count. -/
theorem Inv.congr (h : Inv p a s m) (hi : s'.index = s.index) (hl : s'.locked = s.locked)
    (hn : s'.next = s.next) (he : s'.extents = s.extents) (hu : s'.used = s.used)
    (hr : ∀ i, (s'.cells i).ref = (s.cells i).ref)
    (hc : ∀ i, (s'.cells i).refcount = (s.cells i).refcount) : Inv p a s' m := by
  have hb : Beside (fun _ => False) (fun _ => False) s s' m m :=
    ⟨hn, hr, fun i _ => hc i,
      fun _ _ => by rw [hi], fun _ _ => by rw [hi], fun _ _ => by rw [hl], fun _ _ => ⟨rfl, rfl⟩,
      fun _ _ _ => ⟨rfl, rfl⟩⟩
  exact h.totals hb (fun r hr => h.minted r (.inl hr)) (he ▸ h.extents) (he ▸ h.apart)
    (he ▸ h.inArena)
    (hu ▸ h.ledger)

theorem Inv.onCell (h : Inv p a s m) {f : Cell → Cell} (hr : ∀ c, (f c).ref = c.ref)
    (hc : ∀ c, (f c).refcount = c.refcount) : Inv p a (s.onCell r f) m := by
  have hcell : ∀ i, ((s.onCell r f).cells i).ref = (s.cells i).ref ∧
      ((s.onCell r f).cells i).refcount = (s.cells i).refcount := by
    intro i
    by_cases hi : i = r.id
    · subst hi
      simp [Store.onCell, hr, hc]
    · simp [Store.onCell, Function.update_of_ne hi]
  exact h.congr rfl rfl rfl rfl rfl (fun i => (hcell i).1) (fun i => (hcell i).2)

open Multiset

def bytes (r : BlockRef) : Set ℕ := Set.Ico (r.offset * AllocUnit) (r.offset * AllocUnit + r.len)

def area (e : Extent) : Set ℕ :=
  Set.Ico (e.offset * AllocUnit) ((e.offset + e.units) * AllocUnit)

theorem bytes_subset_area (r : BlockRef) : bytes r ⊆ area r.extent := by
  intro b hb
  refine ⟨hb.1, lt_of_lt_of_le hb.2 ?_⟩
  simp only [BlockRef.extent, bytesToUnits, AllocUnit]
  omega

theorem bytes_eq_empty {r : BlockRef} (h : r.len = 0) : bytes r = ∅ := by
  simp [bytes, h]

theorem area_disjoint {e f : Extent} (h : e.Disjoint f) : Disjoint (area e) (area f) := by
  rw [Set.disjoint_left]
  intro b he hf
  have h1 := he.1
  have h2 := he.2
  have h3 := hf.1
  have h4 := hf.2
  simp only [AllocUnit] at h1 h2 h3 h4
  rcases h with h | h <;> omega

variable {p : Params} {a : Audit} {s : Store} {m : Own}

private theorem kept_of_referred {i : ℕ} (hi : 0 < (s.cells i).refcount)
    (hlen : (s.cells i).ref.len ≠ 0) : kept s m i = {(s.cells i).ref.extent} := by
  rw [kept, if_pos (.inl hi), extentOf, if_neg hlen]
  rfl

theorem referred_disjoint (h : Inv p a s m) {i j : ℕ} (hi : i < s.next) (hj : j < s.next)
    (hij : i ≠ j) (hri : 0 < (s.cells i).refcount) (hrj : 0 < (s.cells j).refcount)
    (hli : (s.cells i).ref.len ≠ 0) (hlj : (s.cells j).ref.len ≠ 0) :
    (s.cells i).ref.extent.Disjoint (s.cells j).ref.extent := by
  obtain ⟨x, hx⟩ := exists_tally_eq_add_add hi hj hij (kept s m)
  have he := h.extents
  rw [hx, kept_of_referred hri hli, kept_of_referred hrj hlj, add_left_comm,
    add_left_comm (rawExtents m)] at he
  exact rel_of_pair_le (fun _ _ => Or.symm) h.apart he

theorem referred_mem (h : Inv p a s m) {i : ℕ} (hi : i < s.next)
    (hri : 0 < (s.cells i).refcount) (hli : (s.cells i).ref.len ≠ 0) :
    (s.cells i).ref.extent ∈ s.extents := by
  obtain ⟨x, hx⟩ := exists_tally_eq_add hi (kept s m)
  have he := h.extents
  rw [hx, kept_of_referred hri hli, add_left_comm] at he
  rw [← mem_coe, he]
  simp

theorem freed_apart (h : Inv p a s m) {e : Extent}
    (he : .raw e ∈ m ∨ ∃ r, .spent r ∈ m ∧ r.extent = e ∧ r.len ≠ 0) :
    e ∈ s.extents ∧ ∀ i < s.next, 0 < (s.cells i).refcount → (s.cells i).ref.len ≠ 0 →
      e.Disjoint (s.cells i).ref.extent := by
  rcases he with he | ⟨r, hr, rfl, hlen⟩
  · obtain ⟨n, rfl⟩ := exists_cons_of_mem he
    have hx := h.extents
    rw [rawExtents_cons, Tok.extents, add_assoc] at hx
    refine ⟨by rw [← mem_coe, hx]; simp, fun i hi hri hli => ?_⟩
    obtain ⟨y, hy⟩ := exists_tally_eq_add hi (kept s (.raw e ::ₘ n))
    rw [hy, kept_of_referred hri hli, add_left_comm (rawExtents n)] at hx
    exact rel_of_pair_le (fun _ _ => Or.symm) h.apart hx
  · have hmint := h.minted r (.inr (.inr hr))
    have hkept : kept s m r.id = {r.extent} := by
      rw [kept, if_pos (.inr (by rw [hmint.2]; exact hr)), hmint.2, extentOf, if_neg hlen]
      rfl
    have hx := h.extents
    refine ⟨?_, fun i hi hri hli => ?_⟩
    · obtain ⟨y, hy⟩ := exists_tally_eq_add hmint.1 (kept s m)
      rw [hy, hkept, add_left_comm] at hx
      rw [← mem_coe, hx]
      simp
    have hne : r.id ≠ i := by
      rintro rfl
      have := (h.spent r hr).1
      omega
    obtain ⟨y, hy⟩ := exists_tally_eq_add_add hmint.1 hi hne (kept s m)
    rw [hy, hkept, kept_of_referred hri hli, add_left_comm, add_left_comm (rawExtents m)] at hx
    exact rel_of_pair_le (fun _ _ => Or.symm) h.apart hx

theorem extents_nodup (h : Inv p a s m) : s.extents.Nodup := by
  apply List.Pairwise.imp_of_mem ?_ h.apart
  rintro e f he - hd rfl
  have := (h.inArena e he).1
  rcases hd with hd | hd <;> omega

def Resident (s : Store) (i : ℕ) : Prop := s.index (s.cells i).ref.key = some (s.cells i).ref

instance (s : Store) (i : ℕ) : Decidable (Resident s i) := inferInstanceAs (Decidable (_ = _))

theorem resident_referred (h : Inv p a s m) {i : ℕ} (hi : i < s.next) (hr : Resident s i) :
    0 < (s.cells i).refcount := by
  have hid := h.ids i hi
  have hmint : Minted s (s.cells i).ref := ⟨by omega, by rw [hid]⟩
  have hc := h.counted _ hmint
  rw [hid, if_pos (show s.index _ = _ from hr)] at hc
  omega

private theorem kept_of_idle (h : Inv p a s 0) {i : ℕ} (hi : i < s.next) : kept s 0 i =
    if Resident s i then extentOf (s.cells i).ref.offset (s.cells i).ref.len else 0 := by
  have hid := h.ids i hi
  have hmint : Minted s (s.cells i).ref := ⟨by omega, by rw [hid]⟩
  have hc := h.counted _ hmint
  rw [hid, count_zero, add_zero] at hc
  by_cases hr : Resident s i
  · rw [if_pos (show s.index _ = _ from hr)] at hc
    rw [kept, hc, if_pos (.inl Nat.one_pos), if_pos hr]
  · rw [if_neg (show ¬ s.index _ = _ from hr)] at hc
    rw [kept, hc, if_neg (by simp), if_neg hr]

theorem mem_extents_of_idle (h : Inv p a s 0) (e : Extent) :
    e ∈ s.extents ↔ ∃ k r, s.index k = some r ∧ r.len ≠ 0 ∧ r.extent = e := by
  have hx := h.extents
  rw [rawExtents_zero, zero_add, tally_congr fun i hi => kept_of_idle h hi] at hx
  rw [← mem_coe, hx, tally, mem_sum]
  constructor
  · rintro ⟨i, -, he⟩
    split at he
    · next hr =>
      unfold extentOf at he
      split at he
      · simp at he
      · next hlen => exact ⟨_, _, hr, hlen, (mem_singleton.mp he).symm⟩
    · simp at he
  · rintro ⟨k, r, hk, hlen, rfl⟩
    obtain ⟨⟨hlt, href⟩, hkey⟩ := h.indexed k r hk
    refine ⟨r.id, Finset.mem_range.mpr hlt, ?_⟩
    have hr : Resident s r.id := by
      rw [Resident, href, hkey]
      exact hk
    rw [if_pos hr, href, extentOf, if_neg hlen]
    exact mem_singleton_self _

end KVStash.Dram.Tier
