/- GID: KVStash/Dram/OffsetAlloc/Bins
   digest: The binned free lists and their bitmasks under parking and unlinking a node. -/

import KVStash.Foundation.LinkedSegment
import KVStash.Dram.OffsetAlloc.Model
import Mathlib.Algebra.BigOperators.Group.Finset.Basic

set_option autoImplicit false

namespace KVStash.Dram.OffsetAlloc

open Foundation.BitMask Function List
open Foundation.LinkedSegment
open Dram.SmallFloat

namespace Allocator

def binNext (a : Allocator) (i : ℕ) : Option ℕ := (a.nodes i).binListNext

def binPrev (a : Allocator) (i : ℕ) : Option ℕ := (a.nodes i).binListPrev

/-- The free slots `S` sit in the bin lists `B`: each in the bin of its rounded
down size and in no other, with a mask bit exactly for each non-empty bin. -/
structure BinsOk (a : Allocator) (S : Finset ℕ) (B : ℕ → List ℕ) : Prop where
  linked : ∀ b, Linked a.binNext a.binPrev none (B b) none
  head : ∀ b, a.binIndices b = first (B b) none
  nodup : ∀ b, (B b).Nodup
  mem : ∀ b i, i ∈ B b ↔ i ∈ S ∧ a.binOf i = b
  small : ∀ i ∈ S, (a.nodes i).dataSize < 2 ^ 32
  masks : TwoLevel a.usedBins a.usedBinsTop (fun b => B b ≠ [])

/-- Everything but the bins and the `used` flags: ranges, neighbour links,
generations and the node stack. -/
structure SameRanges (a a' : Allocator) : Prop where
  size : a'.size = a.size
  maxAllocs : a'.maxAllocs = a.maxAllocs
  freeNodes : a'.freeNodes = a.freeNodes
  freeOffset : a'.freeOffset = a.freeOffset
  dataOffset : ∀ j, (a'.nodes j).dataOffset = (a.nodes j).dataOffset
  dataSize : ∀ j, (a'.nodes j).dataSize = (a.nodes j).dataSize
  neighborPrev : ∀ j, (a'.nodes j).neighborPrev = (a.nodes j).neighborPrev
  neighborNext : ∀ j, (a'.nodes j).neighborNext = (a.nodes j).neighborNext
  gen : ∀ j, (a'.nodes j).gen = (a.nodes j).gen

section Fields

variable (a : Allocator) (i j : ℕ) (n : Node) (link : Option ℕ) (f : Node → Node)

@[simp] theorem setNode_nodes : (a.setNode i n).nodes = update a.nodes i n := rfl
@[simp] theorem setNode_size : (a.setNode i n).size = a.size := rfl
@[simp] theorem setNode_maxAllocs : (a.setNode i n).maxAllocs = a.maxAllocs := rfl
@[simp] theorem setNode_freeStorage : (a.setNode i n).freeStorage = a.freeStorage := rfl
@[simp] theorem setNode_usedBinsTop : (a.setNode i n).usedBinsTop = a.usedBinsTop := rfl
@[simp] theorem setNode_usedBins : (a.setNode i n).usedBins = a.usedBins := rfl
@[simp] theorem setNode_binIndices : (a.setNode i n).binIndices = a.binIndices := rfl
@[simp] theorem setNode_freeNodes : (a.setNode i n).freeNodes = a.freeNodes := rfl
@[simp] theorem setNode_freeOffset : (a.setNode i n).freeOffset = a.freeOffset := rfl

@[simp] theorem onSlot_nodes :
    (a.onSlot link f).nodes j = if link = some j then f (a.nodes j) else a.nodes j := by
  cases link with
  | none => rfl
  | some k =>
    simp only [onSlot, setNode_nodes, update_apply, Option.some.injEq]
    by_cases h : j = k
    · subst h; simp
    · simp [h, Ne.symm h]

@[simp] theorem onSlot_size : (a.onSlot link f).size = a.size := by cases link <;> rfl
@[simp] theorem onSlot_maxAllocs :
    (a.onSlot link f).maxAllocs = a.maxAllocs := by cases link <;> rfl
@[simp] theorem onSlot_freeStorage :
    (a.onSlot link f).freeStorage = a.freeStorage := by cases link <;> rfl
@[simp] theorem onSlot_usedBinsTop :
    (a.onSlot link f).usedBinsTop = a.usedBinsTop := by cases link <;> rfl
@[simp] theorem onSlot_usedBins : (a.onSlot link f).usedBins = a.usedBins := by cases link <;> rfl
@[simp] theorem onSlot_binIndices :
    (a.onSlot link f).binIndices = a.binIndices := by cases link <;> rfl
@[simp] theorem onSlot_freeNodes :
    (a.onSlot link f).freeNodes = a.freeNodes := by cases link <;> rfl
@[simp] theorem onSlot_freeOffset :
    (a.onSlot link f).freeOffset = a.freeOffset := by cases link <;> rfl

@[simp] theorem markBin_nodes : (a.markBin i).nodes = a.nodes := by
  unfold markBin; split <;> rfl
@[simp] theorem markBin_size : (a.markBin i).size = a.size := by
  unfold markBin; split <;> rfl
@[simp] theorem markBin_maxAllocs : (a.markBin i).maxAllocs = a.maxAllocs := by
  unfold markBin; split <;> rfl
@[simp] theorem markBin_freeStorage : (a.markBin i).freeStorage = a.freeStorage := by
  unfold markBin; split <;> rfl
@[simp] theorem markBin_binIndices : (a.markBin i).binIndices = a.binIndices := by
  unfold markBin; split <;> rfl
@[simp] theorem markBin_freeNodes : (a.markBin i).freeNodes = a.freeNodes := by
  unfold markBin; split <;> rfl
@[simp] theorem markBin_freeOffset : (a.markBin i).freeOffset = a.freeOffset := by
  unfold markBin; split <;> rfl

end Fields

variable {a a' : Allocator} {S : Finset ℕ} {B : ℕ → List ℕ} {i b t l p b' : ℕ}

theorem BinsOk.frame (h : BinsOk a S B) (hi : a'.binIndices = a.binIndices)
    (hu : a'.usedBins = a.usedBins) (ht : a'.usedBinsTop = a.usedBinsTop)
    (hn : ∀ i ∈ S, a'.binNext i = a.binNext i) (hp : ∀ i ∈ S, a'.binPrev i = a.binPrev i)
    (hs : ∀ i ∈ S, (a'.nodes i).dataSize = (a.nodes i).dataSize) : BinsOk a' S B where
  linked b := (h.linked b).congr (fun i hm => hn i ((h.mem b i).mp hm).1)
    (fun i hm => hp i ((h.mem b i).mp hm).1)
  head b := by rw [hi, h.head]
  nodup := h.nodup
  mem b i := by
    rw [h.mem b i]
    refine and_congr_right (fun hm => ?_)
    rw [binOf, binOf, hs i hm]
  small i hm := by
    rw [hs i hm]
    exact h.small i hm
  masks := by
    rw [hu, ht]
    exact h.masks

theorem bin_split (b : ℕ) :
    8 * (b >>> topBinsIndexShift) + (b &&& leafBinsIndexMask) = b ∧
      b &&& leafBinsIndexMask < 8 := by
  have hl : b &&& leafBinsIndexMask = b % 8 := Nat.and_two_pow_sub_one_eq_mod b 3
  have ht : b >>> topBinsIndexShift = b / 8 := Nat.shiftRight_eq_div_pow b 3
  rw [hl, ht]
  omega

theorem bin_join (hl : l < 8) : t <<< topBinsIndexShift ||| l = 8 * t + l := by
  change t <<< 3 ||| l = 8 * t + l
  rw [← Nat.shiftLeft_add_eq_or_of_lt (by omega), Nat.shiftLeft_eq]
  omega

private def parked (a : Allocator) (i : ℕ) : Node :=
  { a.nodes i with binListPrev := none, binListNext := a.binIndices (a.binOf i), used := false }

private theorem insert_nodes (a : Allocator) (i j : ℕ) :
    (a.insertExistingNodeIntoBin i).nodes j =
      if a.binIndices (a.binOf i) = some j then
        { (if i = j then a.parked i else a.nodes j) with binListPrev := some i }
      else if i = j then a.parked i else a.nodes j := by
  simp only [insertExistingNodeIntoBin, parked, onSlot_nodes, markBin_nodes, Option.some.injEq]
  by_cases h : i = j
  · subst h; simp
  · simp [h]

theorem insert_sameRanges (a : Allocator) (i : ℕ) :
    SameRanges a (a.insertExistingNodeIntoBin i) := by
  refine ⟨?_, ?_, ?_, ?_, ?_, ?_, ?_, ?_, ?_⟩
  iterate 4
    · simp [insertExistingNodeIntoBin]
  iterate 5
    · intro j
      rw [insert_nodes]
      by_cases hj : i = j
      · subst hj
        split <;> simp [parked]
      · simp only [hj, if_false]
        split <;> rfl

theorem insert_used (a : Allocator) (i j : ℕ) :
    ((a.insertExistingNodeIntoBin i).nodes j).used = if i = j then false else (a.nodes j).used := by
  rw [insert_nodes]
  by_cases hj : i = j
  · subst hj
    split <;> simp [parked]
  · simp only [hj, if_false]
    split <;> rfl

theorem insert_freeStorage (a : Allocator) (i : ℕ) :
    (a.insertExistingNodeIntoBin i).freeStorage = a.freeStorage + (a.nodes i).dataSize := by
  simp [insertExistingNodeIntoBin]

private theorem insert_binIndices (a : Allocator) (i : ℕ) :
    (a.insertExistingNodeIntoBin i).binIndices =
      update a.binIndices (a.binOf i) (some i) := by
  simp [insertExistingNodeIntoBin]

private theorem insert_masks (h : BinsOk a S B) (i : ℕ) (hlt : a.binOf i < 240) :
    TwoLevel (a.insertExistingNodeIntoBin i).usedBins (a.insertExistingNodeIntoBin i).usedBinsTop
      (fun b => b = a.binOf i ∨ B b ≠ []) := by
  obtain ⟨hsplit, hleaf⟩ := bin_split (a.binOf i)
  simp only [insertExistingNodeIntoBin, onSlot_usedBins, onSlot_usedBinsTop, markBin]
  split
  · refine (h.masks.set hleaf (t := a.binOf i >>> topBinsIndexShift) (by omega)).congr ?_
    intro b
    rw [hsplit]
  rename_i hne
  refine h.masks.congr (fun b => ?_)
  constructor
  · exact Or.inr
  rintro (rfl | hb)
  · intro hnil
    exact hne (by rw [h.head, hnil]; rfl)
  · exact hb

theorem BinsOk.insert (h : BinsOk a S B) (hi : i ∉ S) (hs : (a.nodes i).dataSize < 2 ^ 32) :
    BinsOk (a.insertExistingNodeIntoBin i) (insert i S)
      (update B (a.binOf i) (i :: B (a.binOf i))) := by
  have hsame := insert_sameRanges a i
  have hbin : ∀ j, (a.insertExistingNodeIntoBin i).binOf j = a.binOf j := fun j => by
    rw [binOf, binOf, hsame.dataSize]
  have hout : ∀ b, i ∉ B b := fun b hm => hi ((h.mem b i).mp hm).1
  have hlt : a.binOf i < 240 := roundDown_lt hs
  have hne : ∀ b j, j ∈ B b → i ≠ j := fun b j hm he => hout b (he ▸ hm)
  have hself : a.binIndices (a.binOf i) ≠ some i := by
    rw [h.head]
    exact fun hf => hout _ (mem_of_first_none hf)
  have hnext : ∀ b, ∀ j ∈ B b, (a.insertExistingNodeIntoBin i).binNext j = a.binNext j := by
    intro b j hm
    rw [binNext, binNext, insert_nodes]
    split <;> simp [hne b j hm]
  -- the old head is the only other slot whose links change
  have hprev : ∀ b, ∀ j ∈ B b, (a.insertExistingNodeIntoBin i).binPrev j =
      if first (B (a.binOf i)) none = some j then some i else a.binPrev j := by
    intro b j hm
    rw [binPrev, insert_nodes, h.head]
    split
    · rfl
    · rw [if_neg (hne b j hm)]
      rfl
  refine ⟨?_, ?_, ?_, ?_, ?_, ?_⟩
  · intro b
    rw [update_apply]
    split
    · rename_i hb
      subst hb
      refine Linked.insert (l := []) (h.linked (a.binOf i)) (h.nodup _) ?_ ?_ ?_ (hprev _)
      · rw [binPrev, insert_nodes, if_neg hself, if_pos rfl]
        rfl
      · rw [binNext, insert_nodes, if_neg hself, if_pos rfl]
        exact h.head _
      · intro j hj
        rw [hnext _ j hj]
        rfl
    · rename_i hb
      refine (h.linked b).congr (hnext b) ?_
      intro j hj
      rw [hprev b j hj]
      refine if_neg (fun hf => hb ?_)
      exact ((h.mem b j).mp hj).2.symm.trans ((h.mem _ j).mp (mem_of_first_none hf)).2
  · intro b
    rw [insert_binIndices, update_apply, update_apply]
    split
    · rfl
    · exact h.head b
  · intro b
    rw [update_apply]
    split
    · exact nodup_cons.mpr ⟨hout _, h.nodup _⟩
    · exact h.nodup b
  · intro b j
    rw [update_apply, hbin, Finset.mem_insert]
    split
    · rename_i hb
      subst hb
      rw [mem_cons, h.mem]
      constructor
      · rintro (rfl | ⟨hj, hk⟩)
        · exact ⟨Or.inl rfl, rfl⟩
        · exact ⟨Or.inr hj, hk⟩
      · rintro ⟨rfl | hj, hk⟩
        · exact Or.inl rfl
        · exact Or.inr ⟨hj, hk⟩
    · rename_i hb
      rw [h.mem]
      constructor
      · rintro ⟨hj, hk⟩
        exact ⟨Or.inr hj, hk⟩
      · rintro ⟨rfl | hj, hk⟩
        · exact absurd hk.symm hb
        · exact ⟨hj, hk⟩
  · intro j hj
    rw [hsame.dataSize]
    rcases Finset.mem_insert.mp hj with rfl | hm
    · exact hs
    · exact h.small j hm
  · refine (insert_masks h i hlt).congr (fun b => ?_)
    rw [update_apply]
    split
    · rename_i hb
      simp [hb]
    · rename_i hb
      simp [hb]

section Fields

variable (a : Allocator) (i b t l : ℕ)

@[simp] theorem clearIfEmpty_nodes : (a.clearIfEmpty b t l).nodes = a.nodes := by
  unfold clearIfEmpty; split <;> rfl
@[simp] theorem clearIfEmpty_size : (a.clearIfEmpty b t l).size = a.size := by
  unfold clearIfEmpty; split <;> rfl
@[simp] theorem clearIfEmpty_maxAllocs : (a.clearIfEmpty b t l).maxAllocs = a.maxAllocs := by
  unfold clearIfEmpty; split <;> rfl
@[simp] theorem clearIfEmpty_freeStorage : (a.clearIfEmpty b t l).freeStorage = a.freeStorage := by
  unfold clearIfEmpty; split <;> rfl
@[simp] theorem clearIfEmpty_binIndices : (a.clearIfEmpty b t l).binIndices = a.binIndices := by
  unfold clearIfEmpty; split <;> rfl
@[simp] theorem clearIfEmpty_freeNodes : (a.clearIfEmpty b t l).freeNodes = a.freeNodes := by
  unfold clearIfEmpty; split <;> rfl
@[simp] theorem clearIfEmpty_freeOffset : (a.clearIfEmpty b t l).freeOffset = a.freeOffset := by
  unfold clearIfEmpty; split <;> rfl

@[simp] theorem unlinkHead_nodes (j : ℕ) :
    (a.unlinkHead i b t l).nodes j =
      if (a.nodes i).binListNext = some j then { a.nodes j with binListPrev := none }
      else a.nodes j := by
  simp only [unlinkHead, clearIfEmpty_nodes, onSlot_nodes]

@[simp] theorem unlinkHead_binIndices :
    (a.unlinkHead i b t l).binIndices =
      update a.binIndices b (a.nodes i).binListNext := by
  simp only [unlinkHead, clearIfEmpty_binIndices, onSlot_binIndices]

@[simp] theorem unlinkHead_freeStorage : (a.unlinkHead i b t l).freeStorage = a.freeStorage := by
  simp only [unlinkHead, clearIfEmpty_freeStorage, onSlot_freeStorage]

end Fields

theorem unlinkHead_sameRanges (a : Allocator) (i b t l : ℕ) :
    SameRanges a (a.unlinkHead i b t l) := by
  refine ⟨?_, ?_, ?_, ?_, ?_, ?_, ?_, ?_, ?_⟩
  iterate 4
    · simp [unlinkHead]
  iterate 5
    · intro j
      rw [unlinkHead_nodes]
      split <;> rfl

theorem unlinkHead_used (a : Allocator) (i b t l j : ℕ) :
    ((a.unlinkHead i b t l).nodes j).used = (a.nodes j).used := by
  rw [unlinkHead_nodes]
  split <;> rfl

private theorem BinsOk.of_erase (h : BinsOk a S B) (i : ℕ)
    (hs : ∀ j, (a'.nodes j).dataSize = (a.nodes j).dataSize)
    (hlink : ∀ b, Linked a'.binNext a'.binPrev none ((B b).erase i) none)
    (hidx : ∀ b, a'.binIndices b = first ((B b).erase i) none)
    (hm : TwoLevel a'.usedBins a'.usedBinsTop (fun b => (B b).erase i ≠ [])) :
    BinsOk a' (S.erase i) (fun b => (B b).erase i) where
  linked := hlink
  head := hidx
  nodup b := (h.nodup b).erase i
  mem b j := by
    have hbin : a'.binOf j = a.binOf j := by rw [binOf, binOf, hs j]
    rw [(h.nodup b).mem_erase_iff, h.mem, Finset.mem_erase, hbin, and_assoc]
  small j hj := by
    rw [hs j]
    exact h.small j (Finset.mem_of_mem_erase hj)
  masks := hm

private theorem BinsOk.erase_other (h : BinsOk a S B) (hi : i ∈ B b) (hb : b' ≠ b) :
    (B b').erase i = B b' := by
  apply erase_of_not_mem
  intro hm
  exact hb (((h.mem b' i).mp hm).2.symm.trans ((h.mem b i).mp hi).2)

private theorem clear_masks (h : BinsOk a S B) {r : List ℕ} (hB : B b = i :: r)
    (hb : 8 * t + l = b) (hl : l < 8) (hnext : (a.nodes i).binListNext = first r none) :
    TwoLevel (a.unlinkHead i b t l).usedBins (a.unlinkHead i b t l).usedBinsTop
      (fun b' => (B b').erase i ≠ []) := by
  have hi : i ∈ B b := by rw [hB]; exact mem_cons_self
  simp only [unlinkHead, clearIfEmpty, onSlot_binIndices, update_self, hnext]
  split
  · rename_i hnil
    have hr : r = [] := by
      cases r with
      | nil => rfl
      | cons j r => simp at hnil
    simp only [onSlot_usedBins, onSlot_usedBinsTop]
    refine (h.masks.clear (t := t) hl).congr (fun b' => ?_)
    rw [hb]
    by_cases hb' : b' = b
    · rw [hb', hB, erase_cons_head]
      exact iff_of_false (fun hc => hc.1 rfl) (fun hc => hc hr)
    · rw [h.erase_other hi hb']
      exact and_iff_right hb'
  · rename_i hne
    simp only [onSlot_usedBins, onSlot_usedBinsTop]
    refine h.masks.congr (fun b' => ?_)
    by_cases hb' : b' = b
    · rw [hb', hB, erase_cons_head]
      refine iff_of_true (cons_ne_nil i r) (fun hr => hne ?_)
      rw [hr]
      rfl
    · rw [h.erase_other hi hb']

theorem BinsOk.unlinkHead (h : BinsOk a S B) {r : List ℕ} (hB : B b = i :: r)
    (hb : 8 * t + l = b) (hl : l < 8) :
    BinsOk (a.unlinkHead i b t l) (S.erase i) (fun b => (B b).erase i) := by
  have hlink := h.linked b
  rw [hB] at hlink
  have hnext : (a.nodes i).binListNext = first r none := hlink.2.1
  have hi : i ∈ B b := by rw [hB]; exact mem_cons_self
  have hnd := h.nodup b
  rw [hB] at hnd
  have hfwd : ∀ j, (a.unlinkHead i b t l).binNext j = a.binNext j := by
    intro j
    rw [binNext, unlinkHead_nodes]
    split <;> rfl
  have hback : ∀ j, (a.unlinkHead i b t l).binPrev j =
      if first r none = some j then none else a.binPrev j := by
    intro j
    rw [binPrev, unlinkHead_nodes, hnext]
    split <;> rfl
  refine h.of_erase i (unlinkHead_sameRanges a i b t l).dataSize ?_ ?_
    (clear_masks h hB hb hl hnext)
  · intro b'
    by_cases hb' : b' = b
    · rw [hb', hB, erase_cons_head]
      exact Linked.delete (l := []) hlink hnd (fun j _ => hfwd j) (fun j _ => hback j)
    rw [h.erase_other hi hb']
    refine (h.linked b').congr (fun j _ => hfwd j) ?_
    intro j hj
    rw [hback]
    refine if_neg (fun hf => hb' ?_)
    have hm : j ∈ B b := by
      rw [hB]
      exact mem_cons_of_mem i (mem_of_first_none hf)
    exact ((h.mem b' j).mp hj).2.symm.trans ((h.mem b j).mp hm).2
  · intro b'
    rw [unlinkHead_binIndices, update_apply]
    split
    · rename_i hb'
      rw [hb', hB, erase_cons_head, hnext]
    · rename_i hb'
      rw [h.erase_other hi hb', h.head]

private def spliced (a : Allocator) (p : ℕ) (next : Option ℕ) : Allocator :=
  (a.onSlot (some p) fun m => { m with binListNext := next }).onSlot next
    fun m => { m with binListPrev := some p }

private theorem spliced_next (a : Allocator) (p : ℕ) (next : Option ℕ) (j : ℕ) :
    (a.spliced p next).binNext j = if p = j then next else a.binNext j := by
  simp only [spliced, binNext, onSlot_nodes, Option.some.injEq]
  split <;> split <;> rfl

private theorem spliced_prev (a : Allocator) (p : ℕ) (next : Option ℕ) (j : ℕ) :
    (a.spliced p next).binPrev j = if next = some j then some p else a.binPrev j := by
  simp only [spliced, binPrev, onSlot_nodes, Option.some.injEq]
  split
  · rfl
  · split <;> rfl

private theorem spliced_sameRanges (a : Allocator) (p : ℕ) (next : Option ℕ) :
    SameRanges a (a.spliced p next) := by
  refine ⟨?_, ?_, ?_, ?_, ?_, ?_, ?_, ?_, ?_⟩
  iterate 4
    · simp [spliced]
  iterate 5
    · intro j
      simp only [spliced, onSlot_nodes]
      split <;> split <;> rfl

private theorem spliced_used (a : Allocator) (p : ℕ) (next : Option ℕ) (j : ℕ) :
    ((a.spliced p next).nodes j).used = (a.nodes j).used := by
  simp only [spliced, onSlot_nodes]
  split <;> split <;> rfl

private theorem BinsOk.spliced (h : BinsOk a S B) {l r : List ℕ} (hB : B b = (l ++ [p]) ++ i :: r) :
    BinsOk (a.spliced p (first r none)) (S.erase i) (fun b => (B b).erase i) := by
  have hi : i ∈ B b := by rw [hB]; simp
  have hnd := h.nodup b
  rw [hB] at hnd
  have hlink := h.linked b
  rw [hB] at hlink
  have hil : i ∉ l ++ [p] := by
    intro hm
    exact (nodup_append.mp hnd).2.2 i hm i mem_cons_self rfl
  have herase : ((l ++ [p]) ++ i :: r).erase i = (l ++ [p]) ++ r := by
    rw [erase_append_right _ hil, erase_cons_head]
  refine h.of_erase i (spliced_sameRanges a p _).dataSize ?_ ?_ ?_
  · intro b'
    by_cases hb' : b' = b
    · rw [hb', hB, herase]
      refine hlink.delete hnd ?_ ?_
      · intro j _
        rw [spliced_next, final_concat]
        simp only [Option.some.injEq]
      · intro j _
        rw [spliced_prev, final_concat]
    · rw [h.erase_other hi hb']
      have hout : ∀ j ∈ B b', j ∉ B b := by
        intro j hj hm
        exact hb' (((h.mem b' j).mp hj).2.symm.trans ((h.mem b j).mp hm).2)
      refine (h.linked b').congr ?_ ?_
      · intro j hj
        rw [spliced_next]
        refine if_neg (fun he => hout j hj ?_)
        rw [hB, ← he]
        simp
      · intro j hj
        rw [spliced_prev]
        refine if_neg (fun hf => hout j hj ?_)
        rw [hB]
        exact mem_append_right _ (mem_cons_of_mem i (mem_of_first_none hf))
  · intro b'
    have hidx : (a.spliced p (first r none)).binIndices = a.binIndices := by
      simp [Allocator.spliced]
    rw [hidx, h.head]
    by_cases hb' : b' = b
    · rw [hb', hB, herase]
      cases l <;> rfl
    · rw [h.erase_other hi hb']
  · have hu : (a.spliced p (first r none)).usedBins = a.usedBins := by simp [Allocator.spliced]
    have ht : (a.spliced p (first r none)).usedBinsTop = a.usedBinsTop := by
      simp [Allocator.spliced]
    rw [hu, ht]
    refine h.masks.congr (fun b' => ?_)
    by_cases hb' : b' = b
    · rw [hb', hB, herase]
      simp
    · rw [h.erase_other hi hb']

private theorem remove_head (h : (a.nodes i).binListPrev = none) :
    a.removeNodeFromBin i =
      { a.unlinkHead i (a.binOf i) (a.binOf i >>> topBinsIndexShift)
          (a.binOf i &&& leafBinsIndexMask) with
        freeStorage := a.freeStorage - (a.nodes i).dataSize } := by
  simp only [removeNodeFromBin, h, unlinkHead_freeStorage]

private theorem remove_middle (h : (a.nodes i).binListPrev = some p) :
    a.removeNodeFromBin i =
      { a.spliced p (a.nodes i).binListNext with
        freeStorage := a.freeStorage - (a.nodes i).dataSize } := by
  simp only [removeNodeFromBin, h, onSlot_freeStorage, spliced]

theorem remove_sameRanges (a : Allocator) (i : ℕ) : SameRanges a (a.removeNodeFromBin i) := by
  cases hp : (a.nodes i).binListPrev with
  | none =>
    rw [remove_head hp]
    obtain ⟨h1, h2, h3, h4, h5, h6, h7, h8, h9⟩ := unlinkHead_sameRanges a i (a.binOf i)
      (a.binOf i >>> topBinsIndexShift) (a.binOf i &&& leafBinsIndexMask)
    exact ⟨h1, h2, h3, h4, h5, h6, h7, h8, h9⟩
  | some p =>
    rw [remove_middle hp]
    obtain ⟨h1, h2, h3, h4, h5, h6, h7, h8, h9⟩ := spliced_sameRanges a p (a.nodes i).binListNext
    exact ⟨h1, h2, h3, h4, h5, h6, h7, h8, h9⟩

theorem remove_used (a : Allocator) (i j : ℕ) :
    ((a.removeNodeFromBin i).nodes j).used = (a.nodes j).used := by
  cases hp : (a.nodes i).binListPrev with
  | none =>
    rw [remove_head hp]
    exact unlinkHead_used a i _ _ _ j
  | some p =>
    rw [remove_middle hp]
    exact spliced_used a p _ j

theorem remove_freeStorage (a : Allocator) (i : ℕ) :
    (a.removeNodeFromBin i).freeStorage = a.freeStorage - (a.nodes i).dataSize := by
  cases hp : (a.nodes i).binListPrev with
  | none => rw [remove_head hp]
  | some p => rw [remove_middle hp]

theorem BinsOk.remove (h : BinsOk a S B) (hi : i ∈ S) :
    BinsOk (a.removeNodeFromBin i) (S.erase i) (fun b => (B b).erase i) := by
  have hm : i ∈ B (a.binOf i) := (h.mem _ i).mpr ⟨hi, rfl⟩
  obtain ⟨l, r, hB⟩ := append_of_mem hm
  have hlink := h.linked (a.binOf i)
  rw [hB] at hlink
  obtain ⟨hprev, hnext⟩ := hlink.at_member
  obtain ⟨hsplit, hleaf⟩ := bin_split (a.binOf i)
  -- the links of a slot tell whether it heads its bin
  rcases eq_nil_or_concat l with rfl | ⟨l', p, rfl⟩
  · have hhead := h.unlinkHead hB hsplit hleaf
    have hnone : (a.nodes i).binListPrev = none := hprev
    rw [remove_head hnone]
    exact hhead.frame rfl rfl rfl (fun _ _ => rfl) (fun _ _ => rfl) (fun _ _ => rfl)
  rw [concat_eq_append] at hB hprev
  rw [final_concat] at hprev
  have hsome : (a.nodes i).binListPrev = some p := hprev
  have hmid := h.spliced hB
  rw [← hnext] at hmid
  rw [remove_middle hsome]
  exact hmid.frame rfl rfl rfl (fun _ _ => rfl) (fun _ _ => rfl) (fun _ _ => rfl)

end Allocator

end KVStash.Dram.OffsetAlloc
