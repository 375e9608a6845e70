/- GID: KVStash/Tiered/ExtentSafety
   digest: Blocks in use never share arena bytes, and each extent goes back once, after its last
     holder. -/

import KVStash.Tiered.Frames

set_option autoImplicit false

namespace KVStash.Tiered.ExtentSafety

open Dram.Tier (AllocUnit Extent Resident area bytes)
open Dram
open Foundation.Run Foundation.Threads Foundation.Resource
open Tiered.System Tiered.Logic Tiered.Node Tiered.Frames

variable {p : Params} {q : NodePool}

/-- Blocks in use lie inside the arena and have their bytes for themselves. -/
theorem referred_apart (h : (logic p noAudit).Ok q) {i j : ℕ} (hi : i < q.shared.dram.next)
    (hj : j < q.shared.dram.next) (hij : i ≠ j) (hri : 0 < (q.shared.dram.cells i).refcount)
    (hrj : 0 < (q.shared.dram.cells j).refcount) :
    Disjoint (bytes (q.shared.dram.cells i).ref) (bytes (q.shared.dram.cells j).ref) := by
  obtain ⟨m, hm, -⟩ := h.inv
  by_cases hli : (q.shared.dram.cells i).ref.len = 0
  · rw [Tier.bytes_eq_empty hli]
    exact Set.empty_disjoint _
  by_cases hlj : (q.shared.dram.cells j).ref.len = 0
  · rw [Tier.bytes_eq_empty hlj]
    exact Set.disjoint_empty _
  · exact (Tier.area_disjoint (Tier.referred_disjoint hm hi hj hij hri hrj hli hlj)).mono
      (Tier.bytes_subset_area _) (Tier.bytes_subset_area _)

theorem referred_inArena (h : (logic p noAudit).Ok q) {i : ℕ} (hi : i < q.shared.dram.next)
    (hri : 0 < (q.shared.dram.cells i).refcount) :
    bytes (q.shared.dram.cells i).ref ⊆ Set.Iio (p.dram.units * AllocUnit) := by
  obtain ⟨m, hm, -⟩ := h.inv
  by_cases hli : (q.shared.dram.cells i).ref.len = 0
  · rw [Tier.bytes_eq_empty hli]
    exact Set.empty_subset _
  intro b hb
  have hin := (hm.inArena _ (Tier.referred_mem hm hi hri hli)).2
  refine lt_of_lt_of_le (Tier.bytes_subset_area _ hb).2 ?_
  exact Nat.mul_le_mul_right _ hin

/-- Whoever returns an extent returns a live one, and no block in use has a byte of it. -/
theorem freed_unused (h : (logic p noAudit).Ok q) {i : ℕ} {e : Extent}
    (he : q.AtAction i (.dram (.free e))) :
    q.shared.dram.extents.count e = 1 ∧ ∀ c < q.shared.dram.next,
      ¬ Disjoint (area e) (bytes (q.shared.dram.cells c).ref) →
        (q.shared.dram.cells c).refcount = 0 ∧ ¬ Resident q.shared.dram c := by
  obtain ⟨m, ⟨hi, -⟩, hn⟩ := needs_of_ok h he
  obtain ⟨hmem, hapart⟩ := Tier.freed_apart hi hn
  refine ⟨List.count_eq_one_of_mem (Tier.extents_nodup hi) hmem, fun c hc hdis => ?_⟩
  have hidle : (q.shared.dram.cells c).refcount = 0 := by
    by_contra hrc
    apply hdis
    by_cases hlc : (q.shared.dram.cells c).ref.len = 0
    · rw [Tier.bytes_eq_empty hlc]
      exact Set.disjoint_empty _
    · exact (Tier.area_disjoint (hapart c hc (Nat.pos_of_ne_zero hrc) hlc)).mono_right
        (Tier.bytes_subset_area _)
  exact ⟨hidle, fun hres => Nat.ne_of_gt (Tier.resident_referred hi hc hres) hidle⟩

/-- A reference that is about to be given back is still counted. -/
theorem holder_counted (h : (logic p noAudit).Ok q) {i : ℕ} {r : Tier.BlockRef}
    (hr : q.AtAction i (.dram (.release r))) : 0 < (q.shared.dram.cells r.id).refcount := by
  obtain ⟨m, ⟨hi, -⟩, hn⟩ := needs_of_ok h hr
  have hold : .hold r ∈ m.1 := hn
  rw [hi.counted r (hi.minted r (.inr (.inl hold)))]
  have := Multiset.count_pos.mpr hold
  omega

/-- A write goes to an extent of no block, so the bytes of a resident block stay. -/
theorem view_kept {a : Tier.Audit} {s s' : State} {m : Logic.Own} {x : Act} {y : x.Resp} {env : ℕ}
    {k : Tier.Key} {r : Tier.BlockRef} (hinv : Inv p a s m) (hneeds : Needs x m)
    (hx : exec p x env s = some (y, s')) (hi : s.dram.index k = some r) :
    s'.dram.view r.offset r.len = s.dram.view r.offset r.len := by
  rcases node_arena_cases hx with ha | ⟨o, d, rfl, hw⟩
  · unfold Tier.Store.view
    rw [ha]
  obtain ⟨hd, -⟩ := hinv
  have hmint := (hd.indexed k r hi).1
  have hkey := (hd.indexed k r hi).2
  have hres : Resident s.dram r.id := by
    unfold Resident
    rw [hmint.2, hkey, hi]
  have hapart := (Tier.freed_apart hd (.inl hneeds)).2 r.id hmint.1
    (Tier.resident_referred hd hmint.1 hres)
  rw [hmint.2] at hapart
  rw [hw]
  apply List.map_congr_left
  intro b hb
  rw [List.mem_range] at hb
  have hbyte : r.offset * AllocUnit + b ∈ area r.extent :=
    Tier.bytes_subset_area r ⟨Nat.le_add_right .., Nat.add_lt_add_left hb _⟩
  have hdis := Set.disjoint_left.mp (Tier.area_disjoint (hapart (by omega)))
  change (if h : _ then _ else _) = _
  rw [dif_neg]
  rintro ⟨hle, hlt⟩
  apply hdis _ hbyte
  refine ⟨hle, ?_⟩
  dsimp only [Tier.bytesToUnits, AllocUnit] at hle hlt ⊢
  omega

/-- In every state that any interleaving of calls reaches: blocks in use lie inside
the arena and share no byte; an extent about to be returned is live exactly once, and
every block with bytes in it has left the index and has no holder; holders are
counted; and once nothing is in progress the live extents are those of the blocks in
the index. -/
theorem extents_safe {v : Recovery} (hv : v.Sound) {now : ℕ} {es : List (Event Call)}
    (hr : run (system p).next (Pool.start (v.start now)) es = some q) :
    (∀ i < q.shared.dram.next, 0 < (q.shared.dram.cells i).refcount →
      bytes (q.shared.dram.cells i).ref ⊆ Set.Iio (p.dram.units * AllocUnit) ∧
      ∀ j < q.shared.dram.next, i ≠ j → 0 < (q.shared.dram.cells j).refcount →
        Disjoint (bytes (q.shared.dram.cells i).ref) (bytes (q.shared.dram.cells j).ref)) ∧
    (∀ i e, q.AtAction i (.dram (.free e)) → q.shared.dram.extents.count e = 1 ∧
      ∀ c < q.shared.dram.next, ¬ Disjoint (area e) (bytes (q.shared.dram.cells c).ref) →
        (q.shared.dram.cells c).refcount = 0 ∧ ¬ Resident q.shared.dram c) ∧
    (∀ i r, q.AtAction i (.dram (.release r)) → 0 < (q.shared.dram.cells r.id).refcount) ∧
    (Quiet q → q.shared.dram.extents.Nodup ∧ ∀ e, e ∈ q.shared.dram.extents ↔
      ∃ k r, q.shared.dram.index k = some r ∧ r.len ≠ 0 ∧ r.extent = e) := by
  have h := ok_of_run hv hr
  refine ⟨fun i hi hri => ⟨referred_inArena h hi hri, fun j hj hij hrj => ?_⟩,
    fun i e he => freed_unused h he, fun i r hr => holder_counted h hr, fun hq => ?_⟩
  · exact referred_apart h hi hj hij hri hrj
  · have hidle := (h.quiet hq).1
    exact ⟨Tier.extents_nodup hidle, Tier.mem_extents_of_idle hidle⟩

/-- A block is put, read and released, and another is put and deleted while a reader
holds it. -/
def twoBlocks : List (Event Call) :=
  .spawn (.dramPut ⟨0, 7⟩ [1, 2] 11) :: take 0 [0, 1, 0, 0, 0, 0] ++
  .spawn (.dramPut ⟨0, 8⟩ [3] 12) :: take 1 [0, 2, 0, 0, 0, 0] ++
  .spawn (.dramGetRef ⟨0, 8⟩) :: take 2 [0, 0, 0, 0, 0, 0, 0, 0] ++
  .spawn (.dramDelete ⟨0, 8⟩ true) :: take 3 [0, 0, 0, 0, 0] ++ take 2 [0, 0]

theorem extents_safe_twoBlocks : ∃ q r,
    after small twoBlocks = some q ∧ Quiet q ∧
      q.shared.dram.index ⟨0, 7⟩ = some r ∧ r.extent ∈ q.shared.dram.extents := by
  have hrun : ∃ q ∈ after small twoBlocks,
      Quiet q ∧ ∃ r ∈ q.shared.dram.index ⟨0, 7⟩, r.len = 2 := by
    decide +kernel
  obtain ⟨q, hq, hquiet, r, hr, hlen⟩ := hrun
  refine ⟨q, r, hq, hquiet, hr, ?_⟩
  apply ((extents_safe Recovery.empty_sound hq).2.2.2 hquiet).2 r.extent |>.mpr
  exact ⟨_, r, hr, by omega, rfl⟩

end KVStash.Tiered.ExtentSafety
