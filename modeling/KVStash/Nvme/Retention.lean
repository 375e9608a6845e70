/- GID: KVStash/Nvme/Retention
   digest: The merge of the recovered entries by key, where the later place wins. -/

import KVStash.Nvme.Idempotence

set_option autoImplicit false

namespace KVStash.Nvme

open Foundation.Bytes List

/-! ## The keyed merge -/

/-- Where an entry lies, as one number: segment ids decide, then offsets. -/
def RecoveredEntry.place (e : RecoveredEntry) : ℕ :=
  e.loc.segmentID.toNat * 2 ^ 32 + e.loc.offset.toNat

theorem RecoveredEntry.keeps_iff (prev e : RecoveredEntry) : prev.keeps e = true ↔
    e.place ≤ prev.place := by
  have h1 := e.loc.offset.toNat_lt
  have h2 := prev.loc.offset.toNat_lt
  simp only [RecoveredEntry.keeps, RecoveredEntry.place, Bool.or_eq_true, Bool.and_eq_true,
    decide_eq_true_eq, UInt32.lt_iff_toNat_lt, UInt32.le_iff_toNat_le, ← UInt32.toNat_inj]
  omega

theorem RecoveredEntry.sameKey_iff (a b : RecoveredEntry) :
    a.sameKey b = true ↔ a.ns = b.ns ∧ a.key = b.key := decide_eq_true_iff

variable {merged : List RecoveredEntry}

theorem mem_mergeEntry {x e : RecoveredEntry} (h : x ∈ mergeEntry merged e) :
    x ∈ merged ∨ x = e := by
  induction merged with
  | nil => exact .inr (mem_singleton.mp h)
  | cons prev rest ih =>
    rw [mergeEntry] at h
    split at h
    · split at h
      · exact .inl h
      · rcases mem_cons.mp h with rfl | h
        · exact .inr rfl
        · exact .inl (mem_cons_of_mem _ h)
    · rcases mem_cons.mp h with rfl | h
      · exact .inl mem_cons_self
      · rcases ih h with h | h
        · exact .inl (mem_cons_of_mem _ h)
        · exact .inr h

def Covered (merged : List RecoveredEntry) (x : RecoveredEntry) : Prop :=
  ∃ r ∈ merged, r.ns = x.ns ∧ r.key = x.key ∧ x.place ≤ r.place

theorem covered_mergeEntry {x e : RecoveredEntry}
    (h : Covered merged x ∨ x = e) : Covered (mergeEntry merged e) x := by
  induction merged with
  | nil =>
    rcases h with ⟨r, hr, -⟩ | rfl
    · cases hr
    · exact ⟨x, mem_singleton_self x, rfl, rfl, le_rfl⟩
  | cons prev rest ih =>
    rw [mergeEntry]
    split
    · rename_i hsame
      obtain ⟨hns, hkey⟩ := (prev.sameKey_iff e).mp hsame
      split
      · rename_i hkeep
        rcases h with h | rfl
        · exact h
        · exact ⟨prev, mem_cons_self, hns, hkey, (prev.keeps_iff x).mp hkeep⟩
      rename_i hkeep
      have hlater : prev.place < e.place := Nat.lt_of_not_le fun hle =>
        hkeep ((prev.keeps_iff e).mpr hle)
      rcases h with ⟨r, hr, hrns, hrkey, hle⟩ | rfl
      · rcases mem_cons.mp hr with rfl | hr
        · exact ⟨e, mem_cons_self, hns.symm.trans hrns, hkey.symm.trans hrkey, by omega⟩
        · exact ⟨r, mem_cons_of_mem _ hr, hrns, hrkey, hle⟩
      · exact ⟨x, mem_cons_self, rfl, rfl, le_rfl⟩
    · rcases h with ⟨r, hr, hrns, hrkey, hle⟩ | rfl
      · rcases mem_cons.mp hr with rfl | hr
        · exact ⟨r, mem_cons_self, hrns, hrkey, hle⟩
        · obtain ⟨q, hq, hrest⟩ := ih (.inl ⟨r, hr, hrns, hrkey, hle⟩)
          exact ⟨q, mem_cons_of_mem _ hq, hrest⟩
      · obtain ⟨q, hq, hrest⟩ := ih (.inr rfl)
        exact ⟨q, mem_cons_of_mem _ hq, hrest⟩

theorem foldl_mergeEntry (es merged : List RecoveredEntry) :
    (∀ x ∈ es.foldl mergeEntry merged, x ∈ merged ∨ x ∈ es) ∧
      ∀ x, Covered merged x ∨ x ∈ es → Covered (es.foldl mergeEntry merged) x := by
  induction es generalizing merged with
  | nil => exact ⟨fun x hx => .inl hx, fun x hx => hx.elim id (by simp)⟩
  | cons e es ih =>
    obtain ⟨hsub, hcov⟩ := ih (mergeEntry merged e)
    constructor
    · intro x hx
      rcases hsub x hx with hx | hx
      · rcases mem_mergeEntry hx with hx | rfl
        · exact .inl hx
        · exact .inr mem_cons_self
      · exact .inr (mem_cons_of_mem _ hx)
    · intro x hx
      refine hcov x ?_
      rcases hx with hx | hx
      · exact .inl (covered_mergeEntry (.inl hx))
      · rcases mem_cons.mp hx with rfl | hx
        · exact .inl (covered_mergeEntry (.inr rfl))
        · exact .inr hx

/-! ## The entries of a directory -/

section Entries

variable {dg : Digests} {p : Params} {d : Dir} {id : UInt32}

theorem lt_nextSegID {ids : List UInt32} (ck : Option Ckpt) (hids : ids.Pairwise (· < ·))
    (hmax : ∀ id ∈ ids, id.toNat + 1 < 2 ^ 32) (hid : id ∈ ids) : id < nextSegID ids ck := by
  have hpast : ∀ past, ids.getLast? = some past → id.toNat ≤ past.toNat := by
    intro past hp
    obtain ⟨front, rfl⟩ := getLast?_eq_some_iff.mp hp
    rcases mem_append.mp hid with hid | hid
    · have hlt := (pairwise_append.mp hids).2.2 id hid past mem_cons_self
      exact Nat.le_of_lt (UInt32.lt_iff_toNat_lt.mp hlt)
    · rw [mem_singleton.mp hid]
  obtain ⟨last, hlast⟩ : ∃ last, ids.getLast? = some last := by
    cases hl : ids.getLast? with
    | none => rw [getLast?_eq_none_iff.mp hl] at hid; cases hid
    | some last => exact ⟨last, rfl⟩
  have hle := hpast last hlast
  have hroom := hmax last (mem_of_getLast? hlast)
  have hnext : id < last + 1 := by
    rw [UInt32.lt_iff_toNat_lt, UInt32.toNat_add]
    have : (1 : UInt32).toNat = 1 := rfl
    omega
  unfold nextSegID
  rw [hlast]
  dsimp only
  split
  · split
    · rename_i hlt
      exact UInt32.lt_trans hnext hlt
    · exact hnext
  · exact hnext

theorem recovered_or_superseded {ck : Option Ckpt} {sealOk : UInt32 → Bool} {k : Kept}
    (hids : (keptSegs dg p ck sealOk d.segs).Pairwise fun a b => a.1 < b.1)
    (hk : (id, k) ∈ keptSegs dg p ck sealOk d.segs)
    (hdistinct : ∀ a ∈ k.entries, ∀ b ∈ k.entries,
      a.ns = b.ns → a.key = b.key → a.off = b.off → a = b)
    {e : FooterEntry} (he : e ∈ k.entries) :
    let merged := (keptEntries (keptSegs dg p ck sealOk d.segs)).foldl mergeEntry []
    e.recovered id ∈ merged ∨
      ∃ r ∈ merged, r.ns = e.ns ∧ r.key = e.key ∧ (e.recovered id).place < r.place := by
  intro merged
  obtain ⟨hsub, hcov⟩ := foldl_mergeEntry (keptEntries (keptSegs dg p ck sealOk d.segs)) []
  have hin : e.recovered id ∈ keptEntries (keptSegs dg p ck sealOk d.segs) :=
    mem_flatMap.mpr ⟨(id, k), hk, mem_map_of_mem he⟩
  obtain ⟨r, hr, hns, hkey, hle⟩ := hcov _ (.inr hin)
  rcases Nat.lt_or_ge (e.recovered id).place r.place with hlt | hge
  · exact .inr ⟨r, hr, hns, hkey, hlt⟩
  left
  -- two entries in one place come from one segment, and there they are the same
  rcases hsub r hr with h | h
  · cases h
  obtain ⟨⟨i, l⟩, hl, hrl⟩ := mem_flatMap.mp h
  obtain ⟨a, ha, hra⟩ := mem_map.mp hrl
  dsimp only at ha hra
  subst hra
  have hplace : (a.recovered i).place = (e.recovered id).place := by omega
  have h1 := a.off.toNat_lt
  have h2 := e.off.toNat_lt
  simp only [RecoveredEntry.place, FooterEntry.recovered] at hplace
  have hid : i = id := by
    rw [← UInt32.toNat_inj]
    omega
  subst hid
  have hoff : a.off = e.off := by
    rw [← UInt32.toNat_inj]
    omega
  obtain rfl := ascending_unique hids hk hl
  obtain rfl := hdistinct a ha e he hns hkey hoff
  exact hr

end Entries

end KVStash.Nvme
