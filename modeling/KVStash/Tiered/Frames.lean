/- GID: KVStash/Tiered/Frames
   digest: What one atomic step of a node can do to the entries of a key and to its segment. -/

import KVStash.Tiered.Logic.Node

set_option autoImplicit false

namespace KVStash.Tiered.Frames

open Protocol Dram Tiered.Node Function
open Dram.Tier (BlockRef Key Store)
open Tiered.Disk (Loc NvmeRef Tiers)

/-! ### The DRAM tier -/

section Dram

variable {p : Tier.Params} {d d' : Store} {env : ℕ}

/-- What one step of the DRAM tier can do: insert a block where none was, take the lock of
a block that passes a gate, remove a block, change its pins or the other fields of a cell,
write to the arena, or nothing of these. -/
inductive DramStep (p : Tier.Params) (d : Store) : Tier.Act → Store → Prop
  | insert (k : Key) (offset len xxh3 : ℕ) (hl : d.locked k = false) (hn : d.index k = none) :
    DramStep p d (.insert k offset len xxh3) { d with
      index := update d.index k (some ⟨d.next, k, offset, len, xxh3⟩)
      cells := update d.cells d.next
        { Tier.emptyCell with ref := ⟨d.next, k, offset, len, xxh3⟩, refcount := 1 }
      next := d.next + 1 }
  | gate (k : Key) (g : Tier.Gate) (b : BlockRef) (hb : d.index k = some b)
    (hok : g.check (d.cells b.id) d.now = .ok) (s : Store) (hs : s = d ∨ s = d.unpin b) :
    DramStep p d (.gate k g) { s with locked := update s.locked k true }
  | remove (k : Key) : DramStep p d (.remove k) { d with
      index := update d.index k none, locked := update d.locked k false }
  | pinOp (k : Key) (sub : PinSub) : DramStep p d (.pinOp k sub) (d.pinOp p k sub).2
  | cell (x : Tier.Act) (b : BlockRef) (f : Tier.Cell → Tier.Cell)
    (hpin : ∀ c, (f c).pinFlags = c.pinFlags)
    (hlease : (∀ c, (f c).leaseUntil = c.leaseUntil) ∨
      (∃ u, x = .extendLease b u ∧ ∀ c, c.leaseUntil ≤ (f c).leaseUntil) ∨
      x = .releaseLease b ∧ ∀ c, (f c).leaseUntil ≤ c.leaseUntil) :
    DramStep p d x (d.onCell b f)
  | write (offset : ℕ) (data : List UInt8) :
    DramStep p d (.write offset data) (d.write offset data)
  | other (x : Tier.Act) (d' : Store) (hi : d'.index = d.index) (hl : d'.locked = d.locked)
    (hc : d'.cells = d.cells) (ha : d'.arena = d.arena) (hn : d.now ≤ d'.now) : DramStep p d x d'

private theorem DramStep.refl (x : Tier.Act) : DramStep p d x d :=
  .other x d rfl rfl rfl rfl (le_refl _)

variable {x : Tier.Act} {r : x.Resp}

theorem dram_step (h : Tier.exec p x env d = some (r, d')) : DramStep p d x d' := by
  cases x with
  | insert k offset len xxh3 =>
    unfold Tier.exec at h
    dsimp only at h
    split at h
    · cases h
    next hlock =>
    split at h
    · cases h
      exact .refl _
    · next hnone =>
      cases h
      exact .insert k offset len xxh3 (by simpa using hlock) hnone
  | gate k g =>
    unfold Tier.exec at h
    dsimp only at h
    split at h
    · cases h
    split at h
    · cases h
      exact .refl _
    next b hb =>
    split at h
    · next hok =>
      cases h
      refine .gate k g b hb hok _ ?_
      cases g with
      | demote y => exact .inl rfl
      | _ => exact .inr rfl
    · cases h
      exact .refl _
  | remove k =>
    cases h
    exact .remove k
  | pinOp k sub =>
    unfold Tier.exec at h
    dsimp only at h
    split at h
    · cases h
    · have hd : (d.pinOp p k sub).2 = d' := congrArg Prod.snd (Option.some.inj h)
      exact hd ▸ .pinOp k sub
  | acquire b | release b =>
    unfold Tier.exec at h
    dsimp only at h
    split at h <;> cases h
    · exact .refl _
    · exact .cell _ b _ (fun _ => rfl) (.inl fun _ => rfl)
  | extendLease b u =>
    cases h
    exact .cell _ b _ (fun _ => rfl) (.inr (.inl ⟨u, rfl, fun _ => Nat.le_max_left ..⟩))
  | releaseLease b =>
    cases h
    exact .cell _ b _ (fun _ => rfl) (.inr (.inr ⟨rfl, fun _ => Nat.zero_le _⟩))
  | touch b n ttl | hit b =>
    cases h
    exact .cell _ b _ (fun _ => rfl) (.inl fun _ => rfl)
  | get k =>
    unfold Tier.exec at h
    dsimp only at h
    split at h <;> cases h
    exact .refl _
  | alloc n =>
    unfold Tier.exec at h
    dsimp only at h
    repeat' split at h
    all_goals cases h <;> exact .other _ _ rfl rfl rfl rfl (le_refl _)
  | write offset data =>
    cases h
    exact .write offset data
  | charge ns n =>
    have hd : (d.charge p ns n).2 = d' := congrArg Prod.snd (Option.some.inj h)
    rw [← hd]
    unfold Store.charge
    split
    · exact .refl _
    · exact .other _ _ rfl rfl rfl rfl (le_refl _)
  | free _ | refund _ _ =>
    cases h
    exact .other _ _ rfl rfl rfl rfl (le_refl _)
  | advance n =>
    cases h
    exact .other _ _ rfl rfl rfl rfl (Nat.le_add_right ..)
  | now | hits _ | view _ _ =>
    cases h
    exact .refl _

theorem unpin_now {b : BlockRef} : (d.unpin b).now = d.now := by
  unfold Store.unpin
  split <;> rfl

private theorem unpin_arena {b : BlockRef} : (d.unpin b).arena = d.arena := by
  unfold Store.unpin
  split <;> rfl

theorem pinOp_frame (p : Tier.Params) (d : Store) (k : Key) (sub : PinSub) :
    (d.pinOp p k sub).2.index = d.index ∧ (d.pinOp p k sub).2.locked = d.locked ∧
      (d.pinOp p k sub).2.now = d.now ∧ (d.pinOp p k sub).2.arena = d.arena := by
  unfold Store.pinOp
  split
  · exact ⟨rfl, rfl, rfl, rfl⟩
  unfold Store.pin
  cases sub with
  | unpin => exact ⟨Tier.unpin_index, Tier.unpin_locked, unpin_now, unpin_arena⟩
  | pinSoft =>
    dsimp only
    rw [if_neg Bool.false_ne_true]
    split <;> exact ⟨rfl, rfl, rfl, rfl⟩
  | pinHard =>
    dsimp only
    rw [if_pos rfl]
    split
    · exact ⟨rfl, rfl, rfl, rfl⟩
    · split <;> exact ⟨rfl, rfl, rfl, rfl⟩
  | other => exact ⟨rfl, rfl, rfl, rfl⟩

theorem dram_index_cases (k : Key) (h : Tier.exec p x env d = some (r, d')) :
    d'.index k = d.index k ∨
    (∃ offset len xxh3, x = .insert k offset len xxh3 ∧ d.locked k = false ∧ d.index k = none ∧
      d'.index k = some ⟨d.next, k, offset, len, xxh3⟩) ∨
    (x = .remove k ∧ d'.index k = none) := by
  cases dram_step h with
  | insert k' offset len xxh3 hl hn =>
    by_cases hk : k = k'
    · subst hk
      exact .inr (.inl ⟨offset, len, xxh3, rfl, hl, hn, update_self ..⟩)
    · exact .inl (update_of_ne hk ..)
  | gate k' g b hb hok s hs =>
    left
    rcases hs with rfl | rfl
    · rfl
    · exact congrFun Tier.unpin_index k
  | remove k' =>
    by_cases hk : k = k'
    · subst hk
      exact .inr (.inr ⟨rfl, update_self ..⟩)
    · exact .inl (update_of_ne hk ..)
  | pinOp k' sub => exact .inl (congrFun (pinOp_frame p d k' sub).1 k)
  | other x d' hi => exact .inl (congrFun hi k)
  | _ => exact .inl rfl

theorem dram_now_le (h : Tier.exec p x env d = some (r, d')) : d.now ≤ d'.now := by
  cases dram_step h with
  | gate k g b hb hok s hs =>
    rcases hs with rfl | rfl
    · exact le_refl _
    · exact le_of_eq unpin_now.symm
  | pinOp k sub => exact le_of_eq (pinOp_frame p d k sub).2.2.1.symm
  | other x d' hi hl hc ha hn => exact hn
  | _ => exact le_refl _

theorem dram_arena_cases (h : Tier.exec p x env d = some (r, d')) :
    d'.arena = d.arena ∨ ∃ offset data, x = .write offset data ∧ d' = d.write offset data := by
  cases dram_step h with
  | gate k g b hb hok s hs =>
    left
    rcases hs with rfl | rfl
    · rfl
    · exact unpin_arena
  | pinOp k sub => exact .inl (pinOp_frame p d k sub).2.2.2
  | write offset data => exact .inr ⟨offset, data, rfl, rfl⟩
  | other x d' hi hl hc ha => exact .inl ha
  | _ => exact .inl rfl

theorem check_hard {c : Tier.Cell} (hh : c.hardPinned = true) (g : Tier.Gate) (now : ℕ) :
    g.check c now ≠ .ok := by
  have hp : c.pinned = true := by
    unfold Tier.Cell.hardPinned at hh
    unfold Tier.Cell.pinned
    rw [of_decide_eq_true hh]
    rfl
  cases g with
  | delete force =>
    unfold Tier.Gate.check Tier.canDelete
    dsimp only
    rw [if_pos hh]
    exact Status.noConfusion
  | evict emergency => simp [Tier.Gate.check, Tier.Cell.canEvict, hp, hh]
  | demote y => simp [Tier.Gate.check, Tier.Cell.canEvict, hp]

/-- What one step of the DRAM tier can do to the cell of a block: set its pins, by a PIN verb
or a gate that it passes, or change it without touching them. -/
inductive BlockStep (d : Store) (i : ℕ) : Tier.Act → Tier.Cell → Prop
  | pin (k : Key) (sub : PinSub) (b : BlockRef) (hb : d.index k = some b) (hi : b.id = i)
      (f : Tier.PinFlags)
    (hf : sub = .unpin ∧ f = .none ∨ sub = .pinSoft ∧ f = .soft ∨ sub = .pinHard ∧ f = .hard) :
    BlockStep d i (.pinOp k sub) { d.cells i with pinFlags := f }
  | gate (k : Key) (g : Tier.Gate) (hok : g.check (d.cells i) d.now = .ok) :
    BlockStep d i (.gate k g) { d.cells i with pinFlags := .none }
  | other (x : Tier.Act) (c : Tier.Cell) (hpin : c.pinFlags = (d.cells i).pinFlags)
    (hlease : c.leaseUntil = (d.cells i).leaseUntil ∨
      (∃ b u, x = .extendLease b u ∧ b.id = i ∧ (d.cells i).leaseUntil ≤ c.leaseUntil) ∨
      ∃ b, x = .releaseLease b ∧ b.id = i ∧ c.leaseUntil ≤ (d.cells i).leaseUntil) :
        BlockStep d i x c

theorem dram_block_step (h : Tier.exec p x env d = some (r, d')) {i : ℕ} (hi : i < d.next) :
    BlockStep d i x (d'.cells i) := by
  have hsame : BlockStep d i x (d.cells i) := .other x _ rfl (.inl rfl)
  have hon : ∀ {s : Store} {b : BlockRef} (f : Tier.Cell → Tier.Cell), s.cells = d.cells →
      (b.id = i → BlockStep d i x (f (d.cells i))) → BlockStep d i x ((s.onCell b f).cells i) := by
    intro s b f hs hf
    change BlockStep d i x (update s.cells b.id _ i)
    by_cases hb : b.id = i
    · rw [hb, update_self, hs]
      exact hf hb
    · rw [update_of_ne (Ne.symm hb), hs]
      exact hsame
  have hpin : ∀ (s : Store) (b : BlockRef) (f : Tier.PinFlags), s.cells = d.cells →
      (b.id = i → BlockStep d i x { d.cells i with pinFlags := f }) →
      BlockStep d i x ((s.onCell b fun c => { c with pinFlags := f }).cells i) :=
    fun _ _ f => hon fun c => { c with pinFlags := f }
  cases dram_step h with
  | insert k offset len xxh3 =>
    change BlockStep d i _ (update d.cells d.next _ i)
    rw [update_of_ne (Nat.ne_of_lt hi)]
    exact hsame
  | gate k g b hb hok s hs =>
    rcases hs with rfl | rfl
    · exact hsame
    · refine hpin _ b .none ?_ fun hb => .gate k _ (hb ▸ hok)
      split <;> rfl
  | pinOp k sub =>
    unfold Store.pinOp
    cases hk : d.index k with
    | none => exact hsame
    | some b =>
      cases sub with
      | unpin =>
        refine hpin _ b .none ?_ fun hb => .pin k _ b hk hb _ (.inl ⟨rfl, rfl⟩)
        split <;> rfl
      | pinSoft =>
        unfold Store.pin
        dsimp only
        rw [if_neg Bool.false_ne_true]
        have hsoft :
            b.id = i → BlockStep d i (.pinOp k .pinSoft) { d.cells i with pinFlags := .soft } :=
          fun hb => .pin k _ b hk hb _ (.inr (.inl ⟨rfl, rfl⟩))
        split
        · exact hpin (d.refundPin b) b .soft rfl hsoft
        · exact hpin d b .soft rfl hsoft
      | pinHard =>
        have hhard :
            b.id = i → BlockStep d i (.pinOp k .pinHard) { d.cells i with pinFlags := .hard } :=
          fun hb => .pin k _ b hk hb _ (.inr (.inr ⟨rfl, rfl⟩))
        unfold Store.pin
        dsimp only
        rw [if_pos rfl]
        split
        · exact hpin d b .hard rfl hhard
        split
        · exact hsame
        · exact hpin _ b .hard rfl hhard
      | other => exact hsame
  | cell x b f hp hl =>
    refine hon f rfl fun hb => .other x _ (hp _) ?_
    rcases hl with heq | ⟨u, hx, hle⟩ | ⟨hx, hle⟩
    · exact .inl (heq _)
    · exact .inr (.inl ⟨b, u, hx, hb, hle _⟩)
    · exact .inr (.inr ⟨b, hx, hb, hle _⟩)
  | other x d' _ _ hc =>
    rw [hc]
    exact hsame
  | _ => exact hsame

end Dram

/-! ### The NVMe index and the segments -/

section Disk

variable {t t' : Tiers} {now env : ℕ} (k : Key)

/-- The closures on the NVMe index. -/
private def isClosure : Disk.Act → Bool
  | .leaseRead .. | .touchLease .. | .setPin .. | .flipRetired .. | .flipRestored .. => true
  | _ => false

variable {x : Disk.Act} {r : x.Resp}

private theorem closure_frame (hx : isClosure x = true) (h : Disk.exec now x env t = some (r, t')) :
    t'.index = t.index ∧ t'.segs = t.segs ∧ t'.log = t.log := by
  cases x with
  | leaseRead k e now' until_ =>
    have ht : (t.leaseRead k e now' until_).2 = t' := congrArg Prod.snd (Option.some.inj h)
    rw [← ht]
    unfold Tiers.leaseRead
    split <;> exact ⟨rfl, rfl, rfl⟩
  | touchLease k sub ttl until_ =>
    have ht : (t.touchLease k sub ttl until_).2 = t' := congrArg Prod.snd (Option.some.inj h)
    rw [← ht]
    unfold Tiers.touchLease
    split
    · exact ⟨rfl, rfl, rfl⟩
    cases sub with
    | touchRecency =>
      dsimp only
      split <;> exact ⟨rfl, rfl, rfl⟩
    | _ => exact ⟨rfl, rfl, rfl⟩
  | setPin k f =>
    have ht : (t.setPin k f).2 = t' := congrArg Prod.snd (Option.some.inj h)
    rw [← ht]
    unfold Tiers.setPin
    split <;> exact ⟨rfl, rfl, rfl⟩
  | flipRetired k id =>
    have ht : (t.flipRetired k id now).2 = t' := congrArg Prod.snd (Option.some.inj h)
    rw [← ht]
    unfold Tiers.flipRetired
    split
    · exact ⟨rfl, rfl, rfl⟩
    dsimp only
    split
    · exact ⟨rfl, rfl, rfl⟩
    · split <;> exact ⟨rfl, rfl, rfl⟩
  | flipRestored k id =>
    have ht : t.flipRestored k id = t' := congrArg Prod.snd (Option.some.inj h)
    rw [← ht]
    unfold Tiers.flipRestored
    split
    · exact ⟨rfl, rfl, rfl⟩
    · split <;> exact ⟨rfl, rfl, rfl⟩
  | _ => cases hx

theorem disk_index_cases (h : Disk.exec now x env t = some (r, t')) :
    t'.index k = t.index k ∨
    (∃ g e, x = .deleteIf k g ∧ t.index k = some e ∧ g.check e (t.cells e.id) now = .ok ∧
      t'.index k = none) := by
  cases x with
  | deleteIf k' g =>
    unfold Disk.exec at h
    dsimp only at h
    split at h
    · cases h
      exact .inl rfl
    next e he =>
    split at h
    · next hok =>
      cases h
      by_cases hk : k = k'
      · subst hk
        exact .inr ⟨g, e, rfl, he, hok, update_self ..⟩
      · exact .inl (update_of_ne hk ..)
    · cases h
      exact .inl rfl
  | leaseRead _ _ _ _ | touchLease _ _ _ _ | setPin _ _ | flipRetired _ _ | flipRestored _ _ =>
    left
    exact congrFun (closure_frame rfl h).1 k
  | read _ _ _ | readRange _ | append _ _ _ | sealActive | openActive | retireBegin _
  | retireFinish _
  | adoptSegment _ | latch _ | upload _ | drop _ | gcSend _ | gcReceive =>
    left
    unfold Disk.exec at h
    dsimp only at h
    repeat' split at h
    all_goals cases h <;> rfl
  | _ =>
    cases h
    exact .inl rfl

/-- What a step can do to a segment that has its id. -/
inductive SegStep (x : Disk.Act) (id : ℕ) : Option Disk.Segment → Option Disk.Segment → Prop
  | keep (o : Option Disk.Segment) : SegStep x id o o
  | sealed (g : Disk.Segment) : SegStep x id (some g) (some { g with isSealed := true })
  | spill (g : Disk.Segment) : SegStep x id (some g) (some { g with spilled := true })
  | abort (g : Disk.Segment) : SegStep x id (some g) (some { g with dying := false })
  | begin (g : Disk.Segment) (hx : x = .retireBegin id) :
    SegStep x id (some g) (some { g with dying := true })
  | finish (g : Disk.Segment) (hd : g.dying = true) : SegStep x id (some g) none
  | adopt : SegStep x id none (some ⟨true, true, false⟩)

private theorem SegStep.onSeg {id id' : ℕ} {f : Disk.Segment → Disk.Segment}
    (hf : id = id' → ∀ g, SegStep x id (some g) (some (f g))) :
    SegStep x id (t.segs id) ((t.onSeg id' f).segs id) := by
  by_cases hi : id = id'
  · subst hi
    rw [show (t.onSeg id f).segs id = (t.segs id).map f from update_self ..]
    cases t.segs id with
    | none => exact .keep none
    | some g => exact hf rfl g
  · rw [show (t.onSeg id' f).segs id = t.segs id from update_of_ne hi ..]
    exact .keep _

private theorem SegStep.update {id id' : ℕ} {o : Option Disk.Segment}
    (ho : id = id' → SegStep x id (t.segs id) o) :
    SegStep x id (t.segs id) (update t.segs id' o id) := by
  by_cases hi : id = id'
  · subst hi
    rw [update_self]
    exact ho rfl
  · rw [update_of_ne hi]
    exact .keep _

theorem segs_cases (h : Disk.exec now x env t = some (r, t')) {id : ℕ}
    (hid : id < t.nextSeg) : SegStep x id (t.segs id) (t'.segs id) := by
  cases x with
  | markSpilled id' =>
    cases h
    exact .onSeg fun _ => .spill
  | retireAbort id' =>
    cases h
    exact .onSeg fun _ => .abort
  | leaseRead _ _ _ _ | touchLease _ _ _ _ | setPin _ _ | flipRetired _ _ | flipRestored _ _ =>
    rw [congrFun (closure_frame rfl h).2.1 id]
    exact .keep _
  | sealActive =>
    unfold Disk.exec at h
    dsimp only at h
    repeat' split at h
    all_goals cases h
    · exact .onSeg fun _ => .sealed
    · exact .keep _
    · exact .keep _
  | retireBegin id' =>
    unfold Disk.exec at h
    dsimp only at h
    repeat' split at h
    all_goals cases h
    · exact .keep _
    · exact .onSeg fun hi g => .begin g (by rw [hi])
    · exact .keep _
  | retireFinish id' =>
    unfold Disk.exec at h
    dsimp only at h
    split at h
    · cases h
      exact .keep _
    next g hg =>
    split at h
    · next hd =>
      cases h
      exact .update fun hi => by
        rw [hi, hg]
        exact .finish g hd
    · cases h
      exact .keep _
  | adoptSegment id' =>
    unfold Disk.exec at h
    dsimp only at h
    split at h
    · next hnone =>
      split at h
      · cases h
        exact .update fun hi => by
          rw [hi, hnone]
          exact .adopt
      · cases h
        exact .keep _
    · cases h
      exact .keep _
  | openActive =>
    unfold Disk.exec at h
    dsimp only at h
    split at h
    · cases h
      exact .update fun hi => absurd hi (Nat.ne_of_lt hid)
    · cases h
      exact .keep _
  | deleteIf _ _ | read _ _ _ | readRange _ | append _ _ _ | latch _ | upload _ | drop _ | gcSend _
  | gcReceive =>
    unfold Disk.exec at h
    dsimp only at h
    repeat' split at h
    all_goals cases h <;> exact .keep _
  | _ =>
    cases h
    exact .keep _

theorem disk_log_cases (h : Disk.exec now x env t = some (r, t')) :
    t'.log = t.log ∨ ∃ k z data id, x = .append k z data ∧
      t'.log = update t.log id (t.log id ++ [⟨k, z, data⟩]) := by
  cases x with
  | append k z data =>
    unfold Disk.exec at h
    dsimp only at h
    split at h
    · next id hid =>
      cases h
      exact .inr ⟨k, z, data, id, rfl, rfl⟩
    · cases h
      exact .inl rfl
    · cases h
      exact .inl rfl
  | leaseRead _ _ _ _ | touchLease _ _ _ _ | setPin _ _ | flipRetired _ _ | flipRestored _ _ =>
    left
    exact (closure_frame rfl h).2.2
  | deleteIf _ _ | read _ _ _ | readRange _ | sealActive | openActive | retireBegin _
  | retireFinish _ | adoptSegment _ | latch _ | upload _ | drop _ | gcSend _ | gcReceive =>
    left
    unfold Disk.exec at h
    dsimp only at h
    repeat' split at h
    all_goals cases h <;> rfl
  | _ =>
    cases h
    exact .inl rfl

end Disk

/-! ### Steps of a node -/

section Node

variable {p : Params} {s s' : State} {x : Act} {env : ℕ} {r : x.Resp} (k : Key)

theorem node_dram_cases (h : exec p x env s = some (r, s')) :
    (∃ y r', x = .dram y ∧ Tier.exec p.dram y env s.dram = some (r', s'.dram)) ∨
      ∃ used, s'.dram = { s.dram with used := used } := by
  cases x with
  | dram y =>
    obtain ⟨d', hy, rfl⟩ := exec_dram h
    exact .inl ⟨y, r, rfl, hy⟩
  | disk y =>
    obtain ⟨t', -, rfl⟩ := exec_disk h
    exact .inr ⟨s.dram.used, rfl⟩
  | publish k' r' loc z =>
    cases h
    exact .inr ⟨_, rfl⟩
  | answer z =>
    cases h
    exact .inr ⟨s.dram.used, rfl⟩

theorem node_dram_index_cases (h : exec p x env s = some (r, s')) :
    s'.dram.index k = s.dram.index k ∨
    (∃ offset len xxh3, x = .dram (.insert k offset len xxh3) ∧ s.dram.locked k = false ∧
      s.dram.index k = none ∧ s'.dram.index k = some ⟨s.dram.next, k, offset, len, xxh3⟩) ∨
    (x = .dram (.remove k) ∧ s'.dram.index k = none) := by
  rcases node_dram_cases h with ⟨y, r', rfl, hy⟩ | ⟨used, hd⟩
  · rcases dram_index_cases k hy with hi | ⟨o, l, z, rfl, hi⟩ | ⟨rfl, hi⟩
    · exact .inl hi
    · exact .inr (.inl ⟨o, l, z, rfl, hi⟩)
    · exact .inr (.inr ⟨rfl, hi⟩)
  · left
    rw [hd]

/-- The lock of a key is taken by a gate that the key's block passes, and freed by a
removal. -/
theorem node_locked_cases (h : exec p x env s = some (r, s')) :
    s'.dram.locked k = s.dram.locked k ∨
    (∃ g b, x = .dram (.gate k g) ∧ s.dram.index k = some b ∧
      g.check (s.dram.cells b.id) s.dram.now = .ok) ∨ x = .dram (.remove k) := by
  rcases node_dram_cases h with ⟨y, r', rfl, hy⟩ | ⟨used, hd⟩
  · have hstep := dram_step hy
    generalize s'.dram = d' at hstep
    cases hstep with
    | gate k' g b hb hok s₁ hs =>
      by_cases hk : k = k'
      · subst hk
        exact .inr (.inl ⟨g, b, rfl, hb, hok⟩)
      left
      refine (update_of_ne hk ..).trans ?_
      rcases hs with rfl | rfl
      · rfl
      · exact congrFun Tier.unpin_locked k
    | remove k' =>
      by_cases hk : k = k'
      · exact .inr (.inr (hk ▸ rfl))
      · exact .inl (update_of_ne hk ..)
    | pinOp k' sub => exact .inl (congrFun (pinOp_frame p.dram _ k' sub).2.1 k)
    | other x d' hi hl => exact .inl (congrFun hl k)
    | _ => exact .inl rfl
  · left
    rw [hd]

theorem node_now_le (h : exec p x env s = some (r, s')) : s.dram.now ≤ s'.dram.now := by
  rcases node_dram_cases h with ⟨y, r', -, hy⟩ | ⟨used, hd⟩
  · exact dram_now_le hy
  · rw [hd]

theorem node_lease_cases (h : exec p x env s = some (r, s')) {i : ℕ} (hi : i < s.dram.next) :
    (s.dram.cells i).leaseUntil ≤ (s'.dram.cells i).leaseUntil ∨
      ∃ b, x = .dram (.releaseLease b) ∧ b.id = i := by
  rcases node_dram_cases h with ⟨y, r', rfl, hy⟩ | ⟨used, hd⟩
  · have hb := dram_block_step hy hi
    generalize s'.dram.cells i = c at hb
    cases hb with
    | other x c hpin hlease =>
      rcases hlease with heq | ⟨b, u, -, -, hle⟩ | ⟨b, hx, hb, -⟩
      · exact .inl (le_of_eq heq.symm)
      · exact .inl hle
      · exact .inr ⟨b, congrArg Act.dram hx, hb⟩
    | _ => exact .inl (le_refl _)
  · left
    rw [hd]

theorem node_hard_cases (h : exec p x env s = some (r, s')) {i : ℕ} (hi : i < s.dram.next)
    (hh : (s.dram.cells i).hardPinned = true) :
    (s'.dram.cells i).hardPinned = true ∨ ∃ k sub b, x = .dram (.pinOp k sub) ∧
      s.dram.index k = some b ∧ b.id = i ∧ (sub = .unpin ∨ sub = .pinSoft) := by
  rcases node_dram_cases h with ⟨y, r', rfl, hy⟩ | ⟨used, hd⟩
  · have hb := dram_block_step hy hi
    generalize s'.dram.cells i = c at hb
    cases hb with
    | pin k sub b hb hi f hf =>
      rcases hf with ⟨hs, -⟩ | ⟨hs, -⟩ | ⟨-, rfl⟩
      · exact .inr ⟨k, sub, b, rfl, hb, hi, .inl hs⟩
      · exact .inr ⟨k, sub, b, rfl, hb, hi, .inr hs⟩
      · exact .inl rfl
    | gate k g hok => exact absurd hok (check_hard hh g _)
    | other x c hpin hlease =>
      left
      unfold Tier.Cell.hardPinned at hh ⊢
      rwa [hpin]
  · left
    rw [hd]
    exact hh

theorem node_arena_cases (h : exec p x env s = some (r, s')) : s'.dram.arena = s.dram.arena ∨
    ∃ offset data, x = .dram (.write offset data) ∧ s'.dram = s.dram.write offset data := by
  rcases node_dram_cases h with ⟨y, r', rfl, hy⟩ | ⟨used, hd⟩
  · rcases dram_arena_cases hy with ha | ⟨o, data, rfl, ha⟩
    · exact .inl ha
    · exact .inr ⟨o, data, rfl, ha⟩
  · left
    rw [hd]

private theorem node_below_cases (h : exec p x env s = some (r, s')) :
    (∃ y r', x = .disk y ∧ Disk.exec s.dram.now y env s.disk = some (r', s'.disk)) ∨
    (∃ k b loc z, x = .publish k b loc z ∧ s' = s.publish k b loc z) ∨ s'.disk = s.disk := by
  cases x with
  | dram y =>
    obtain ⟨d', -, rfl⟩ := exec_dram h
    exact .inr (.inr rfl)
  | disk y =>
    obtain ⟨t', hy, rfl⟩ := exec_disk h
    exact .inl ⟨y, r, rfl, hy⟩
  | publish k b loc z =>
    cases h
    exact .inr (.inl ⟨k, b, loc, z, rfl, rfl⟩)
  | answer z =>
    cases h
    exact .inr (.inr rfl)

theorem node_disk_index_cases (h : exec p x env s = some (r, s')) :
    s'.disk.index k = s.disk.index k ∨
    (∃ g e, x = .disk (.deleteIf k g) ∧ s.disk.index k = some e ∧
      g.check e (s.disk.cells e.id) s.dram.now = .ok ∧ s'.disk.index k = none) ∨
    (∃ r' loc xxh3, x = .publish k r' loc xxh3 ∧
      s'.disk.index k = some ⟨s.disk.next, k, loc, loc.len, xxh3⟩) := by
  rcases node_below_cases h with ⟨y, r', rfl, hy⟩ | ⟨k', b, loc, z, rfl, rfl⟩ | hd
  · rcases disk_index_cases k hy with hi | ⟨g, e, rfl, hi⟩
    · exact .inl hi
    · exact .inr (.inl ⟨g, e, rfl, hi⟩)
  · by_cases hk : k = k'
    · subst hk
      exact .inr (.inr ⟨b, loc, z, rfl, Disk.putThen_index_self⟩)
    · exact .inl (Disk.putThen_index_ne hk)
  · left
    rw [hd]

theorem node_log_cases (h : exec p x env s = some (r, s')) : s'.disk.log = s.disk.log ∨
    ∃ k z data id, x = .disk (.append k z data) ∧
      s'.disk.log = update s.disk.log id (s.disk.log id ++ [⟨k, z, data⟩]) := by
  rcases node_below_cases h with ⟨y, r', rfl, hy⟩ | ⟨k', b, loc, z, -, rfl⟩ | hd
  · rcases disk_log_cases hy with hl | ⟨k, z, data, id, rfl, hl⟩
    · exact .inl hl
    · exact .inr ⟨k, z, data, id, rfl, hl⟩
  · exact .inl rfl
  · left
    rw [hd]

theorem node_segs_cases (h : exec p x env s = some (r, s')) :
    s'.disk.segs = s.disk.segs ∨
    ∃ y r', x = .disk y ∧ Disk.exec s.dram.now y env s.disk = some (r', s'.disk) := by
  rcases node_below_cases h with hy | ⟨k', b, loc, z, -, rfl⟩ | hd
  · exact .inr hy
  · exact .inl rfl
  · left
    rw [hd]

end Node

end KVStash.Tiered.Frames
