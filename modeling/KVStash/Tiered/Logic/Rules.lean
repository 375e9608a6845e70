/- GID: KVStash/Tiered/Logic/Rules
   digest: The resource logic of a node and the rules for its atomic actions. -/

import KVStash.Foundation.Resource
import KVStash.Dram.Tier.Specs
import KVStash.Tiered.Disk.Moves
import KVStash.Tiered.Disk.Writer
import KVStash.Tiered.System

set_option autoImplicit false

namespace KVStash.Tiered.Logic

open Protocol Dram Tiered.Node Tiered.System
open Foundation.Threads Foundation.Resource
open Dram.Tier (Key BlockRef Audit bytesToUnits)

/-- What a thread of a node owns: its share of DRAM and its share below. -/
abbrev Own : Type := Tier.Own × Disk.Own

/-- What a step is assumed to meet when the ledger or the liveness counts are
audited: a demotion does not publish over an entry that is there, respectively over
one that is S3-only. -/
def Guard (a : Audit) : Act → State → Prop
  | .publish k _ _ _, s => (a.ledger → s.disk.index k = none) ∧
      (a.liveness → ∀ r, s.disk.index k = some r → (s.disk.cells r.id).s3Only = false)
  | _, _ => True

/-- What a thread owns when it takes an action. -/
def Needs : Act → Own → Prop
  | .dram (.remove k), m => ∃ r, .inside k r ∈ m.1 ∨ .moved k r ∈ m.1
  | .dram (.release r), m => .hold r ∈ m.1
  | .dram (.free e), m => .raw e ∈ m.1 ∨ ∃ r, .spent r ∈ m.1 ∧ r.extent = e ∧ r.len ≠ 0
  | .dram (.write o data), m => .raw ⟨o, bytesToUnits data.length⟩ ∈ m.1
  | .dram (.view o n), m => ∃ r, .hold r ∈ m.1 ∧ r.offset = o ∧ r.len = n
  | .publish k r loc x, m => .inside k r ∈ m.1 ∧ r.xxh3 = x ∧ .wrote loc k x ∈ m.2
  | .disk (.flipRetired _ id), m => ∃ sw, .latch id (.retiring true sw) ∈ m.2
  | .disk (.deleteIf _ (.retire id)), m => ∃ sw, .latch id (.retiring false sw) ∈ m.2
  | .disk (.retireAbort id), m => ∃ flip sw, .latch id (.retiring flip sw) ∈ m.2
  | .disk (.retireFinish id), m => ∃ flip sw ks, .latch id (.retiring flip sw) ∈ m.2 ∧
      .footer id ks ∈ m.2 ∧ ∀ k ∈ ks, k ∈ sw
  | .disk (.drop id), m => .latch id .dead ∈ m.2
  | _, _ => True

variable {o m : Own}

theorem Needs.add {x : Act} (n : Own) (h : Needs x m) : Needs x (m + n) := by
  have h1 : ∀ {y}, y ∈ m.1 → y ∈ (m + n).1 := fun hy => Multiset.mem_add.mpr (.inl hy)
  have h2 : ∀ {y}, y ∈ m.2 → y ∈ (m + n).2 := fun hy => Multiset.mem_add.mpr (.inl hy)
  unfold Needs at h ⊢
  split at h
  · obtain ⟨r, h⟩ := h
    exact ⟨r, h.imp h1 h1⟩
  · exact h1 h
  · rcases h with h | ⟨r, h, h'⟩
    · exact .inl (h1 h)
    · exact .inr ⟨r, h1 h, h'⟩
  · exact h1 h
  · obtain ⟨r, h, h'⟩ := h
    exact ⟨r, h1 h, h'⟩
  · exact ⟨h1 h.1, h.2.1, h2 h.2.2⟩
  · obtain ⟨sw, h⟩ := h
    exact ⟨sw, h2 h⟩
  · obtain ⟨sw, h⟩ := h
    exact ⟨sw, h2 h⟩
  · obtain ⟨fl, sw, h⟩ := h
    exact ⟨fl, sw, h2 h⟩
  · obtain ⟨fl, sw, ks, h, h', hk⟩ := h
    exact ⟨fl, sw, ks, h2 h, h2 h', hk⟩
  · exact h2 h
  · trivial

/-- Both tiers against what the threads own. -/
def Inv (p : Params) (a : Audit) (s : State) (m : Own) : Prop :=
  Tier.Inv p.dram a s.dram m.1 ∧ Disk.Inv a s.disk m.2

def logic (p : Params) (a : Audit) : Logic (system p) Own where
  inv := Inv p a
  guard := Guard a
  needs := Needs
  needs_add n h := h.add n

/-! ### Rules for the atomic actions -/

section Rules

variable {p : Params} {a : Audit} {β : Type} {Q' : β → Own → Prop} {x : Disk.Act}

theorem triple_dram {x : Tier.Act} {m l : Tier.Own} {Q : x.Resp → Tier.Own → Prop}
    {f : x.Resp → Code β} (h : Tier.Holds p.dram a x m Q) (ho : o.1 = m + l)
    (hn : Needs (.dram x) o) (hf : ∀ r m', Q r m' → (logic p a).Triple (f r) (m' + l, o.2) Q') :
    (logic p a).Triple (dram x >>= f) o Q' := by
  refine ⟨hn, fun s g hi _ env r s' he => ?_⟩
  obtain ⟨d', hx, rfl⟩ := exec_dram he
  have hi1 : Tier.Inv p.dram a s.dram (m + (l + g.1)) := by
    rw [← add_assoc, ← ho]
    exact hi.1
  obtain ⟨m', hm', hq⟩ := h s.dram (l + g.1) hi1 env r d' hx
  refine ⟨(m' + l, o.2), ⟨?_, hi.2⟩, hf r m' hq⟩
  change Tier.Inv p.dram a d' (m' + l + g.1)
  rwa [add_assoc]

theorem triple_dram_same {x : Tier.Act} {f : x.Resp → Code β}
    (h : ∀ m, Tier.Holds p.dram a x m fun _ m' => m' = m) (hn : Needs (.dram x) o)
    (hf : ∀ r, (logic p a).Triple (f r) o Q') : (logic p a).Triple (dram x >>= f) o Q' := by
  apply triple_dram (h o.1) (add_zero _).symm hn
  rintro r m' rfl
  rw [add_zero]
  exact hf r

theorem triple_disk {n l : Disk.Own} {Q : x.Resp → Disk.Own → Prop}
    {f : x.Resp → Code β} (h : Disk.Holds a x n Q) (ho : o.2 = n + l) (hn : Needs (.disk x) o)
    (hf : ∀ r n', Q r n' → (logic p a).Triple (f r) (o.1, n' + l) Q') :
    (logic p a).Triple (disk x >>= f) o Q' := by
  refine ⟨hn, fun s g hi _ env r s' he => ?_⟩
  obtain ⟨d', hx, rfl⟩ := exec_disk (p := p) he
  have hi2 : Disk.Inv a s.disk (n + (l + g.2)) := by
    rw [← add_assoc, ← ho]
    exact hi.2
  obtain ⟨n', hn', hq⟩ := h s.dram.now s.disk (l + g.2) hi2 env r d' hx
  refine ⟨(o.1, n' + l), ⟨hi.1, ?_⟩, hf r n' hq⟩
  change Disk.Inv a d' (n' + l + g.2)
  rwa [add_assoc]

theorem triple_quiet {f : x.Resp → Code β} (hx : x.quiet = true)
    (hf : ∀ r, (logic p a).Triple (f r) o Q') : (logic p a).Triple (disk x >>= f) o Q' := by
  have hn : Needs (.disk x) o := by cases x <;> trivial
  apply triple_disk (Disk.quiet_holds hx o.2) (add_zero _).symm hn
  rintro r n' rfl
  rw [add_zero]
  exact hf r

theorem triple_forget {m : Tier.Own} {n : Disk.Own} {id : ℕ} {ks : List Key}
    {f : x.Resp → Code β} (h : (logic p a).Triple (disk x >>= f) (m, n) Q') :
    (logic p a).Triple (disk x >>= f) (m, n + {.footer id ks}) Q' := by
  have hm : ((m, n + {.footer id ks}) : Own) = (m, n) + (0, {.footer id ks}) := by
    rw [Prod.mk_add_mk, add_zero]
  rw [hm]
  apply h.drop
  intro s g hi
  refine ⟨?_, ?_⟩
  · have := hi.1
    rwa [← hm] at this
  have hd : Disk.Inv a s.disk ({.footer id ks} + (n + g.2)) := by
    rw [add_left_comm, ← add_assoc]
    have := hi.2
    rwa [← hm] at this
  exact hd.forget

/-- The publish of a demotion: the charge of the block that passed its gate moves to
the entry of the record that was written. -/
theorem triple_publish {k : Key} {r : BlockRef} {loc : Disk.Loc} {f : Unit → Code β}
    (hr : a.ledger → r.len = a.lenOf r.xxh3)
    (hf : (logic p a).Triple (f ()) ({.moved k r}, {.wrote loc k r.xxh3}) Q') :
    (logic p a).Triple (publish k r loc r.xxh3 >>= f)
    ({.inside k r}, {.wrote loc k r.xxh3}) Q' := by
  refine ⟨⟨by simp, rfl, by simp⟩, fun s g hi hg env x s' he => ?_⟩
  cases he
  refine ⟨_, ⟨?_, ?_⟩, hf⟩
  · apply hi.1.move
    intro hl
    rw [hr hl]
    exact hi.2.wrote_len hl (k := k) (Multiset.mem_add.mpr (.inl (Multiset.mem_singleton_self _)))
  · exact hi.2.publish hg.1 hg.2

theorem triple_answer {x : Answer} {f : Unit → Code β}
    (hf : (logic p a).Triple (f ()) m Q') : (logic p a).Triple (answer x >>= f) m Q' := by
  refine ⟨trivial, fun s g hi _ env r s' he => ?_⟩
  cases he
  exact ⟨m, hi, hf⟩

end Rules

end KVStash.Tiered.Logic
