/- GID: KVStash/Tiered/Content
   digest: What the tiers hold against a map of contents: the steps and the programs that keep them
     agreed. -/

import KVStash.Foundation.Sequential
import KVStash.Tiered.Additions
import KVStash.Tiered.ExtentSafety
import KVStash.Tiered.ReadGap

set_option autoImplicit false

namespace KVStash.Tiered.Content

open Protocol Dram Tiered Tiered.System Tiered.Logic
open Tiered.Node Tiered.Frames Tiered.Additions Tiered.ReadGap
open Foundation.Threads Foundation.Sequential
open Dram.Tier (BlockRef Key Store)
open Tiered.Disk (Loc NvmeRef Tiers)

variable {p : Params} {α : Type} {a : Tier.Act}

/-! ### Programs that run alone -/

/-- A run of a program of the node with no other call in progress. -/
abbrev Alone (p : Params) (code : Code α) (s : State) (answers : List Answer) (x : α)
    (s' : State) : Prop :=
  Safe (logic p noAudit) code s answers x s'

theorem noAudit_guard (x : Act) (s : State) : (logic p noAudit).guard x s := by
  change Guard noAudit x s
  cases x <;> first | trivial | exact ⟨(nomatch ·), (nomatch ·)⟩

section Inversion

variable {s s' : State} {answers : List Answer} {y : α}

theorem alone_dram {f : a.Resp → Code α} (h : Alone p (dram a >>= f) s answers y s') :
    ∃ n env r d', Inv p noAudit s n ∧ Needs (.dram a) n ∧
      Tier.exec p.dram a env s.dram = some (r, d') ∧
      Alone p (f r) { s with dram := d' } answers y s' := by
  obtain ⟨n, env, r, s₁, rest, hi, hn, hx, hrest, rfl⟩ := Safe.act noAudit_guard h
  obtain ⟨d', ha, rfl⟩ := exec_dram hx
  exact ⟨n, env, r, d', hi, hn, ha, hrest⟩

theorem alone_disk {a : Disk.Act} {f : a.Resp → Code α}
    (h : Alone p (disk a >>= f) s answers y s') :
    ∃ n env r t', Inv p noAudit s n ∧ Needs (.disk a) n ∧
      Disk.exec s.dram.now a env s.disk = some (r, t') ∧
      Alone p (f r) { s with disk := t' } answers y s' := by
  obtain ⟨n, env, r, s₁, rest, hi, hn, hx, hrest, rfl⟩ := Safe.act noAudit_guard h
  obtain ⟨t', ha, rfl⟩ := exec_disk (p := p) hx
  exact ⟨n, env, r, t', hi, hn, ha, hrest⟩

theorem alone_answer {x : Answer} {f : Unit → Code α}
    (h : Alone p (answer x >>= f) s answers y s') :
    ∃ rest, answers = x :: rest ∧ Alone p (f ()) s rest y s' := by
  obtain ⟨n, env, r, s₁, rest, -, -, hx, hrest, rfl⟩ := Safe.act noAudit_guard h
  cases hx
  exact ⟨rest, rfl, hrest⟩

theorem alone_dram_get {k : Key} {f : Option BlockRef → Code α}
    (h : Alone p (dram (.get k) >>= f) s answers y s') :
    Alone p (f (s.dram.index k)) s answers y s' := by
  obtain ⟨-, env, r, d', -, -, hx, hrest⟩ := alone_dram h
  unfold Tier.exec at hx
  dsimp only at hx
  split at hx
  · cases hx
  · cases hx
    exact hrest

theorem alone_disk_get {k : Key} {f : Option NvmeRef → Code α}
    (h : Alone p (disk (.get k) >>= f) s answers y s') :
    Alone p (f (s.disk.index k)) s answers y s' := by
  obtain ⟨-, env, r, t', -, -, hx, hrest⟩ := alone_disk h
  cases hx
  exact hrest

theorem alone_replying {code : Code Status} {u : Unit}
    (h : Alone p (replying code) s answers u s') :
    ∃ before st, Alone p code s before st s' ∧ answers = before ++ [.of st] := by
  obtain ⟨st, s₁, before, as₂, hc, hans, rfl⟩ := Safe.bind noAudit_guard h
  have hans' : Alone p (answer (.of st) >>= .ret) s₁ as₂ u s' := hans
  obtain ⟨rest, rfl, hret⟩ := alone_answer hans'
  obtain ⟨-, rfl, rfl⟩ := hret.ret
  exact ⟨before, st, hc, rfl⟩

end Inversion

/-! ### The tiers against a map of contents -/

abbrev Contents : Type := Key → Option (List UInt8)

/-- Each tier holds of a key what the map says: the DRAM block has its bytes, the NVMe
entry its digest, and every record ever written has the digest of its own bytes. -/
structure Serves (hash : List UInt8 → ℕ) (used : Set (List UInt8)) (c : Contents) (s : State) :
    Prop where
  known : ∀ k d, c k = some d → d ∈ used
  block : ∀ k r, s.dram.index k = some r →
    ∃ d, c k = some d ∧ r.xxh3 = hash d ∧ s.dram.view r.offset r.len = d
  entry : ∀ k e, s.disk.index k = some e → ∃ d, c k = some d ∧ e.xxh3 = hash d
  record : ∀ id, ∀ rec ∈ s.disk.log id, rec.data ∈ used ∧ rec.xxh3 = hash rec.data

variable {hash : List UInt8 → ℕ} {used : Set (List UInt8)} {c : Contents} {s s' : State} {k : Key}

variable {env : ℕ} {answers : List Answer} {data : List UInt8} {u : Unit} {z now : ℕ} {t t' : Tiers}

theorem Serves.step {n : Logic.Own} {x : Act} {r : x.Resp} (h : Serves hash used c s)
    (hinv : Inv p noAudit s n) (hneeds : Needs x n) (hx : exec p x env s = some (r, s'))
    (ht : Tame x) : Serves hash used c s' where
  known := h.known
  block k b hb := by
    rcases node_dram_index_cases k hx with hi | ⟨o, l, z, rfl, -⟩ | ⟨-, hi⟩
    · rw [hi] at hb
      obtain ⟨d, hd, hz, hview⟩ := h.block k b hb
      exact ⟨d, hd, hz, by rw [ExtentSafety.view_kept hinv hneeds hx hb, hview]⟩
    · exact ht.elim
    · rw [hi] at hb
      cases hb
  entry k e he := by
    rcases node_disk_index_cases k hx with hi | ⟨g, e', -, -, -, hi⟩ | ⟨r', loc, z, rfl, -⟩
    · exact h.entry k e (hi ▸ he)
    · rw [hi] at he
      cases he
    · exact ht.elim
  record id rec hrec := by
    rcases node_log_cases hx with hl | ⟨k, z, data, id, rfl, -⟩
    · exact h.record id rec (hl ▸ hrec)
    · exact ht.elim

theorem Serves.dramStep {n : Logic.Own} {r : a.Resp} {d' : Store}
    (h : Serves hash used c s) (hinv : Inv p noAudit s n) (hneeds : Needs (.dram a) n)
    (hx : Tier.exec p.dram a env s.dram = some (r, d')) (ht : Tame (.dram a)) :
    Serves hash used c { s with dram := d' } := by
  have hnode : exec p (.dram a) env s = some (r, { s with dram := d' }) := by
    rw [exec, hx]
    rfl
  exact h.step hinv hneeds hnode ht

theorem Serves.tame {code : Code α} {y : α} (h : Serves hash used c s)
    (hr : Alone p code s answers y s') (hcode : code.Every Tame) : Serves hash used c s' :=
  hr.keeps noAudit_guard hcode
    (fun _ _ _ _ _ _ ht hinv hneeds hx hs => hs.step hinv hneeds hx ht) h

theorem Serves.forget (h : Serves hash used c s) (hb : s.dram.index k = none)
    (he : s.disk.index k = none) {o : Option (List UInt8)} (ho : ∀ d, o = some d → d ∈ used) :
    Serves hash used (Function.update c k o) s where
  known k' d hd := by
    by_cases hk : k' = k
    · subst hk
      rw [Function.update_self] at hd
      exact ho d hd
    · rw [Function.update_of_ne hk] at hd
      exact h.known k' d hd
  block k' r hr := by
    have hk : k' ≠ k := by
      rintro rfl
      rw [hb] at hr
      cases hr
    rw [Function.update_of_ne hk]
    exact h.block k' r hr
  entry k' e hr := by
    have hk : k' ≠ k := by
      rintro rfl
      rw [he] at hr
      cases hr
    rw [Function.update_of_ne hk]
    exact h.entry k' e hr
  record := h.record

/-! ### Reading -/

theorem Serves.recordAt (h : Serves hash used c s) (hinj : Set.InjOn hash used) {loc : Loc}
    {k' : Key} {d : List UInt8} (hd : c k = some d) (hz : z = hash d)
    (hrec : s.disk.recordAt loc k' z = some data) : data = d := by
  unfold Tiers.recordAt at hrec
  split at hrec
  · cases hrec
  next rec hget =>
  split at hrec
  · next hmatch =>
    cases hrec
    obtain ⟨hused, hsum⟩ := h.record loc.segmentID rec (List.mem_of_getElem? hget)
    apply hinj hused (h.known k d hd)
    rw [← hsum, hmatch.2.1, hz]
  · cases hrec

theorem read_ok {loc : Loc} (hx : Disk.exec now (.read loc k z) env t = some (.ok data, t')) :
    t.recordAt loc k z = some data := by
  unfold Disk.exec at hx
  dsimp only at hx
  split at hx
  · obtain ⟨hread, -⟩ := Prod.mk.inj (Option.some.inj hx)
    unfold Tiers.read at hread
    split at hread
    · cases hread
    split at hread
    · cases hread
    · split at hread
      · cases hread
      · next hrec =>
        cases hread
        exact hrec
  · cases hx
  · cases hx
  · cases hx

theorem read_same {loc : Loc} {res : Disk.ReadResult}
    (hx : Disk.exec now (.read loc k z) env t = some (res, t')) : t' = t := by
  unfold Disk.exec at hx
  dsimp only at hx
  split at hx <;> cases hx <;> rfl

theorem readRange_ok {e : NvmeRef} (hx : Disk.exec now (.readRange e) env t = some (.ok data, t')) :
    t.recordAt e.loc e.key e.xxh3 = some data := by
  unfold Disk.exec at hx
  dsimp only at hx
  split at hx
  · split at hx
    · next hrange =>
      cases hx
      unfold Tiers.readRange at hrange
      split at hrange
      · exact hrange
      · cases hrange
    · cases hx
  · cases hx
  · cases hx

theorem readS3_ok {e : NvmeRef} (hr : Alone p (Calls.readS3 p e) s answers (.ok data) s') :
    s.disk.recordAt e.loc e.key e.xxh3 = some data := by
  unfold Calls.readS3 at hr
  split at hr
  · obtain ⟨-, env, cold, t', -, -, hx, hrest⟩ := alone_disk hr
    cases hx
    split at hrest
    · have hread : Alone p (disk (.readRange e) >>= .ret) s answers (.ok data) s' := hrest
      obtain ⟨-, env', res, t', -, -, hx, hret⟩ := alone_disk hread
      obtain ⟨rfl, -, -⟩ := hret.ret
      exact readRange_ok hx
    · cases (hrest.ret).1
  · cases (hr.ret).1

/-! #### The half in DRAM -/

/-- An action of DRAM that leaves the index and the arena. -/
def Still : Tier.Act → Prop
  | .insert _ _ _ _ | .remove _ | .write _ _ => False
  | _ => True

theorem still_same {d d' : Store} {r : a.Resp}
    (hx : Tier.exec p.dram a env d = some (r, d')) (h : Still a) :
    d'.index = d.index ∧ d'.arena = d.arena := by
  constructor
  · funext k
    rcases dram_index_cases k hx with hi | ⟨o, l, z, rfl, -⟩ | ⟨rfl, -⟩
    · exact hi
    · exact h.elim
    · exact h.elim
  · rcases dram_arena_cases hx with ha | ⟨o, data, rfl, -⟩
    · exact ha
    · exact h.elim

theorem view_congr {d d' : Store} (h : d'.arena = d.arena) (o n : ℕ) :
    d'.view o n = d.view o n := by
  unfold Store.view
  rw [h]

theorem holdBlock_tame (r : BlockRef) : (holdBlock p r).Every Tame := by
  apply every_dram trivial
  intro ok
  cases ok with
  | false => trivial
  | true => by_cases hlen : 0 < r.len <;> simp [Tier.grantReadLease, dram, hlen]

theorem holdBlock_data {r : BlockRef} {o : Option Tier.Held}
    (hr : Alone p (holdBlock p r) s answers o s') :
    answers = [] ∧ ∀ h, o = some h → h.ref = r ∧ h.data = s.dram.view r.offset r.len := by
  obtain ⟨-, _, ok, d₁, -, -, hx₁, hr⟩ := alone_dram hr
  cases ok with
  | false =>
    obtain ⟨rfl, rfl, -⟩ := hr.ret
    exact ⟨rfl, fun h hh => nomatch hh⟩
  | true =>
    obtain ⟨-, _, now, d₂, -, -, hx₂, hr⟩ := alone_dram hr
    obtain ⟨-, _, _, d₃, -, -, hx₃, hr⟩ := alone_dram hr
    obtain ⟨-, _, _, d₄, -, -, hx₄, hr⟩ := alone_dram hr
    obtain ⟨-, _, _, d₅, -, -, hx₅, hr⟩ := alone_dram hr
    have harena : d₅.arena = s.dram.arena := by
      rw [(still_same hx₅ trivial).2, (still_same hx₄ trivial).2, (still_same hx₃ trivial).2,
        (still_same hx₂ trivial).2, (still_same hx₁ trivial).2]
    by_cases hlen : 0 < r.len
    · rw [if_pos hlen] at hr
      obtain ⟨-, _, data, d₆, -, -, hx₆, hr⟩ := alone_dram hr
      obtain ⟨rfl, rfl, -⟩ := hr.ret
      cases hx₆
      refine ⟨rfl, fun h hh => ?_⟩
      cases hh
      exact ⟨rfl, view_congr harena ..⟩
    · rw [if_neg hlen] at hr
      obtain ⟨rfl, rfl, -⟩ := hr.ret
      refine ⟨rfl, fun h hh => ?_⟩
      cases hh
      have hzero : r.len = 0 := by omega
      exact ⟨rfl, by simp [Store.view, hzero]⟩

theorem alone_last {x : Answer}
    (h : Alone p (answer x) s answers u s') : answers = [x] ∧ s' = s := by
  have h' : Alone p (answer x >>= .ret) s answers u s' := h
  obtain ⟨rest, rfl, hret⟩ := alone_answer h'
  obtain ⟨-, rfl, rfl⟩ := hret.ret
  exact ⟨rfl, rfl⟩

theorem alone_silent {code : Code α} {y : α} (h : Alone p code s answers y s')
    (hc : code.Every fun x => ∀ a, x ≠ .answer a) : answers = [] := by
  induction code generalizing s answers with
  | ret z => exact (h.ret).2.1
  | act a f ih =>
    obtain ⟨n, env, r, s₁, rest, -, -, -, hrest, rfl⟩ := Safe.act noAudit_guard h
    rw [ih r hrest (hc.2 r), List.append_nil]
    cases a with
    | answer x => exact absurd rfl (hc.1 x)
    | _ => rfl

theorem inner_silent {x : Act} (h : Footprint.Inner x) (a : Answer) : x ≠ .answer a := by
  rintro rfl
  exact h

theorem dropEntry_silent (g : Disk.DropGate) :
    (Calls.dropEntry p k g).Every fun x => ∀ a, x ≠ .answer a := by
  apply every_disk
  · intro a ha
    cases ha
  intro res
  cases res with
  | error st => trivial
  | ok e =>
    apply Prog.every_bind ((Footprint.refund_inner k.ns e).mono fun _ => inner_silent)
    intro _
    trivial

theorem dramDelete_silent (force : Bool) :
    (Tier.delete k force).Every fun x => ∀ a, x ≠ .answer a := by
  apply every_dram
  · intro a ha
    cases ha
  intro res
  cases res with
  | error st => trivial
  | ok r =>
    apply every_dram
    · intro a ha
      cases ha
    intro _
    have hrefund : (Tier.refundQuota r).Every Footprint.Inner := by
      unfold Tier.refundQuota
      split <;> simp [dram, Footprint.Inner]
    apply Prog.every_bind (hrefund.mono fun _ => inner_silent)
    intro _
    apply Prog.every_bind ((Footprint.release_inner r).mono fun _ => inner_silent)
    intro _
    trivial

theorem serve_answers {e : NvmeRef}
    (hr : Alone p (Calls.serve p k e data) s answers u s') : ∀ a ∈ answers, a.data = data := by
  obtain ⟨-, _, now, d₁, -, -, -, hr⟩ := alone_dram hr
  obtain ⟨-, _, o, t₁, -, -, -, hr⟩ := alone_disk hr
  intro a ha
  cases o
  all_goals
    obtain ⟨rfl, -⟩ := alone_last hr
    rw [List.mem_singleton.mp ha]

private theorem refused_answers (st : Status) (hst : st ≠ .ok)
    {d : List UInt8} (hr : Alone p (answer (.of st)) s answers u s') :
    ∀ a ∈ answers, a.status = .ok → a.data = d := by
  obtain ⟨rfl, -⟩ := alone_last hr
  intro a ha hok
  rw [List.mem_singleton.mp ha] at hok
  exact absurd hok hst

private theorem belowDram_answers (hinj : Set.InjOn hash used) (h : Serves hash used c s)
    (hr : Alone p (belowDram p k) s answers u s') :
    ∀ a ∈ answers, a.status = .ok → c k = some a.data := by
  have hr := alone_disk_get hr
  cases he : s.disk.index k with
  | none =>
    rw [he] at hr
    obtain ⟨rfl, -⟩ := alone_last hr
    intro a ha hok
    rw [List.mem_singleton.mp ha] at hok
    cases hok
  | some e =>
    rw [he] at hr
    obtain ⟨d, hd, hz⟩ := h.entry k e he
    obtain ⟨n, env, res, t₁, hinv, -, hx, hr⟩ := alone_disk hr
    cases read_same hx
    suffices hdata : ∀ a ∈ answers, a.status = .ok → a.data = d from
      fun a ha hok => by rw [hd, hdata a ha hok]
    cases res with
    | ok data =>
      intro a ha _
      rw [serve_answers hr a ha]
      exact h.recordAt hinj hd hz (read_ok hx)
    | busy => exact refused_answers .errBusy (by decide) hr
    | cancelled => exact refused_answers .notFound (by decide) hr
    | gone =>
      obtain ⟨cold, s₁, as₁, as₂, hs3, hcold, rfl⟩ := Safe.bind noAudit_guard hr
      rw [alone_silent hs3 ((Footprint.readS3_inner e).mono fun _ => inner_silent), List.nil_append]
      cases cold with
      | ok data =>
        intro a ha _
        rw [serve_answers hcold a ha]
        exact h.recordAt hinj hd hz (readS3_ok hs3)
      | error st =>
        cases st with
        | errBusy => exact refused_answers .errBusy (by decide) hcold
        | _ => exact refused_answers .notFound (by decide) hcold
    | corrupt =>
      obtain ⟨res, s₁, as₁, as₂, hdrop, hmiss, rfl⟩ := Safe.bind noAudit_guard hr
      rw [alone_silent hdrop (dropEntry_silent _), List.nil_append]
      exact refused_answers .notFound (by decide) hmiss

theorem getRefTier_answers (hinj : Set.InjOn hash used) (h : Serves hash used c s)
    (hr : Alone p (Calls.getRefTier p k) s answers u s') :
    ∀ a ∈ answers, a.status = .ok → c k = some a.data := by
  rw [getRefTier_eq] at hr
  have hr := alone_dram_get hr
  cases hb : s.dram.index k with
  | none =>
    rw [hb] at hr
    exact belowDram_answers hinj h hr
  | some r =>
    rw [hb] at hr
    obtain ⟨o, s₁, as₁, as₂, hhold, hr, rfl⟩ := Safe.bind noAudit_guard hr
    obtain ⟨rfl, hheld⟩ := holdBlock_data hhold
    cases o with
    | none => exact belowDram_answers hinj (h.tame hhold (holdBlock_tame r)) hr
    | some held =>
      obtain ⟨href, hdata⟩ := hheld held rfl
      obtain ⟨d, hd, -, hview⟩ := h.block k r hb
      obtain ⟨rest, rfl, hrel⟩ := alone_answer hr
      rw [alone_silent hrel ((Footprint.release_inner held.ref).mono fun _ => inner_silent)]
      intro a ha _
      rw [List.mem_singleton.mp ha, hd, ← hview, ← hdata]

end KVStash.Tiered.Content
