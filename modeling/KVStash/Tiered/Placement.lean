/- GID: KVStash/Tiered/Placement
   digest: Puts, promotions, demotions and deletes that run alone, against the map of contents. -/

import KVStash.Tiered.Content

set_option autoImplicit false

namespace KVStash.Tiered.Content

open Protocol Dram Tiered Tiered.System Tiered.Logic Function
open Tiered.Node Tiered.Frames Tiered.Additions
open Foundation.Threads Foundation.Sequential
open Dram.Tier (BlockRef Key Store)
open Tiered.Disk (Loc NvmeRef Tiers)

variable {p : Params} {hash : List UInt8 → ℕ} {used : Set (List UInt8)} {c : Contents}
  {s s' : State} {k : Key} {answers : List Answer}

/-! ### The DRAM insert -/

theorem view_write (d : Store) (o : ℕ) (data : List UInt8) :
    (d.write o data).view o data.length = data := by
  apply List.ext_getElem
  · simp [Store.view]
  · intro i hi hdata
    have hlt : o * Tier.AllocUnit + i - o * Tier.AllocUnit < data.length := by omega
    simp [Store.view, Store.write, hdata]

variable {data d : List UInt8} {z : ℕ} {st : Status} {e : NvmeRef}

theorem Serves.insert (h : Serves hash used c s) {o n : ℕ}
    (hz : z = hash data) (hu : data ∈ used) (hk : ∀ e, s.disk.index k = some e → c k = some data)
    (hview : s.dram.view o n = data) {d' : Store}
    (hi : d'.index = update s.dram.index k (some ⟨s.dram.next, k, o, n, z⟩))
    (ha : d'.arena = s.dram.arena) :
    Serves hash used (update c k (some data)) { s with dram := d' } where
  known k' d hd := by
    by_cases hkk : k' = k
    · subst hkk
      rw [update_self, Option.some.injEq] at hd
      exact hd ▸ hu
    · rw [update_of_ne hkk] at hd
      exact h.known k' d hd
  block k' r hr := by
    change d'.index k' = some r at hr
    rw [hi] at hr
    change ∃ d, _ ∧ _ ∧ d'.view r.offset r.len = d
    rw [view_congr ha]
    by_cases hkk : k' = k
    · subst hkk
      rw [update_self, Option.some.injEq] at hr
      subst hr
      exact ⟨data, update_self .., hz, hview⟩
    · rw [update_of_ne hkk] at hr ⊢
      exact h.block k' r hr
  entry k' e he := by
    by_cases hkk : k' = k
    · subst hkk
      obtain ⟨d, hd, hsum⟩ := h.entry k' e he
      rw [hk e he, Option.some.injEq] at hd
      exact ⟨data, update_self .., hd ▸ hsum⟩
    · rw [update_of_ne hkk]
      exact h.entry k' e he
  record := h.record

/-- What a put into DRAM leaves: the block under its key when it is accepted, and
otherwise what was there. -/
structure Placed (hash : List UInt8 → ℕ) (used : Set (List UInt8)) (c : Contents) (k : Key)
    (data : List UInt8) (st : Status) (s s' : State) : Prop where
  disk : s'.disk = s.disk
  accepted : st = .ok → Serves hash used (update c k (some data)) s'
  refused : st ≠ .ok → Serves hash used c s'

theorem exists_ne_ok (r : BlockRef) (z : ℕ) : Tier.putExistsStatus r z ≠ .ok := by
  unfold Tier.putExistsStatus
  split <;> decide

theorem publishBlock_placed (h : Serves hash used c s) {o n : ℕ}
    (hz : z = hash data) (hu : data ∈ used) (hk : ∀ e, s.disk.index k = some e → c k = some data)
    (hview : s.dram.view o n = data) (hr : Alone p (Tier.publishBlock k o n z) s answers st s') :
    Placed hash used c k data st s s' := by
  obtain ⟨-, env, x, d₁, -, -, hx, hr⟩ := alone_dram hr
  unfold Tier.exec at hx
  dsimp only at hx
  split at hx
  · cases hx
  split at hx
  · next r hi =>
    -- the key got a block in the meantime: the extent and the charge go back
    cases hx
    by_cases hn : 0 < n
    · simp only [Bool.false_eq_true, if_false, hn, if_true] at hr
      have hkept : Serves hash used c s' := h.tame hr (by simp [dram])
      obtain ⟨-, env₂, _, d₂, -, -, hx₂, hr⟩ := alone_dram hr
      obtain ⟨-, env₃, _, d₃, -, -, hx₃, hr⟩ := alone_dram hr
      obtain ⟨rfl, -, rfl⟩ := hr.ret
      exact ⟨rfl, fun hok => absurd hok (exists_ne_ok r z), fun _ => hkept⟩
    · simp only [Bool.false_eq_true, if_false, hn] at hr
      obtain ⟨rfl, -, rfl⟩ := hr.ret
      exact ⟨rfl, fun hok => absurd hok (exists_ne_ok r z), fun _ => h⟩
  · cases hx
    simp only [if_true] at hr
    obtain ⟨rfl, -, rfl⟩ := hr.ret
    exact ⟨rfl, fun _ => h.insert hz hu hk hview rfl rfl, fun hne => absurd rfl hne⟩

private theorem allocate_still (n : ℕ) : (Tier.allocate p.dram n).Every fun x =>
    Tame x ∧ ∃ a, x = .dram a := by
  apply every_dram ⟨trivial, _, rfl⟩
  intro o
  cases o with
  | some o => trivial
  | none =>
    dsimp only
    split
    · exact ⟨⟨trivial, _, rfl⟩, fun _ => trivial⟩
    · trivial

private theorem allocate_kept (h : Serves hash used c s) {n : ℕ} {o : Option ℕ}
    (hr : Alone p (Tier.allocate p.dram n) s answers o s') :
    Serves hash used c s' ∧ s'.disk = s.disk := by
  refine ⟨h.tame hr ((allocate_still n).mono fun _ hx => hx.1), ?_⟩
  apply hr.keeps noAudit_guard (allocate_still n) (J := fun s' => s'.disk = s.disk) ?_ rfl
  rintro _ s₁ n env r s₂ ⟨-, a, rfl⟩ - - hx hj
  obtain ⟨d', -, rfl⟩ := exec_dram hx
  exact hj

theorem dramPut_placed (h : Serves hash used c s)
    (hz : z = hash data) (hu : data ∈ used) (hk : ∀ e, s.disk.index k = some e → c k = some data)
    (hr : Alone p (Tier.put p.dram k data z) s answers st s') :
    Placed hash used c k data st s s' := by
  have hr := alone_dram_get hr
  cases hb : s.dram.index k with
  | some r =>
    rw [hb] at hr
    obtain ⟨rfl, -, rfl⟩ := hr.ret
    exact ⟨rfl, fun hok => absurd hok (exists_ne_ok r z), fun _ => h⟩
  | none =>
    rw [hb] at hr
    dsimp only at hr
    by_cases hlen : data.length = 0
    · rw [if_pos hlen] at hr
      have hnil : data = [] := List.length_eq_zero_iff.mp hlen
      exact publishBlock_placed h hz hu hk (by simp [Store.view, hnil]) hr
    rw [if_neg hlen] at hr
    obtain ⟨o, s₁, as₁, as₂, halloc, hr, -⟩ := Safe.bind noAudit_guard hr
    obtain ⟨h₁, hdisk₁⟩ := allocate_kept h halloc
    cases o with
    | none =>
      obtain ⟨rfl, -, rfl⟩ := hr.ret
      exact ⟨hdisk₁, fun hok => (by cases hok), fun _ => h₁⟩
    | some o =>
      obtain ⟨n, env, _, d₂, hinv, hneeds, hx, hr⟩ := alone_dram hr
      have h₂ := h₁.dramStep hinv hneeds hx trivial
      cases hx
      obtain ⟨n', env', ok, d₃, hinv', hneeds', hxc, hr⟩ := alone_dram hr
      have h₃ := h₂.dramStep hinv' hneeds' hxc trivial
      have harena : d₃.arena = (s₁.dram.write o data).arena := (still_same hxc trivial).2
      cases ok with
      | true =>
        have hview : d₃.view o data.length = data := by
          rw [view_congr harena, view_write]
        have hk₃ : ∀ e, s₁.disk.index k = some e → c k = some data := by
          rw [hdisk₁]
          exact hk
        obtain ⟨hdisk, hok, hno⟩ := publishBlock_placed h₃ hz hu hk₃ hview hr
        exact ⟨hdisk.trans hdisk₁, hok, hno⟩
      | false =>
        have hkept : Serves hash used c s' := h₃.tame hr (by simp [dram])
        obtain ⟨-, _, _, d₄, -, -, -, hr⟩ := alone_dram hr
        obtain ⟨rfl, -, rfl⟩ := hr.ret
        exact ⟨hdisk₁, fun hok => (by cases hok), fun _ => hkept⟩

/-! ### PUT -/

theorem put_serves (h : Serves hash used c s) (hz : z = hash data)
    (hu : data ∈ used) (hr : Alone p (Calls.put p k data z) s answers st s') :
    (st = .ok → Serves hash used (update c k (some data)) s') ∧
      (st ≠ .ok → Serves hash used c s') := by
  have hr := alone_disk_get hr
  cases he : s.disk.index k with
  | some e =>
    rw [he] at hr
    obtain ⟨rfl, -, rfl⟩ := hr.ret
    refine ⟨fun hok => ?_, fun _ => h⟩
    split at hok <;> cases hok
  | none =>
    rw [he] at hr
    obtain ⟨st₁, s₁, as₁, as₂, hput, hr, -⟩ := Safe.bind noAudit_guard hr
    have hk : ∀ e, s.disk.index k = some e → c k = some data := fun e hc => by
      rw [he] at hc
      cases hc
    obtain ⟨hdisk, hok, hno⟩ := dramPut_placed h hz hu hk hput
    by_cases hst : st₁ = .ok
    · subst hst
      have hr := alone_disk_get hr
      rw [hdisk, he] at hr
      obtain ⟨rfl, -, rfl⟩ := hr.ret
      exact ⟨fun _ => hok rfl, fun hne => absurd rfl hne⟩
    · have hret : st = st₁ ∧ s' = s₁ := by
        cases st₁ with
        | ok => exact absurd rfl hst
        | _ => exact ⟨(hr.ret).1, (hr.ret).2.2⟩
      obtain ⟨rfl, rfl⟩ := hret
      exact ⟨fun hok' => absurd hok' hst, hno⟩

theorem put_resident (hinj : Set.InjOn hash used) (h : Serves hash used c s)
    (hres : ReadGap.Resident s k) (hz : z = hash data) (hu : data ∈ used) (hd : c k ≠ some data)
    (hr : Alone p (Calls.put p k data z) s answers st s') :
    st = .errImmutableConflict ∧ answers = [] ∧ s' = s := by
  have hother : ∀ d, c k = some d → hash d ≠ z := by
    intro d hck heq
    apply hd
    rw [hck, hinj (h.known k d hck) hu (heq.trans hz)]
  have hr := alone_disk_get hr
  cases he : s.disk.index k with
  | some e =>
    rw [he] at hr
    obtain ⟨d, hck, hsum⟩ := h.entry k e he
    dsimp only at hr
    rw [if_neg (hsum ▸ hother d hck)] at hr
    exact hr.ret
  | none =>
    rw [he] at hr
    obtain ⟨r, hb⟩ := Option.ne_none_iff_exists'.mp (hres.resolve_right (not_not_intro he))
    obtain ⟨d, hck, hsum, -⟩ := h.block k r hb
    obtain ⟨st₁, s₁, as₁, as₂, hput, hrest, rfl⟩ := Safe.bind noAudit_guard hr
    have hput := alone_dram_get hput
    rw [hb] at hput
    obtain ⟨rfl, rfl, rfl⟩ := hput.ret
    have hst : Tier.putExistsStatus r z = .errImmutableConflict := if_neg (hsum ▸ hother d hck)
    rw [hst] at hrest
    exact hrest.ret

/-! ### Promotions and pins -/

theorem promoteInsert_serves (h : Serves hash used c s) (hd : c k = some d) (hz : e.xxh3 = hash d)
    (hr : Alone p (Calls.promoteInsert p k e d) s answers st s') : Serves hash used c s' := by
  obtain ⟨st₁, s₁, as₁, as₂, hput, hr, -⟩ := Safe.bind noAudit_guard hr
  obtain ⟨-, hok, hno⟩ := dramPut_placed h hz (h.known k d hd) (fun _ _ => hd) hput
  have hsame : update c k (some d) = c := by
    rw [← hd]
    exact update_eq_self k c
  have hs₁ : Serves hash used c s₁ := by
    by_cases hst : st₁ = .ok
    · exact hsame ▸ hok hst
    · exact hno hst
  have hs' : s' = s₁ := by
    cases st₁ <;> exact (hr.ret).2.2
  exact hs' ▸ hs₁

private theorem promoteCold_serves (hinj : Set.InjOn hash used) (h : Serves hash used c s)
    (hd : c k = some d) (hz : e.xxh3 = hash d)
    (hr : Alone p (Calls.promoteCold p k e) s answers st s') : Serves hash used c s' := by
  obtain ⟨res, s₁, as₁, as₂, hread, hr, -⟩ := Safe.bind noAudit_guard hr
  have h₁ := h.tame hread (tame (readS3_lasting e))
  cases res with
  | ok data =>
    cases h.recordAt hinj hd hz (readS3_ok hread)
    exact promoteInsert_serves h₁ hd hz hr
  | error st =>
    have hopen : (disk .breakerOpen >>= fun o => if o then pure .errBusy else pure .notFound :
        Code Status).Every Tame := by simp [disk]
    cases st with
    | errBusy => exact h₁.tame hr trivial
    | _ => exact h₁.tame hr hopen

theorem promoteSync_serves (hinj : Set.InjOn hash used) (h : Serves hash used c s)
    (he : s.disk.index k = some e) (hr : Alone p (Calls.promoteSync p k e) s answers st s') :
    Serves hash used c s' := by
  obtain ⟨d, hd, hz⟩ := h.entry k e he
  obtain ⟨n, env, res, t₁, -, -, hx, hr⟩ := alone_disk hr
  cases read_same hx
  cases res with
  | ok data =>
    cases h.recordAt hinj hd hz (read_ok hx)
    exact promoteInsert_serves h hd hz hr
  | busy => exact h.tame hr trivial
  | corrupt => exact h.tame hr trivial
  | _ => exact promoteCold_serves hinj h hd hz hr

theorem promoteOne_serves (hinj : Set.InjOn hash used) (h : Serves hash used c s)
    (hr : Alone p (Calls.promoteOne p k e) s answers st s') : Serves hash used c s' := by
  have hr := alone_disk_get hr
  cases he : s.disk.index k with
  | none =>
    rw [he] at hr
    exact h.tame hr trivial
  | some cur =>
    rw [he] at hr
    dsimp only at hr
    split at hr
    · next hcur => exact promoteSync_serves hinj h (hcur ▸ he) hr
    · exact h.tame hr trivial

theorem pinOp_serves (hinj : Set.InjOn hash used) (h : Serves hash used c s) {sub : PinSub}
    (hr : Alone p (Calls.pinOp p k sub) s answers st s') : Serves hash used c s' := by
  obtain ⟨st₁, s₁, as₁, as₂, hpin, hr, -⟩ := Safe.bind noAudit_guard hr
  have h₁ : Serves hash used c s₁ := h.tame hpin (by simp [Tier.pinOp, dram])
  cases st₁ with
  | notFound =>
    have hr := alone_disk_get hr
    cases he : s₁.disk.index k with
    | none =>
      rw [he] at hr
      exact h₁.tame hr trivial
    | some e =>
      rw [he] at hr
      cases sub with
      | pinHard =>
        obtain ⟨st₂, s₂, as₃, as₄, hprom, hans, -⟩ := Safe.bind noAudit_guard hr
        have h₂ := promoteSync_serves hinj h₁ he hprom
        refine h₂.tame hans ?_
        cases st₂ with
        | ok => simp [Tier.pinOp, dram]
        | _ => trivial
      | _ => exact h₁.tame hr (by simp [disk])
  | _ => exact h₁.tame hr trivial

/-! ### Demotions -/

theorem Serves.publish (h : Serves hash used c s) {r : BlockRef} {loc : Loc} (hd : c k = some d)
    (hz : z = hash d) : Serves hash used c (s.publish k r loc z) where
  known := h.known
  block := h.block
  entry k' e he := by
    change update s.disk.index k _ k' = some e at he
    by_cases hk : k' = k
    · subst hk
      rw [update_self, Option.some.injEq] at he
      subst he
      exact ⟨d, hd, hz⟩
    · rw [update_of_ne hk] at he
      exact h.entry k' e he
  record := h.record

theorem Serves.append (h : Serves hash used c s) {now env : ℕ}
    {res : Disk.AppendResult} {t' : Tiers} (hu : d ∈ used) (hz : z = hash d)
    (hx : Disk.exec now (.append k z d) env s.disk = some (res, t')) :
    Serves hash used c { s with disk := t' } where
  known := h.known
  block := h.block
  entry k' e he := by
    rcases disk_index_cases k' hx with hi | ⟨g, e', hg, -⟩
    · exact h.entry k' e (hi ▸ he)
    · cases hg
  record id rec hrec := by
    rcases disk_log_cases hx with hl | ⟨k', z', data, id', hap, hl⟩
    · exact h.record id rec (hl ▸ hrec)
    cases hap
    change rec ∈ t'.log id at hrec
    rw [hl] at hrec
    by_cases hid : id = id'
    · subst hid
      rw [update_self] at hrec
      rcases List.mem_append.mp hrec with hold | hnew
      · exact h.record id rec hold
      · rw [List.mem_singleton.mp hnew]
        exact ⟨hu, hz⟩
    · rw [update_of_ne hid] at hrec
      exact h.record id rec hrec

theorem onWritten_serves (h : Serves hash used c s) {d : Tier.Demotee} {loc : Loc}
    {bs : List UInt8} (hd : c k = some bs) (hz : d.ref.xxh3 = hash bs) {u : Unit}
    (hr : Alone p (Calls.onWritten k d loc) s answers u s') : Serves hash used c s' := by
  obtain ⟨_, s₁, as₁, as₂, hrel, hr, -⟩ := Safe.bind noAudit_guard hr
  have h₁ := h.tame hrel (tame (release_lasting d.ref))
  obtain ⟨done, s₂, as₃, as₄, hcomp, hr, -⟩ := Safe.bind noAudit_guard hr
  have h₂ : Serves hash used c s₂ := by
    obtain ⟨n, env, res, d₁, hinv, hneeds, hx, hcomp⟩ := alone_dram hcomp
    have hg := h₁.dramStep hinv hneeds hx trivial
    cases res with
    | error st => exact hg.tame hcomp trivial
    | ok r =>
      obtain ⟨n', env', _, s₃, rest, -, -, hxp, hcomp, -⟩ := Safe.act noAudit_guard hcomp
      cases hxp
      refine (hg.publish hd hz).tame hcomp ?_
      apply every_dram trivial
      intro _
      exact Prog.every_bind (tame (release_lasting r)) fun _ => trivial
  exact h₂.tame hr (by simp [disk])

theorem demoteWrite_serves (h : Serves hash used c s) {d : Tier.Demotee}
    (hd : c k = some d.data) (hz : d.ref.xxh3 = hash d.data) {u : Unit}
    (hr : Alone p (Calls.demoteWrite p k d) s answers u s') : Serves hash used c s' := by
  unfold Calls.demoteWrite at hr
  split at hr
  · exact h.tame hr (completeHere_tame d)
  obtain ⟨n, env, res, t₁, -, -, hx, hr⟩ := alone_disk hr
  have h₁ := h.append (h.known k _ hd) hz hx
  cases res with
  | written loc => exact onWritten_serves h₁ hd hz hr
  | _ => exact h₁.tame hr (tame (release_lasting d.ref))

theorem refForDemotion_data (h : Serves hash used c s) {o : Option Tier.Demotee}
    (hr : Alone p (Tier.refForDemotion k) s answers o s') :
    ∀ d, o = some d → c k = some d.data ∧ d.ref.xxh3 = hash d.data := by
  have hr := alone_dram_get hr
  intro d ho
  subst ho
  cases hb : s.dram.index k with
  | none =>
    rw [hb] at hr
    cases (hr.ret).1
  | some r =>
    rw [hb] at hr
    obtain ⟨bs, hbs, hz, hview⟩ := h.block k r hb
    dsimp only at hr
    split at hr
    · cases (hr.ret).1
    obtain ⟨-, _, ok, d₁, -, -, hx₁, hr⟩ := alone_dram hr
    cases ok with
    | false => cases (hr.ret).1
    | true =>
      obtain ⟨-, _, data, d₂, -, -, hx₂, hr⟩ := alone_dram hr
      obtain ⟨-, _, hits, d₃, -, -, -, hr⟩ := alone_dram hr
      obtain ⟨hd, -, -⟩ := hr.ret
      cases hd
      cases hx₂
      have hdata : d₁.view r.offset r.len = bs := by
        rw [view_congr (still_same hx₁ trivial).2, hview]
      change c k = some (d₁.view r.offset r.len) ∧ r.xxh3 = hash (d₁.view r.offset r.len)
      rw [hdata]
      exact ⟨hbs, hz⟩

theorem demoteOne_serves (h : Serves hash used c s) {u : Unit}
    (hr : Alone p (Calls.demoteOne p k) s answers u s') : Serves hash used c s' := by
  obtain ⟨o, s₁, as₁, as₂, href, hr, -⟩ := Safe.bind noAudit_guard hr
  have h₁ := h.tame href (tame refForDemotion_lasting)
  cases o with
  | none => exact h₁.tame hr trivial
  | some d =>
    obtain ⟨hd, hz⟩ := refForDemotion_data h href d rfl
    have hr := alone_disk_get hr
    cases he : s₁.disk.index k with
    | none =>
      rw [he] at hr
      exact demoteWrite_serves h₁ hd hz hr
    | some e =>
      rw [he] at hr
      dsimp only at hr
      split at hr
      · exact h₁.tame hr (completeHere_tame d)
      · exact demoteWrite_serves h₁ hd hz hr

/-! ### DELETE -/

theorem tame_absent {α : Type} {code : Code α} {y : α} (hr : Alone p code s answers y s')
    (hcode : code.Every Tame) :
    (s.dram.index k = none → s'.dram.index k = none) ∧
      (s.disk.index k = none → s'.disk.index k = none) := by
  constructor
  · apply hr.keeps noAudit_guard hcode (J := fun s' => s'.dram.index k = none)
    intro x s₁ n env r s₂ ht _ _ hx hj
    rcases node_dram_index_cases k hx with hi | ⟨o, l, z, rfl, -⟩ | ⟨-, hi⟩
    · rw [hi, hj]
    · exact ht.elim
    · exact hi
  · apply hr.keeps noAudit_guard hcode (J := fun s' => s'.disk.index k = none)
    intro x s₁ n env r s₂ ht _ _ hx hj
    rcases node_disk_index_cases k hx with hi | ⟨g, e, -, -, -, hi⟩ | ⟨r', loc, z, rfl, -⟩
    · rw [hi, hj]
    · exact hi
    · exact ht.elim

theorem dropEntry_absent {force : Bool} {res : Except Status NvmeRef}
    (hr : Alone p (Calls.dropEntry p k (.delete force)) s answers res s')
    (hres : res ≠ .error .errLeased ∧ res ≠ .error .errPinned) : s'.disk.index k = none := by
  obtain ⟨-, env, res₁, t₁, -, -, hx, hr⟩ := alone_disk hr
  unfold Disk.exec at hx
  dsimp only at hx
  split at hx
  · next hnone =>
    cases hx
    obtain ⟨-, -, rfl⟩ := hr.ret
    exact hnone
  next e he =>
  split at hx
  · cases hx
    exact (tame_absent hr (Prog.every_bind (tame (refundNvmeQuota_lasting _ _)) fun _ => trivial)).2
      (update_self ..)
  next hst =>
  cases hx
  obtain ⟨rfl, -, -⟩ := hr.ret
  exfalso
  revert hst hres
  simp only [Disk.DropGate.check, Disk.canDeleteNvme]
  split_ifs <;> simp

theorem dramDelete_absent {force : Bool}
    (hr : Alone p (Tier.delete k force) s answers st s') (hst : st = .ok ∨ st = .notFound) :
    s'.dram.index k = none := by
  obtain ⟨-, env, res, d₁, -, -, hx, hr⟩ := alone_dram hr
  unfold Tier.exec at hx
  dsimp only at hx
  split at hx
  · cases hx
  split at hx
  · next hnone =>
    cases hx
    obtain ⟨-, -, rfl⟩ := hr.ret
    exact hnone
  next r hb =>
  split at hx
  · cases hx
    obtain ⟨-, env', _, d₂, -, -, hx₂, hr⟩ := alone_dram hr
    cases hx₂
    refine (tame_absent hr ?_).1 (update_self ..)
    apply Prog.every_bind (tame (refundQuota_lasting r))
    intro _
    exact Prog.every_bind (tame (release_lasting r)) fun _ => trivial
  · next hno =>
    cases hx
    obtain ⟨rfl, -, -⟩ := hr.ret
    exfalso
    revert hno hst
    simp only [Tier.Gate.check, Tier.canDelete]
    split_ifs <;> simp

theorem delete_absent {force : Bool}
    (hr : Alone p (Calls.delete p k force) s answers st s') (hst : st = .ok) :
    s'.dram.index k = none ∧ s'.disk.index k = none := by
  obtain ⟨res, s₁, as₁, as₂, hdrop, hr, -⟩ := Safe.bind noAudit_guard hr
  have habsent : ∀ {st₁ as₃ s₂}, Alone p (Tier.delete k force) s₁ as₃ st₁ s₂ →
      (st₁ = .ok ∨ st₁ = .notFound) → res ≠ .error .errLeased ∧ res ≠ .error .errPinned →
      s₂.dram.index k = none ∧ s₂.disk.index k = none := by
    intro st₁ as₃ s₂ hdel hst₁ hres
    exact ⟨dramDelete_absent hdel hst₁,
      (tame_absent hdel (dramDelete_tame force)).2 (dropEntry_absent hdrop hres)⟩
  cases res with
  | error e =>
    cases e with
    | errLeased =>
      obtain ⟨rfl, -, -⟩ := hr.ret
      cases hst
    | errPinned =>
      obtain ⟨rfl, -, -⟩ := hr.ret
      cases hst
    | _ => exact habsent hr (.inl hst) (by simp)
  | ok e =>
    obtain ⟨st₁, s₂, as₃, as₄, hdel, hr, -⟩ := Safe.bind noAudit_guard hr
    cases st₁ with
    | notFound =>
      obtain ⟨-, -, rfl⟩ := hr.ret
      exact habsent hdel (.inr rfl) (by simp)
    | ok =>
      obtain ⟨-, -, rfl⟩ := hr.ret
      exact habsent hdel (.inl rfl) (by simp)
    | _ =>
      obtain ⟨rfl, -, -⟩ := hr.ret
      cases hst

end KVStash.Tiered.Content
