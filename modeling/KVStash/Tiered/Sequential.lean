/- GID: KVStash/Tiered/Sequential
   digest: The tiered store run one operation at a time refines a map of committed puts. -/

import KVStash.Tiered.Placement
import Mathlib.Data.List.TakeWhile

set_option autoImplicit false

namespace KVStash.Tiered.Sequential

open Protocol Dram Tiered Tiered.System Tiered.Logic Option List
open Tiered.Node Tiered.Additions Tiered.Content
open Foundation.Run Foundation.Threads Foundation.Sequential
open Foundation.Resource.Logic (Triple)
open Dram.Tier (Key)
open Tiered.Disk (NvmeRef)

variable {p : Params} {k : Key}

/-! ### ExistsPrefix -/

/-- One key of an EXISTS: either index has it. -/
def hit (k : Key) : Code Bool := do
  match ← dram (.get k) with
  | some _ => pure true
  | none =>
    match ← disk (.get k) with
    | some _ => pure true
    | none => pure false

/-- The loop over the keys; the count stops at the first miss, the bitmap goes on. -/
def existsLoop (ns : ℕ) (withBitmap : Bool) : List ℕ → Bool → ℕ → List Status →
    Code (ℕ × List Status)
  | [], _, n, perKey => pure (n, perKey)
  | h :: keys, counting, n, perKey => do
    let found ← hit ⟨ns, h⟩
    let perKey := if withBitmap then perKey ++ [if found then .ok else .notFound] else perKey
    if found && counting then existsLoop ns withBitmap keys true (n + 1) perKey
    else existsLoop ns withBitmap keys false n perKey

def existsPrefix (ns : ℕ) (keys : List ℕ) (withBitmap : Bool) : Code (ℕ × List Status) :=
  existsLoop ns withBitmap keys true 0 []

private theorem hit_triple (k : Key) : (logic p noAudit).Triple (hit k) 0 fun _ m => m = 0 := by
  apply triple_dram (l := 0) (Tier.get_holds k fun _ => false) rfl trivial
  rintro o m' ⟨hsome, hnone⟩
  cases o with
  | some r =>
    rw [(hsome r rfl).1]
    exact rfl
  | none =>
    rw [hnone rfl]
    apply triple_quiet rfl
    intro o
    cases o <;> exact rfl

private theorem existsLoop_triple (ns : ℕ) (withBitmap : Bool) (keys : List ℕ) (counting : Bool)
    (n : ℕ) (perKey : List Status) :
    (logic p noAudit).Triple (existsLoop ns withBitmap keys counting n perKey) 0
      fun _ m => m = 0 := by
  induction keys generalizing counting n perKey with
  | nil => exact rfl
  | cons h keys ih =>
    apply Triple.bind
    apply (hit_triple ⟨ns, h⟩).mono
    rintro found _ rfl
    dsimp only
    split
    · exact ih ..
    · exact ih ..

def held (s : State) (k : Key) : Bool := (s.dram.index k).isSome || (s.disk.index k).isSome

theorem held_iff {s : State} : held s k = true ↔ ReadGap.Resident s k := by
  simp [held, ReadGap.Resident, isSome_iff_ne_none]

private theorem hit_found {s s' : State} {answers : List Answer} {found : Bool}
    (hr : Alone p (hit k) s answers found s') : found = held s k ∧ answers = [] ∧ s' = s := by
  have hr := alone_dram_get hr
  cases hb : s.dram.index k with
  | some r =>
    rw [hb] at hr
    simp only [held, hb, isSome_some, Bool.true_or]
    exact hr.ret
  | none =>
    rw [hb] at hr
    have hr := alone_disk_get hr
    simp only [held, hb, isSome_none, Bool.false_or]
    cases he : s.disk.index k
    all_goals
      rw [he] at hr
      exact hr.ret

theorem existsLoop_found {s s' : State} {ns : ℕ} {withBitmap : Bool} {keys : List ℕ}
    {counting : Bool} {n : ℕ} {perKey : List Status} {answers : List Answer} {x : ℕ × List Status}
    (hr : Alone p (existsLoop ns withBitmap keys counting n perKey) s answers x s') :
    s' = s ∧
    x.1 = n + (if counting then (keys.takeWhile fun h => held s ⟨ns, h⟩).length else 0) ∧
    x.2 = perKey ++ (if withBitmap then
      keys.map fun h => if held s ⟨ns, h⟩ then .ok else .notFound else []) := by
  induction keys generalizing s counting n perKey answers with
  | nil =>
    obtain ⟨rfl, -, rfl⟩ := hr.ret
    simp
  | cons h keys ih =>
    obtain ⟨found, s₁, as₁, as₂, hhit, hr, -⟩ := Safe.bind noAudit_guard hr
    obtain ⟨rfl, -, rfl⟩ := hit_found hhit
    have hbits : ∀ b : Bool, (if withBitmap then perKey ++ [if b then Status.ok else .notFound]
        else perKey) ++ (if withBitmap then
          keys.map fun h => if held s₁ ⟨ns, h⟩ then Status.ok else .notFound else []) =
        perKey ++ (if withBitmap then (if b then Status.ok else .notFound) ::
          keys.map (fun h => if held s₁ ⟨ns, h⟩ then Status.ok else .notFound) else []) := by
      intro b
      cases withBitmap <;> simp
    dsimp only at hr
    split at hr
    · next hcount =>
      rw [Bool.and_eq_true] at hcount
      obtain ⟨rfl, hn, hper⟩ := ih hr
      refine ⟨rfl, ?_, hper.trans (hbits _)⟩
      rw [hn, hcount.2]
      simp [hcount.1]
      omega
    · next hcount =>
      obtain ⟨rfl, hn, hper⟩ := ih hr
      refine ⟨rfl, ?_, hper.trans (hbits _)⟩
      rw [hn]
      cases counting with
      | false => simp
      | true =>
        have hmiss : held s' ⟨ns, h⟩ = false := by simpa using hcount
        simp [hmiss]

/-! ### Operations and the map they commit to -/

/-- The operations of the tiered store: its verbs, the passes that move blocks between the
tiers, the writer's rotations and the passing of time. -/
inductive Op
  | put (k : Key) (data : List UInt8) (xxh3 : ℕ)
  | getRefTier (k : Key)
  | contains (k : Key)
  | existsPrefix (ns : ℕ) (keys : List ℕ) (withBitmap : Bool)
  | delete (k : Key) (force : Bool)
  | touchLease (k : Key) (sub : TouchSub) (ttlMS : ℕ)
  | pinOp (k : Key) (sub : PinSub)
  | evictOne (k : Key) (emergency : Bool)
  | demoteOne (k : Key)
  | promoteOne (k : Key) (e : NvmeRef)
  | reclaimSegment (from_ : ℕ)
  | spillOne (id : ℕ)
  | restoreOne (k : Key) (e : NvmeRef)
  | lateAdopt (id : ℕ)
  | collectOne
  | rotate
  | tryRecoverWrites
  | advance (d : ℕ)

def Op.code (p : Params) : Op → Code Unit
  | .put k data xxh3 => body p (.put k data xxh3)
  | .getRefTier k => body p (.getRef k)
  | .contains k => body p (.contains k)
  | .existsPrefix ns keys withBitmap => do
    let _ ← Sequential.existsPrefix ns keys withBitmap
    pure ()
  | .delete k force => body p (.delete k force)
  | .touchLease k sub ttlMS => body p (.touchLease k sub ttlMS)
  | .pinOp k sub => body p (.pinOp k sub)
  | .evictOne k emergency => body p (.evictOne k emergency)
  | .demoteOne k => body p (.demoteOne k)
  | .promoteOne k e => body p (.promoteOne k e)
  | .reclaimSegment from_ => body p (.reclaimSegment from_)
  | .spillOne id => body p (.spillOne id)
  | .restoreOne k e => body p (.restoreOne k e)
  | .lateAdopt id => body p (.lateAdopt id)
  | .collectOne => body p .collectOne
  | .rotate => body p .rotate
  | .tryRecoverWrites => body p .tryRecoverWrites
  | .advance d => body p (.advance d)

theorem Op.code_triple (op : Op) : (logic p noAudit).Triple (op.code p) 0 fun _ m => m = 0 := by
  cases op with
  | put k data z => exact body_triple (.put k data z) (nomatch ·)
  | existsPrefix ns keys withBitmap =>
    apply Triple.bind
    exact existsLoop_triple ns withBitmap keys true 0 []
  | getRefTier k => exact body_triple (.getRef k) trivial
  | contains k => exact body_triple (.contains k) trivial
  | delete k force => exact body_triple (.delete k force) trivial
  | touchLease k sub ttlMS => exact body_triple (.touchLease k sub ttlMS) trivial
  | pinOp k sub => exact body_triple (.pinOp k sub) trivial
  | evictOne k emergency => exact body_triple (.evictOne k emergency) trivial
  | demoteOne k => exact body_triple (.demoteOne k) trivial
  | promoteOne k e => exact body_triple (.promoteOne k e) trivial
  | reclaimSegment from_ => exact body_triple (.reclaimSegment from_) trivial
  | spillOne id => exact body_triple (.spillOne id) trivial
  | restoreOne k e => exact body_triple (.restoreOne k e) trivial
  | lateAdopt id => exact body_triple (.lateAdopt id) trivial
  | collectOne => exact body_triple .collectOne trivial
  | rotate => exact body_triple .rotate trivial
  | tryRecoverWrites => exact body_triple .tryRecoverWrites trivial
  | advance d => exact body_triple (.advance d) trivial

def accepted (answers : List Answer) : Bool := answers.any fun a => a.status = .ok

/-- The abstract store: a put that answers OK stands for its key until a delete that
answers OK. -/
def commit (c : Contents) : Op × List Answer → Contents
  | (.put k data _, answers) =>
    if accepted answers then Function.update c k (some data) else c
  | (.delete k _, answers) => if accepted answers then Function.update c k none else c
  | _ => c

/-- What a history of operations has committed, from nothing. -/
def committed (history : List (Op × List Answer)) : Contents := history.foldl commit fun _ => none

/-- A put carries the digest of its bytes, and its bytes are among those in use. -/
def Op.Hashed (hash : List UInt8 → ℕ) (used : Set (List UInt8)) : Op → Prop
  | .put _ data xxh3 => xxh3 = hash data ∧ data ∈ used
  | _ => True

/-! ### One operation -/

variable {hash : List UInt8 → ℕ} {used : Set (List UInt8)} {c : Contents} {s s' : State}
  {answers : List Answer}

theorem put_silent (k : Key) (data : List UInt8) (z : ℕ) :
    (Calls.put p k data z).Every fun x => ∀ a, x ≠ .answer a := by
  have hget : ∀ a, Act.disk (.get k) ≠ .answer a := fun a ha => nomatch ha
  apply every_disk hget
  intro o
  cases o with
  | some e => trivial
  | none =>
    apply Prog.every_bind ((Footprint.put_inner p.dram data z).mono fun _ => inner_silent)
    intro st
    cases st with
    | ok =>
      apply every_disk hget
      intro o
      cases o with
      | none => trivial
      | some e =>
        dsimp only
        split
        · trivial
        · exact Prog.every_bind (dramDelete_silent true) fun _ => trivial
    | _ => trivial

private theorem delete_silent (k : Key) (force : Bool) :
    (Calls.delete p k force).Every fun x => ∀ a, x ≠ .answer a := by
  apply Prog.every_bind (dropEntry_silent _)
  intro res
  cases res with
  | error st =>
    cases st with
    | errLeased => trivial
    | errPinned => trivial
    | _ => exact dramDelete_silent force
  | ok e =>
    apply Prog.every_bind (dramDelete_silent force)
    intro st
    cases st <;> trivial

theorem accepted_of {st : Status} : accepted [.of st] = true ↔ st = .ok := by
  simp [accepted, Answer.of]

theorem Op.serves (hinj : Set.InjOn hash used) (h : Serves hash used c s) {op : Op}
    (hop : op.Hashed hash used) (hr : Alone p (op.code p) s answers () s') :
    Serves hash used (commit c (op, answers)) s' := by
  cases op with
  | put k data z =>
    obtain ⟨before, st, hput, rfl⟩ := alone_replying hr
    rw [alone_silent hput (put_silent k data z), nil_append]
    obtain ⟨hok, hno⟩ := put_serves h hop.1 hop.2 hput
    unfold commit
    dsimp only
    split
    · next hacc => exact hok (accepted_of.mp hacc)
    · next hacc => exact hno fun hst => hacc (accepted_of.mpr hst)
  | delete k force =>
    obtain ⟨before, st, hdel, rfl⟩ := alone_replying hr
    rw [alone_silent hdel (delete_silent k force), nil_append]
    have hkept := h.tame hdel (delete_tame force)
    unfold commit
    dsimp only
    split
    · next hacc =>
      obtain ⟨hb, he⟩ := delete_absent hdel (accepted_of.mp hacc)
      exact hkept.forget hb he fun d hd => nomatch hd
    · exact hkept
  | getRefTier k => exact h.tame hr (tame getRefTier_lasting)
  | contains k => exact h.tame hr (tame contains_lasting)
  | existsPrefix ns keys withBitmap =>
    obtain ⟨x, s₁, as₁, as₂, hloop, hend, -⟩ := Safe.bind noAudit_guard hr
    obtain ⟨-, -, rfl⟩ := hend.ret
    rw [(existsLoop_found hloop).1]
    exact h
  | touchLease k sub ttlMS =>
    refine h.tame hr (Prog.every_bind (touchLease_tame sub ttlMS) fun _ => ?_)
    simp [answer]
  | pinOp k sub =>
    obtain ⟨before, st, hpin, -⟩ := alone_replying hr
    exact pinOp_serves hinj h hpin
  | evictOne k emergency =>
    exact h.tame hr (Prog.every_bind (dramEvictOne_tame emergency) fun _ => trivial)
  | demoteOne k => exact demoteOne_serves h hr
  | promoteOne k e =>
    obtain ⟨before, st, hprom, -⟩ := alone_replying hr
    exact promoteOne_serves hinj h hprom
  | reclaimSegment from_ => exact h.tame hr (tame (reclaimSegment_lasting from_))
  | spillOne id => exact h.tame hr (tame (spillOne_lasting id))
  | restoreOne k e => exact h.tame hr (tame (restoreOne_lasting e))
  | lateAdopt id => exact h.tame hr (tame (lateAdopt_lasting id))
  | collectOne => exact h.tame hr (tame collectOne_lasting)
  | rotate => exact h.tame hr (tame rotate_lasting)
  | tryRecoverWrites => exact h.tame hr (tame tryRecoverWrites_lasting)
  | advance d => exact h.tame hr ⟨trivial, fun _ => trivial⟩

/-! ### Sequences of operations -/

/-- A node that ran some operations one at a time, with their history. -/
abbrev Session : Type := State × List (Op × List Answer)

/-- One operation of a session with the choices it meets. -/
def perform (p : Params) : Session → Op × List ℕ → Option Session := turn (system p) (Op.code p)

/-- Nothing is in progress, and the tiers hold what the history committed. -/
structure Agreed (hash : List UInt8 → ℕ) (used : Set (List UInt8)) (p : Params) (w : Session) :
    Prop where
  idle : Inv p noAudit w.1 0
  serves : Serves hash used (committed w.2) w.1

theorem Agreed.alone {w : Session} (h : Agreed hash used p w) {α : Type} {code : Code α} {x : α}
    (ht : (logic p noAudit).Triple code 0 fun _ m => m = 0)
    (hr : Runs (system p) code w.1 answers x s') : Alone p code w.1 answers x s' :=
  ⟨0, _, ht, h.idle, hr⟩

theorem Agreed.next {w w' : Session} {e : Op × List ℕ} (hinj : Set.InjOn hash used)
    (h : Agreed hash used p w) (hop : e.1.Hashed hash used) (he : perform p w e = some w') :
    Agreed hash used p w' := by
  obtain ⟨answers, hr, hist⟩ := turn_eq_some he
  obtain ⟨_, hidle, rfl⟩ := Safe.ends noAudit_guard e.1.code_triple h.idle hr
  refine ⟨hidle, ?_⟩
  rw [hist, committed, foldl_append]
  exact Op.serves hinj h.serves hop (h.alone e.1.code_triple hr)

theorem start_agreed (now : ℕ) : Agreed hash used p (Recovery.empty.start now, []) := by
  have hz : Sized noAudit Recovery.empty := ⟨(nomatch ·), (nomatch ·)⟩
  refine ⟨start_inv Recovery.empty_sound hz now, ?_⟩
  constructor
  · intro k d hd
    cases hd
  · intro k r hr
    cases hr
  · intro k e he
    cases he
  · intro id rec hrec
    cases hrec

theorem run_agreed {now : ℕ} {es : List (Op × List ℕ)} {w : Session}
    (hinj : Set.InjOn hash used) (hops : ∀ e ∈ es, e.1.Hashed hash used)
    (hr : run (perform p) (Recovery.empty.start now, []) es = some w) : Agreed hash used p w := by
  have halong : Along (perform p) (fun _ e => e.1.Hashed hash used)
      (Recovery.empty.start now, []) es := by
    clear hr
    generalize (Recovery.empty.start now, []) = w₀
    induction es generalizing w₀ with
    | nil => trivial
    | cons e es ih =>
      refine ⟨hops e mem_cons_self, fun w₁ _ => ?_⟩
      exact ih (fun e' he' => hops e' (mem_cons_of_mem e he')) w₁
  exact run_invariant (fun _ _ _ h hop he => h.next hinj hop he) (start_agreed now) halong hr

theorem committed_never_put {es : List (Op × List ℕ)} {w w' : Session}
    (hr : run (perform p) w es = some w') (hk : ∀ data z, Op.put k data z ∉ es.map Prod.fst)
    (h : committed w.2 k = none) : committed w'.2 k = none := by
  induction es generalizing w with
  | nil =>
    cases hr
    exact h
  | cons e es ih =>
    obtain ⟨w₁, he, hr⟩ := run_cons_eq_some hr
    apply ih hr fun data z hmem => hk data z (mem_cons_of_mem _ hmem)
    obtain ⟨answers, -, hist⟩ := turn_eq_some he
    rw [hist, committed, foldl_append]
    change commit (committed w.2) (e.1, answers) k = none
    obtain ⟨op, envs⟩ := e
    cases op with
    | put k' data z =>
      have hne : k ≠ k' := by
        rintro rfl
        exact hk data z mem_cons_self
      dsimp only [commit]
      split
      · rw [Function.update_of_ne hne, h]
      · exact h
    | delete k' force =>
      dsimp only [commit]
      split
      · by_cases hkk : k = k'
        · rw [hkk, Function.update_self]
        · rw [Function.update_of_ne hkk, h]
      · exact h
    | _ => exact h

theorem Agreed.absent {w : Session} (h : Agreed hash used p w)
    (hk : committed w.2 k = none) : ¬ ReadGap.Resident w.1 k := by
  rintro (hb | he)
  · obtain ⟨r, hr⟩ := ne_none_iff_exists'.mp hb
    obtain ⟨d, hd, -⟩ := h.serves.block k r hr
    rw [hk] at hd
    cases hd
  · obtain ⟨e, hr⟩ := ne_none_iff_exists'.mp he
    obtain ⟨d, hd, -⟩ := h.serves.entry k e hr
    rw [hk] at hd
    cases hd

private theorem contains_answers {u : Unit} (hr : Alone p (Calls.contains k) s answers u s') :
    answers = [.of (if held s k then .ok else .notFound)] := by
  have hr := alone_dram_get hr
  cases hb : s.dram.index k with
  | some r =>
    rw [hb] at hr
    simp only [held, hb, isSome_some, Bool.true_or, if_true]
    exact (alone_last hr).1
  | none =>
    rw [hb] at hr
    have hr := alone_disk_get hr
    simp only [held, hb, isSome_none, Bool.false_or]
    cases he : s.disk.index k
    all_goals
      rw [he] at hr
      exact (alone_last hr).1

/-- Run one at a time from an empty node, in any order and with any choices of the
devices, the operations refine the map of committed puts, as long as the bytes in use
have digests of their own. After any sequence: a GET that answers OK returns the bytes of
the put that committed its key since the last delete; a key that no put committed is
found by no GET and by no EXISTS, and a key that was never put is such a key; and a put of
other bytes under a key that either tier holds is refused and changes nothing. -/
theorem sequential_refinement {now : ℕ} {es : List (Op × List ℕ)} {w : Session}
    (hinj : Set.InjOn hash used) (hops : ∀ e ∈ es, e.1.Hashed hash used)
    (hr : run (perform p) (Recovery.empty.start now, []) es = some w) :
    (∀ k answers s', Runs (system p) (Op.code p (.getRefTier k)) w.1 answers () s' →
      ∀ a ∈ answers, a.status = .ok → committed w.2 k = some a.data) ∧
    (∀ k, (∀ data z, Op.put k data z ∉ es.map Prod.fst) → committed w.2 k = none) ∧
    (∀ k, committed w.2 k = none →
      (∀ answers s', Runs (system p) (Op.code p (.getRefTier k)) w.1 answers () s' →
        ∀ a ∈ answers, a.status ≠ .ok) ∧
      (∀ answers s', Runs (system p) (Op.code p (.contains k)) w.1 answers () s' →
        answers = [.of .notFound])) ∧
    (∀ ns keys withBitmap answers n (perKey : List Status) s',
      Runs (system p) (existsPrefix ns keys withBitmap) w.1 answers (n, perKey) s' →
        (∀ h ∈ keys.take n, committed w.2 ⟨ns, h⟩ ≠ none) ∧
        ∀ (i h : ℕ), keys[i]? = some h → perKey[i]? = some .ok → committed w.2 ⟨ns, h⟩ ≠ none) ∧
    (∀ k data, ReadGap.Resident w.1 k → data ∈ used → committed w.2 k ≠ some data →
      ∀ answers s', Runs (system p) (Op.code p (.put k data (hash data))) w.1 answers () s' →
        answers = [.of .errImmutableConflict] ∧ s' = w.1) := by
  have h := run_agreed hinj hops hr
  have hserved : ∀ k answers s', Runs (system p) (Op.code p (.getRefTier k)) w.1 answers () s' →
      ∀ a ∈ answers, a.status = .ok → committed w.2 k = some a.data := fun k answers s' hget =>
    getRefTier_answers hinj h.serves (h.alone (Op.code_triple (.getRefTier k)) hget)
  have hheld : ∀ {k}, held w.1 k = true → committed w.2 k ≠ none := fun hk hnone =>
    h.absent hnone (held_iff.mp hk)
  refine ⟨hserved, fun k hk => committed_never_put hr hk rfl, fun k hk => ⟨?_, ?_⟩, ?_, ?_⟩
  · intro answers s' hget a ha hok
    have := hserved k answers s' hget a ha hok
    rw [hk] at this
    cases this
  · intro answers s' hcontains
    rw [contains_answers (h.alone (Op.code_triple (.contains k)) hcontains), if_neg]
    exact fun hk' => hheld hk' hk
  · intro ns keys withBitmap answers n perKey s' hex
    obtain ⟨-, hn, hper⟩ := existsLoop_found
      (h.alone (existsLoop_triple ns withBitmap keys true 0 []) hex)
    constructor
    · intro x hx
      dsimp only at hn
      rw [hn, if_pos rfl, Nat.zero_add] at hx
      apply hheld
      have hpre := takeWhile_prefix (l := keys) fun h => held w.1 ⟨ns, h⟩
      rw [← prefix_iff_eq_take.mp hpre] at hx
      have hkept := mem_takeWhile_imp hx
      exact hkept
    · intro i x hx hst
      apply hheld
      dsimp only at hper
      rw [hper, nil_append] at hst
      split at hst
      · rw [getElem?_map, hx, map_some, some.injEq] at hst
        by_contra hmiss
        rw [if_neg hmiss] at hst
        cases hst
      · cases hst
  · intro k data hres hu hd answers s' hput
    obtain ⟨before, st, hcall, rfl⟩ :=
      alone_replying (h.alone (Op.code_triple (.put k data (hash data))) hput)
    obtain ⟨rfl, rfl, rfl⟩ := put_resident hinj h.serves hres rfl hu hd hcall
    exact ⟨rfl, rfl⟩

/-- A block is put and moved to a segment that was opened for it. -/
def putAndDemote : List (Op × List ℕ) :=
  [(.put ⟨1, 5⟩ [7] 1, [0, 0, 1, 0, 0, 0, 0, 0]), (.tryRecoverWrites, [0]),
    (.demoteOne ⟨1, 5⟩, replicate 13 0)]

/-- The GET of a demoted block returns the bytes that its put committed. -/
theorem sequential_refinement_demoted : ∃ w a s',
    run (perform small) (Recovery.empty.start 0, []) putAndDemote = some w ∧
    Runs (system small) (Op.code small (.getRefTier ⟨1, 5⟩)) w.1 [a] () s' ∧
    a.status = .ok ∧ a.data = [7] ∧ committed w.2 ⟨1, 5⟩ = some [7] := by
  have hrun : ∃ w ∈ run (perform small) (Recovery.empty.start 0, []) putAndDemote,
      ∃ y ∈ replay (system small) (Op.code small (.getRefTier ⟨1, 5⟩)) (replicate 6 0) w.1,
        y.2.1 = [⟨.ok, [7], 0⟩] := by decide +kernel
  obtain ⟨w, hw, ⟨u, answers, s'⟩, hs', hans⟩ := hrun
  have hans : answers = [⟨.ok, [7], 0⟩] := hans
  subst hans
  have hinj : Set.InjOn length ({[7]} : Set (List UInt8)) := Set.injOn_singleton _ _
  have hops : ∀ e ∈ putAndDemote, e.1.Hashed length {[7]} := by
    intro e he
    simp only [putAndDemote, mem_cons, not_mem_nil, or_false] at he
    rcases he with rfl | rfl | rfl
    · exact ⟨rfl, rfl⟩
    · trivial
    · trivial
  have hruns : Runs (system small) (Op.code small (.getRefTier ⟨1, 5⟩)) w.1 [⟨.ok, [7], 0⟩] () s' :=
    ⟨_, hs'⟩
  refine ⟨w, _, s', hw, hruns, rfl, rfl, ?_⟩
  exact (sequential_refinement hinj hops hw).1 _ _ _ hruns _ mem_cons_self rfl

end KVStash.Tiered.Sequential
