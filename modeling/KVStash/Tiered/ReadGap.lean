/- GID: KVStash/Tiered/ReadGap
   digest: While demotions move a block between tiers, a read that starts when the block is resident
     finds it. -/

import KVStash.Tiered.Footprint
import KVStash.Tiered.Frames

set_option autoImplicit false

namespace KVStash.Tiered.ReadGap

open Protocol Dram Tiered Tiered.System Tiered.Logic
open Tiered.Node Tiered.Frames Foundation.Run Foundation.Threads
open Dram.Tier (BlockRef Key)
open Tiered.Disk (Homed NvmeRef Tiers)

variable {p : Params} {k : Key} {s s' : State} {c : Code Unit}

/-! ### The window of a read -/

/-- A segment whose records can be read: its file is there and not retiring, or its
object can be read. -/
def Readable (p : Params) (t : Tiers) (id : ℕ) : Prop :=
  match t.segs id with
  | none => p.restore = true
  | some g => g.dying = true → g.spilled = true ∧ p.restore = true

def Resident (s : State) (k : Key) : Prop := s.dram.index k ≠ none ∨ s.disk.index k ≠ none

/-- No demotion of the key is under way, and the segment of its entry is readable. -/
structure Settled (p : Params) (k : Key) (q : NodePool) : Prop where
  idle : ∀ t ∈ q.threads, t.call = .demoteOne k → ∃ u, t.rest = .ret u
  readable : ∀ e, q.shared.disk.index k = some e → Readable p q.shared.disk e.loc.segmentID

def callOf (q : NodePool) (i : ℕ) : Option Call := (q.threads[i]?).map Thread.call

/-- What is left out while the thread `i` reads a key: inserts and removals of the key
other than a demotion's, the admission filter dropping it, the retirement of its segment,
and a cancelled context or a failing device of the reader. -/
def Calm (p : Params) (k : Key) (i j env : ℕ) (q : NodePool) : Act → Prop
  | .dram (.insert k' _ _ _) => k' ≠ k
  | .dram (.remove k') => k' = k → callOf q j = some (.demoteOne k)
  | .dram (.hits r) => r.key = k →
      q.shared.disk.index k ≠ none ∨ p.admitMinHits ≤ (q.shared.dram.cells r.id).hits
  | .disk (.deleteIf k' _) => k' ≠ k
  | .disk (.retireBegin id) => ∀ e ∈ q.shared.disk.index k, e.loc.segmentID ≠ id
  | .disk (.read _ _ _) => j = i → env ≤ 1
  | .disk (.readRange _) => j = i → env ≤ 1
  | _ => True

/-- An event of the window of a read. -/
def InWindow (p : Params) (k : Key) (i : ℕ) (q : NodePool) : Event Call → Prop
  | .spawn _ => True
  | .step j env => ∀ x ∈ q.action (.step j env), Calm p k i j env q x

instance (p : Params) (k : Key) (i j env : ℕ) (q : NodePool) (x : Act) :
    Decidable (Calm p k i j env q x) := by
  unfold Calm
  split <;> infer_instance

instance (p : Params) (k : Key) (i : ℕ) (q : NodePool) : (e : Event Call) →
    Decidable (InWindow p k i q e)
  | .spawn _ => isTrue trivial
  | .step j env =>
    inferInstanceAs (Decidable (∀ x ∈ q.action (.step j env), Calm p k i j env q x))

/-! ### Demotions -/

/-- The responses a demotion of a key gets while there is no entry below DRAM: it takes
the block out only after it published an entry. -/
def Unbacked (p : Params) (k : Key) : (x : Act) → x.Resp → Prop
  | .dram (.get k'), r => ∀ b, r = some b → b.key = k'
  | .dram (.hits b), n => b.key = k → p.admitMinHits ≤ n
  | .disk (.get k'), r => k' = k → r = none
  | .publish k' _ _ _, _ => k' ≠ k
  | _, _ => True

def Removes (k : Key) (x : Act) : Prop := x = .dram (.remove k)

private theorem release_avoids {r : BlockRef} {f : Unit → Code Unit}
    (hf : ∀ u, (f u).Avoids (Removes k) (Unbacked p k)) :
    (Tier.release r >>= f).Avoids (Removes k) (Unbacked p k) := by
  refine ⟨(nomatch ·), fun last _ => ?_⟩
  cases last with
  | false => exact hf ()
  | true =>
    change (Tier.free r >>= f).Avoids _ _
    unfold Tier.free
    split
    · exact hf ()
    · exact ⟨(nomatch ·), fun u _ => hf u⟩

private theorem onWritten_avoids (d : Tier.Demotee) (loc : Disk.Loc) :
    (Calls.onWritten k d loc).Avoids (Removes k) (Unbacked p k) := by
  apply release_avoids
  intro _
  refine ⟨(nomatch ·), fun passed _ => ?_⟩
  cases passed with
  | error st => exact ⟨(nomatch ·), fun _ _ => trivial⟩
  | ok r =>
    -- the publish comes first, and then there is an entry below
    exact ⟨(nomatch ·), fun _ hpub => absurd rfl hpub⟩

private theorem demoteWrite_avoids (d : Tier.Demotee) (hd : p.admitMinHits ≤ d.hits) :
    (Calls.demoteWrite p k d).Avoids (Removes k) (Unbacked p k) := by
  unfold Calls.demoteWrite
  rw [if_neg (Nat.not_lt.mpr hd)]
  have hrelease : (Tier.release d.ref).Avoids (Removes k) (Unbacked p k) := by
    rw [← Prog.bind_ret (Tier.release d.ref)]
    exact release_avoids fun _ => trivial
  refine ⟨(nomatch ·), fun written _ => ?_⟩
  cases written with
  | written loc => exact onWritten_avoids d loc
  | _ => exact hrelease

theorem demoteOne_avoids : (Calls.demoteOne p k).Avoids (Removes k) (Unbacked p k) := by
  refine ⟨(nomatch ·), fun found hkey => ?_⟩
  cases found with
  | none => trivial
  | some r =>
    have hr : r.key = k := hkey r rfl
    change (((if r.len = 0 then .ret none else dram (.acquire r) >>= fun ok =>
      if ok then dram (.view r.offset r.len) >>= fun data => dram (.hits r) >>= fun hits =>
        .ret (some ⟨r, data, hits⟩) else .ret none) : Code (Option Tier.Demotee)) >>= _).Avoids _ _
    split
    · trivial
    refine ⟨(nomatch ·), fun acquired _ => ?_⟩
    cases acquired with
    | false => trivial
    | true =>
      refine ⟨(nomatch ·), fun data _ => ⟨(nomatch ·), fun hits hh => ⟨(nomatch ·), ?_⟩⟩⟩
      intro below hb
      have hnone : below = none := hb rfl
      subst hnone
      exact demoteWrite_avoids _ (hh hr)

/-! ### The read -/

def afterCold (p : Params) (k : Key) (e : NvmeRef) : Except Status (List UInt8) → Code Unit
  | .ok data => Calls.serve p k e data
  | .error .errBusy => answer (.of .errBusy)
  | .error _ => answer (.of .notFound)

def afterRead (p : Params) (k : Key) (e : NvmeRef) : Disk.ReadResult → Code Unit
  | .ok data => Calls.serve p k e data
  | .busy => answer (.of .errBusy)
  | .cancelled => answer (.of .notFound)
  | .gone => Calls.readS3 p e >>= afterCold p k e
  | .corrupt => Calls.dropEntry p k (.heal e) >>= fun _ => answer (.of .notFound)

def belowDram (p : Params) (k : Key) : Code Unit :=
  disk (.get k) >>= fun o =>
    match o with
    | none => answer (.of .notFound)
    | some e => disk (.read e.loc k e.xxh3) >>= afterRead p k e

def afterDram (p : Params) (k : Key) : Option Tier.Held → Code Unit
  | some h => answer ⟨.ok, h.data, h.lease⟩ >>= fun _ => Tier.release h.ref
  | none => belowDram p k

/-- The half in DRAM after the lookup found a block. -/
def holdBlock (p : Params) (r : BlockRef) : Code (Option Tier.Held) :=
  dram (.acquire r) >>= fun ok =>
    if ok then
      Tier.grantReadLease p.dram r >>= fun lease => dram (.hit r) >>= fun _ =>
        (if 0 < r.len then dram (.view r.offset r.len) else pure []) >>= fun data =>
          pure (some ⟨r, data, lease⟩)
    else pure none

private theorem bind_congr {α β : Type} (c : Code α) {f g : α → Code β} (h : ∀ x, f x = g x) :
    c >>= f = c >>= g :=
  congrArg (c >>= ·) (funext h)

private theorem getRefTier_halves :
    Calls.getRefTier p k = Tier.getRef p.dram k >>= afterDram p k := by
  unfold Calls.getRefTier
  apply bind_congr
  intro o
  cases o with
  | some h => rfl
  | none =>
    apply bind_congr
    intro o
    cases o with
    | none => rfl
    | some e =>
      apply bind_congr
      intro x
      cases x with
      | gone =>
        apply bind_congr
        intro y
        cases y with
        | ok data => rfl
        | error st => cases st <;> rfl
      | _ => rfl

theorem getRef_eq : Tier.getRef p.dram k = dram (.get k) >>= fun o =>
    match o with
    | none => pure none
    | some r => holdBlock p r := by
  unfold Tier.getRef
  apply bind_congr
  intro o
  cases o with
  | none => rfl
  | some r =>
    apply bind_congr
    intro ok
    cases ok with
    | false => rfl
    | true =>
      by_cases hl : 0 < r.len
      · simp only [hl, if_true]
      · simp only [hl, if_true, if_false]

theorem getRefTier_eq : Calls.getRefTier p k = dram (.get k) >>= fun o =>
    (match o with
      | none => pure none
      | some r => holdBlock p r) >>= afterDram p k := by
  rw [getRefTier_halves, getRef_eq, Prog.bind_assoc]

/-- An answer with the block, or busy. -/
def Served (a : Answer) : Prop := a.status = .ok ∨ a.status = .errBusy

/-- An action that is not a miss. -/
def Found : Act → Prop
  | .answer a => Served a
  | _ => True

private theorem serve_found (e : NvmeRef) (data : List UInt8) :
    (Calls.serve p k e data).Every Found := by
  refine ⟨trivial, fun now => ⟨trivial, fun prev => ?_⟩⟩
  cases prev <;> exact ⟨.inl rfl, fun _ => trivial⟩

private theorem busy_found : (answer (.of .errBusy) : Code Unit).Every Found :=
  ⟨.inr rfl, fun _ => trivial⟩

/-- How far a read has come, with what it relies on. -/
inductive Stage (p : Params) (k : Key) (s : State) : Code Unit → Prop
  | start : Stage p k s (Calls.getRefTier p k)
  | probed (r : BlockRef) (hd : s.dram.index k = none ∨ s.dram.index k = some r) :
    Stage p k s (holdBlock p r >>= afterDram p k)
  | missed (hd : s.dram.index k = none) : Stage p k s (belowDram p k)
  | located (e : NvmeRef) (hd : s.dram.index k = none) (he : s.disk.index k = some e) :
    Stage p k s (disk (.read e.loc k e.xxh3) >>= afterRead p k e)
  | retired (e : NvmeRef) (hd : s.dram.index k = none) (he : s.disk.index k = some e)
    (hp : p.restore = true)
    (hs : ∀ g, s.disk.segs e.loc.segmentID = some g → g.spilled = true) :
    Stage p k s (Calls.readS3 p e >>= afterCold p k e)
  | flagged (e : NvmeRef) (hd : s.dram.index k = none) (he : s.disk.index k = some e)
    (hs : ∀ g, s.disk.segs e.loc.segmentID = some g → g.spilled = true) :
    Stage p k s (disk (.readRange e) >>= afterCold p k e)
  | sure (c : Code Unit) (hc : c.Every Found) : Stage p k s c

/-- What a step of the window does to the key. -/
structure Moves (k : Key) (s s' : State) : Prop where
  dram : s'.dram.index k = s.dram.index k ∨ s'.dram.index k = none
  disk : s.dram.index k = none → ∀ e, s.disk.index k = some e → s'.disk.index k = some e
  spilled : ∀ id < s.disk.nextSeg, (∀ g, s.disk.segs id = some g → g.spilled = true) →
    ∀ g, s'.disk.segs id = some g → g.spilled = true

theorem Stage.mono {m : Disk.Own}
    (hi : Disk.Inv noAudit s.disk m) (hm : Moves k s s') (h : Stage p k s c) : Stage p k s' c := by
  have hnone : s.dram.index k = none → s'.dram.index k = none := by
    intro hd
    rcases hm.dram with h | h
    · rw [h, hd]
    · exact h
  cases h with
  | start => exact .start
  | probed r hd =>
    apply Stage.probed
    rcases hm.dram with h | h
    · rwa [h]
    · exact .inl h
  | missed hd => exact .missed (hnone hd)
  | located e hd he => exact .located e (hnone hd) (hm.disk hd e he)
  | retired e hd he hp hs =>
    have hlt := (hi.recorded k e he).2.2.1
    exact .retired e (hnone hd) (hm.disk hd e he) hp (hm.spilled _ hlt hs)
  | flagged e hd he hs =>
    have hlt := (hi.recorded k e he).2.2.1
    exact .flagged e (hnone hd) (hm.disk hd e he) (hm.spilled _ hlt hs)
  | sure c hc => exact .sure c hc

theorem Stage.answered {a : Answer} {f : Unit → Code Unit}
    (h : Stage p k s c) (hc : c = .act (.answer a) f) : Served a := by
  cases h with
  | start =>
    rw [getRefTier_eq] at hc
    cases hc
  | retired e hd he hp hs =>
    unfold Calls.readS3 at hc
    rw [if_pos hp] at hc
    cases hc
  | sure c hcs =>
    subst hc
    exact hcs.1
  | _ => cases hc

section OwnSteps

variable {s s' : State} {m : Own} {e : NvmeRef} {env : ℕ}

private theorem acquire_missed (hi : Inv p noAudit s m) {r : BlockRef} {b : Bool}
    (hx : exec p (.dram (.acquire r)) env s = some (b, s')) (hb : b = false)
    (hd : s.dram.index k = none ∨ s.dram.index k = some r) : s.dram.index k = none := by
  rcases hd with hd | hd
  · exact hd
  exfalso
  have hm := hi.1.indexed k r hd
  have hcount := hi.1.counted r hm.1
  rw [hm.2, if_pos hd] at hcount
  subst hb
  change (Tier.exec p.dram (.acquire r) env s.dram).map _ = some (false, s') at hx
  unfold Tier.exec at hx
  dsimp only at hx
  rw [if_neg (by omega)] at hx
  cases hx

private theorem holdBlock_found (r : BlockRef) :
    ((Tier.grantReadLease p.dram r >>= fun lease => dram (.hit r) >>= fun _ =>
      (if 0 < r.len then dram (.view r.offset r.len) else pure []) >>= fun data =>
        (pure (some ⟨r, data, lease⟩) : Code (Option Tier.Held))) >>=
          afterDram p k).Every Found := by
  refine ⟨trivial, fun now => ⟨trivial, fun _ => ⟨trivial, fun _ => ⟨trivial, fun _ => ?_⟩⟩⟩⟩
  have hserved : ∀ data lease, (afterDram p k (some ⟨r, data, lease⟩)).Every Found :=
    fun data lease => ⟨.inl rfl, fun _ => Footprint.release_every r trivial trivial⟩
  by_cases hl : 0 < r.len
  · change (((if 0 < r.len then dram (.view r.offset r.len) else pure []) >>= _) >>= _).Every Found
    rw [if_pos hl]
    exact ⟨trivial, fun data => hserved data _⟩
  · change (((if 0 < r.len then dram (.view r.offset r.len) else pure []) >>= _) >>= _).Every Found
    rw [if_neg hl]
    exact hserved [] _

private theorem read_located (hi : Inv p noAudit s m) (he : s.disk.index k = some e)
    (hread : Readable p s.disk e.loc.segmentID) :
    (∃ data, s.disk.read e.loc k e.xxh3 = .ok data) ∨ (s.disk.read e.loc k e.xxh3 = .gone ∧
      p.restore = true ∧ ∀ g, s.disk.segs e.loc.segmentID = some g → g.spilled = true) := by
  obtain ⟨-, -, -, data, hdata⟩ := hi.2.recorded k e he
  unfold Tiers.read
  unfold Readable at hread
  cases hg : s.disk.segs e.loc.segmentID with
  | none =>
    rw [hg] at hread
    refine .inr ⟨rfl, hread, fun g h => ?_⟩
    cases h
  | some g =>
    rw [hg] at hread
    dsimp only at hread ⊢
    cases hdy : g.dying with
    | true =>
      obtain ⟨hsp, hp⟩ := hread hdy
      refine .inr ⟨rfl, hp, fun g' hg' => ?_⟩
      cases hg'
      exact hsp
    | false =>
      rw [hdata]
      exact .inl ⟨data, rfl⟩

private theorem spilled_object (hi : Inv p noAudit s m) (he : s.disk.index k = some e)
    (hs : ∀ g, s.disk.segs e.loc.segmentID = some g → g.spilled = true) :
    (s.disk.cells e.id).s3 = true ∧ s.disk.bucket e.loc.segmentID = true := by
  cases hg : s.disk.segs e.loc.segmentID with
  | some g => exact hi.2.spilled k e g he hg (hs g hg)
  | none =>
    apply hi.2.cold k e he
    by_contra hcold
    have := hi.2.home k e he (by simpa using hcold)
    rw [hg] at this
    cases this

theorem Stage.next (hi : Inv p noAudit s m) (hres : Resident s k)
    (hread : ∀ e, s.disk.index k = some e → Readable p s.disk e.loc.segmentID) {x : Act}
    {f : x.Resp → Code Unit} (h : Stage p k s c) (hc : c = .act x f) {r : x.Resp}
    (hx : exec p x env s = some (r, s')) (hdev : ∀ loc k' y, x = .disk (.read loc k' y) → env ≤ 1)
    (hobj : ∀ e, x = .disk (.readRange e) → env ≤ 1) : Stage p k s (f r) := by
  cases h with
  | start =>
    rw [getRefTier_eq] at hc
    cases hc
    obtain ⟨-, rfl, rfl⟩ := exec_get hx
    dsimp only
    cases hd : s.dram.index k with
    | none => exact .missed hd
    | some b => exact .probed b (.inr hd)
  | probed b hd =>
    cases hc
    cases hr : r with
    | false =>
      have hnone := acquire_missed hi hx hr hd
      exact .missed hnone
    | true => exact .sure _ (holdBlock_found b)
  | missed hd =>
    cases hc
    cases hx
    dsimp only
    rcases hres with hres | hres
    · exact absurd hd hres
    · obtain ⟨e, he⟩ := Option.ne_none_iff_exists'.mp hres
      rw [he]
      exact .located e hd he
  | located e hd he =>
    cases hc
    have henv := hdev _ _ _ rfl
    change (Disk.exec s.dram.now (.read e.loc k e.xxh3) env s.disk).map _ = some (r, s') at hx
    obtain rfl | rfl : env = 0 ∨ env = 1 := by omega
    · cases hx
      dsimp only
      rcases read_located hi he (hread e he) with ⟨data, hdata⟩ | ⟨hgone, hp, hs⟩
      · rw [hdata]
        exact .sure _ (serve_found e data)
      · rw [hgone]
        exact .retired e hd he hp hs
    · cases hx
      exact .sure _ busy_found
  | retired e hd he hp hs =>
    unfold Calls.readS3 at hc
    rw [if_pos hp] at hc
    cases hc
    cases hx
    dsimp only
    rw [(spilled_object hi he hs).1]
    exact .flagged e hd he hs
  | flagged e hd he hs =>
    cases hc
    have henv := hobj _ rfl
    change (Disk.exec s.dram.now (.readRange e) env s.disk).map _ = some (r, s') at hx
    obtain rfl | rfl : env = 0 ∨ env = 1 := by omega
    · obtain ⟨-, -, -, data, hdata⟩ := hi.2.recorded k e he
      have hrange : s.disk.readRange e = some data := by
        unfold Tiers.readRange
        rw [if_pos (spilled_object hi he hs).2, (hi.2.indexed k e he).2]
        exact hdata
      unfold Disk.exec at hx
      dsimp only at hx
      rw [hrange] at hx
      cases hx
      exact .sure _ (serve_found e data)
    · cases hx
      exact .sure _ busy_found
  | sure c hcs =>
    subst hc
    exact .sure _ (hcs.2 r)

end OwnSteps

/-! ### The window -/

/-- What holds throughout the window of a read. -/
structure Guarded (p : Params) (k : Key) (q : NodePool) : Prop where
  ok : (logic p noAudit).Ok q
  backed : q.shared.disk.index k = none → ∀ t ∈ q.threads, t.call = .demoteOne k →
    t.rest.Avoids (Removes k) (Unbacked p k)
  readable : ∀ e, q.shared.disk.index k = some e → Readable p q.shared.disk e.loc.segmentID

section Steps

variable {q : NodePool} {i j env : ℕ} {x : Act} {r : x.Resp} {s' : State}

private theorem spilled_step {id : ℕ} (hx : exec p x env s = some (r, s'))
    (hid : id < s.disk.nextSeg) (hs : ∀ g, s.disk.segs id = some g → g.spilled = true) :
    ∀ g, s'.disk.segs id = some g → g.spilled = true := by
  intro g' hg'
  rcases node_segs_cases hx with heq | ⟨y, r', -, hy⟩
  · exact hs g' (heq ▸ hg')
  have hstep := segs_cases hy hid
  generalize s.disk.segs id = o at hs hstep
  rw [hg'] at hstep
  cases hstep with
  | keep => exact hs g' rfl
  | sealed g | abort g | begin g => exact hs g rfl
  | spill | adopt => rfl

private theorem readable_step {id : ℕ} (hx : exec p x env s = some (r, s'))
    (hid : id < s.disk.nextSeg) (hbegin : x ≠ .disk (.retireBegin id))
    (hr : Readable p s.disk id) : Readable p s'.disk id := by
  rcases node_segs_cases hx with heq | ⟨y, r', rfl, hy⟩
  · unfold Readable
    rw [heq]
    exact hr
  have hstep := segs_cases hy hid
  unfold Readable at hr ⊢
  generalize s.disk.segs id = o at hr hstep
  generalize s'.disk.segs id = o' at hstep
  cases hstep with
  | keep | sealed => exact hr
  | spill => exact fun hd => ⟨rfl, (hr hd).2⟩
  | abort | adopt => exact fun hd => absurd hd Bool.false_ne_true
  | begin _ hx => exact absurd (congrArg Act.disk hx) hbegin
  | finish _ hd => exact (hr hd).2

private theorem publish_resident (hok : (logic p noAudit).Ok q) {r' : BlockRef} {loc : Disk.Loc}
    {y : ℕ} (hat : q.AtAction j (.publish k r' loc y)) : q.shared.dram.index k = some r' ∧
      ∃ g, q.shared.disk.segs loc.segmentID = some g ∧ g.dying = false := by
  obtain ⟨m, ⟨hd, ht⟩, hin, -, hw⟩ := needs_of_ok hok hat
  obtain ⟨⟨g, hg, hopen⟩, -, -⟩ := ht.wrote loc k y hw
  refine ⟨(hd.inside k r' (.inl hin)).1, g, hg, ?_⟩
  by_contra hdy
  have hsealed := (ht.files _ g hg).2.2 (by simpa using hdy)
  rw [hopen] at hsealed
  cases hsealed

private theorem step_moves (hok : (logic p noAudit).Ok q) (hat : q.AtAction j x)
    (hcalm : Calm p k i j env q x) (hx : exec p x env q.shared = some (r, s')) :
    Moves k q.shared s' where
  dram := by
    rcases node_dram_index_cases k hx with h | ⟨o, l, y, rfl, -⟩ | ⟨-, h⟩
    · exact .inl h
    · exact absurd rfl hcalm
    · exact .inr h
  disk hnone e he := by
    rcases node_disk_index_cases k hx with h | ⟨g, e', rfl, -⟩ | ⟨r', loc, y, rfl, -⟩
    · rw [h, he]
    · exact absurd rfl hcalm
    · rw [(publish_resident hok hat).1] at hnone
      cases hnone
  spilled id hid hs := spilled_step hx hid hs

private theorem unbacked_resp (hok : (logic p noAudit).Ok q) (hcalm : Calm p k i j env q x)
    (hx : exec p x env q.shared = some (r, s')) (hnone : q.shared.disk.index k = none)
    (hnone' : s'.disk.index k = none) : Unbacked p k x r := by
  obtain ⟨m, hd, -⟩ := hok.inv
  unfold Unbacked
  split
  · next k' r =>
    intro b hb
    obtain ⟨-, rfl, -⟩ := exec_get hx
    exact (hd.indexed k' b hb).2
  · next b n =>
    intro hb
    cases hx
    exact (hcalm hb).resolve_left (absurd hnone)
  · next k' r =>
    rintro rfl
    cases hx
    exact hnone
  · next k' r' loc y u =>
    rintro rfl
    cases hx
    rw [show (q.shared.publish k' r' loc y).disk.index k' = some _ from
      Disk.putThen_index_self] at hnone'
    cases hnone'
  · trivial

end Steps

section Window

variable {q q' : NodePool} {i : ℕ} {e : Event Call}

private theorem calm_of_inWindow {j env : ℕ} {x : Act} (hw : InWindow p k i q (.step j env))
    (hat : q.AtAction j x) : Calm p k i j env q x :=
  hw x (Pool.action_step_eq_some.mpr hat)

theorem Guarded.next (h : Guarded p k q) (hw : InWindow p k i q e)
    (he : (system p).next q e = some q') : Guarded p k q' := by
  refine ⟨h.ok.next (fun c hc => body_triple c hc) (noAudit_meets q e) he, ?_, ?_⟩
  · cases e with
    | spawn c =>
      cases he
      intro hnone t ht hcall
      rcases List.mem_append.mp ht with ht | ht
      · exact h.backed hnone t ht hcall
      rw [List.mem_singleton.mp ht] at hcall ⊢
      change c = _ at hcall
      subst hcall
      exact demoteOne_avoids
    | step j env =>
      obtain ⟨t, x, f, r, s, ht, hr, hx, rfl⟩ := System.next_step he
      have hat : q.AtAction j x := ⟨t, f, ht, hr⟩
      have hcalm := calm_of_inWindow hw hat
      intro hnone' t' ht' hcall
      have hnone : q.shared.disk.index k = none := by
        rcases node_disk_index_cases k hx with h | ⟨g, e', rfl, -⟩ | ⟨r', loc, y, -, h⟩
        · rw [← h]
          exact hnone'
        · exact absurd rfl hcalm
        · rw [show s.disk.index k = none from hnone'] at h
          cases h
      rcases List.mem_or_eq_of_mem_set ht' with ht' | rfl
      · exact h.backed hnone t' ht' hcall
      · have hav := h.backed hnone t (List.mem_of_getElem? ht) hcall
        rw [hr] at hav
        exact hav.2 r (unbacked_resp h.ok hcalm hx hnone hnone')
  · cases e with
    | spawn c =>
      cases he
      exact h.readable
    | step j env =>
      obtain ⟨t, x, f, r, s, ht, hr, hx, rfl⟩ := System.next_step he
      have hat : q.AtAction j x := ⟨t, f, ht, hr⟩
      have hcalm := calm_of_inWindow hw hat
      obtain ⟨m, -, hm⟩ := h.ok.inv
      intro e he'
      rcases node_disk_index_cases k hx with h' | ⟨g, e', rfl, -⟩ | ⟨r', loc, y, rfl, h'⟩
      · have he0 : q.shared.disk.index k = some e := h'.symm.trans he'
        apply readable_step hx (hm.recorded k e he0).2.2.1 ?_ (h.readable e he0)
        rintro rfl
        exact hcalm e he0 rfl
      · exact absurd rfl hcalm
      have he0 : some _ = some e := h'.symm.trans he'
      cases he0
      obtain ⟨g, hg, hdy⟩ := (publish_resident h.ok hat).2
      cases hx
      unfold Readable
      rw [show (q.shared.publish k r' loc y).disk.segs loc.segmentID = some g from hg]
      intro hd
      rw [hdy] at hd
      cases hd

theorem Resident.next (hres : Resident q.shared k) (h : Guarded p k q) (hw : InWindow p k i q e)
    (he : (system p).next q e = some q') : Resident q'.shared k := by
  cases e with
  | spawn c =>
    cases he
    exact hres
  | step j env =>
    obtain ⟨t, x, f, r, s, ht, hr, hx, rfl⟩ := System.next_step he
    have hat : q.AtAction j x := ⟨t, f, ht, hr⟩
    have hcalm := calm_of_inWindow hw hat
    rcases hres with hd | hd
    · rcases node_dram_index_cases k hx with h' | ⟨o, l, y, rfl, -⟩ | ⟨rfl, -⟩
      · left
        rw [← h'] at hd
        exact hd
      · exact absurd rfl hcalm
      · right
        cases hx
        change q.shared.disk.index k ≠ none
        intro hnone
        have hcall : t.call = .demoteOne k := by
          have := hcalm rfl
          unfold callOf at this
          rw [ht] at this
          exact Option.some.inj this
        have hav := h.backed hnone t (List.mem_of_getElem? ht) hcall
        rw [hr] at hav
        exact hav.1 rfl
    · right
      change s.disk.index k ≠ none
      rcases node_disk_index_cases k hx with h' | ⟨g, e', rfl, -⟩ | ⟨r', loc, y, -, h'⟩
      · rwa [h']
      · exact absurd rfl hcalm
      · rw [h']
        exact Option.some_ne_none _

/-- The thread at an index reads the key and has not missed it. -/
def Reading (p : Params) (k : Key) (i : ℕ) (q : NodePool) : Prop :=
  q.Follows i (Stage p k q.shared) Served

theorem Reading.next (hread : Reading p k i q) (hres : Resident q.shared k) (h : Guarded p k q)
    (hw : InWindow p k i q e) (he : (system p).next q e = some q') : Reading p k i q' := by
  obtain ⟨m, hm⟩ := h.ok.inv
  apply Pool.Follows.next (T := fun q => Stage p k q.shared) (U := fun _ => Served) hread he
  · exact fun t a _ _ ha => ha
  · intro t _ _ hst
    cases e with
    | spawn c =>
      cases he
      exact hst
    | step j env =>
      obtain ⟨u, x, f, r, s, hu, hr, hx, rfl⟩ := System.next_step he
      have hat : q.AtAction j x := ⟨u, f, hu, hr⟩
      exact hst.mono hm.2 (step_moves h.ok hat (calm_of_inWindow hw hat) hx)
  · rintro env x f r rfl hat hst hx
    have hcalm := calm_of_inWindow hw hat
    constructor
    · apply Stage.mono hm.2 (step_moves h.ok hat hcalm hx)
      apply hst.next hm hres h.readable rfl hx
      · rintro loc k' y rfl
        exact hcalm rfl
      · rintro e rfl
        exact hcalm rfl
    · intro a ha
      cases x with
      | answer b =>
        cases ha
        exact hst.answered rfl
      | _ => cases ha

end Window

/-! ### Runs -/

private theorem Settled.guarded {q : NodePool} (hok : (logic p noAudit).Ok q)
    (h : Settled p k q) : Guarded p k q where
  ok := hok
  backed _ t ht hcall := by
    obtain ⟨u, hu⟩ := h.idle t ht hcall
    rw [hu]
    trivial
  readable := h.readable

private def demoteBlock : List (Event Call) :=
  .spawn (.demoteOne ⟨0, 7⟩) :: take 2 [0, 0, 0, 0, 0, 0]

/-- A read looks it up; the demotion takes it out of DRAM before the read acquires it. -/
private def readBetween : List (Event Call) :=
  take 3 [0] ++ take 2 [0, 0, 0, 0, 0, 0, 0] ++ take 3 [0, 0, 0, 0, 0, 0]

end KVStash.Tiered.ReadGap
