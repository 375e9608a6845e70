/- GID: KVStash/Client/AnyServer
   digest: The client's GET against any byte stream: what a clean return says about the stream. -/

import KVStash.Client.Get

set_option autoImplicit false

namespace KVStash.Client

open Foundation.Bytes Nvme Wire Checked List

/-! ## The call and the pool -/

/-- Why the call fails before anything is sent, or while the answer is read. -/
inductive CallError where
  | slots (into keys : ℕ)
  | tooManyKeys (keys : ℕ) (max : UInt32)
  | read (e : ReadError)
  deriving DecidableEq, Repr

/-- The client's GET on a connection whose stream is `s`: the slots, the result and the stream left
behind. -/
def batchGetInto (dg : Digests) (hash : List UInt8 → UInt64) (verify : Bool) (pace : ℕ → ℕ)
    (limits : Limits) (keys : ℕ) (into : List (Option (List UInt8))) (s : List UInt8) :
    List (Option (List UInt8)) × Except CallError (List Status) × List UInt8 :=
  if keys = 0 then (into, .ok [], s)
  else if into.length ≠ keys then (into, .error (.slots into.length keys), s)
  else if limits.maxBatchKeys < UInt32.ofNat keys
    then (into, .error (.tooManyKeys keys limits.maxBatchKeys), s)
  else
    match readGetInto dg hash verify pace keys into s with
    | (g, .ok statuses, rest) => (g.into, .ok statuses, rest)
    | (g, .error e, rest) => (g.into, .error (.read e), rest)

/-- The results after which the pool keeps the connection: no error, or a status the server
answered. -/
def clean : Except CallError (List Status) → Bool
  | .ok _ => true
  | .error (.read (.status _)) => true
  | .error _ => false

/-- The headers the client accepts. -/
def goParse (dg : Digests) (hb : List UInt8) : Option Header :=
  match parseHeader dg hb defaultMaxFrameLen with
  | .ok h => some h
  | _ => none

/-! ## What one read does -/

variable {t rest s a b block' : List UInt8} {g' g₁ : GetState} {i n m j keys : ℕ} {h : Header}

theorem nextHeader_behind {dg : Digests} (hn : nextHeader dg s = .ok (h, t)) :
    ∃ s', Behind (goParse dg) s [] s' ∧ headerAt (goParse dg) s' = some (h, t) ∧
      isCredit h = false := by
  fun_induction nextHeader dg s with
  | case5 s hb rest hread h' hp hc skipped rest' hskip ih =>
    obtain ⟨s', hbehind, hhead, hcredit⟩ := ih hn
    obtain ⟨hlen, rfl⟩ := readFull_eq_some hread
    obtain ⟨hskiplen, rfl⟩ := readFull_eq_some hskip
    have hat : headerAt (goParse dg) (hb ++ (skipped ++ rest')) = some (h', skipped ++ rest') :=
      headerAt_append hlen (by rw [goParse, hp]) _
    refine ⟨s', .credit hat hc ?_ ?_, hhead, hcredit⟩
    · rw [length_append, hskiplen]
      exact Nat.le_add_right _ _
    · rwa [drop_left' hskiplen]
  | case6 s hb rest hread h' hp hc =>
    obtain ⟨rfl, rfl⟩ := Prod.mk.inj (Except.ok.inj hn)
    obtain ⟨hlen, rfl⟩ := readFull_eq_some hread
    exact ⟨_, .here _, headerAt_append hlen (by rw [goParse, hp]) _,
      Bool.eq_false_of_not_eq_true hc⟩
  | _ => cases hn

section Reading

variable {hash : List UInt8 → UInt64} {pace : ℕ → ℕ} {keys : ℕ}

theorem readFull_eq (h : readFull n s = some (a, b)) :
    n ≤ s.length ∧ a = s.take n ∧ b = s.drop n := by
  unfold readFull at h
  split_ifs at h with hshort
  obtain ⟨ha, hb⟩ := Prod.mk.inj (Option.some.inj h)
  exact ⟨Nat.not_lt.mp hshort, ha.symm, hb.symm⟩

variable {g : GetState} {slot : ℕ} {d : Desc} {block : List UInt8}

theorem readGetFrame_status {verify : Bool} {st : Status}
    (hr : readGetFrame hash verify pace keys h g t = (g', .error (.status st), rest)) :
    h.payloadLen.toNat ≤ t.length ∧ rest = t.drop h.payloadLen.toNat := by
  unfold readGetFrame at hr
  split_ifs at hr with hpre
  · split at hr
    · simp at hr
    · next pre rest' hread =>
      obtain ⟨hlen, -, hrest⟩ := readFull_eq hread
      obtain ⟨-, hr⟩ := Prod.mk.inj hr
      rw [hpre, ← (Prod.mk.inj hr).2]
      exact ⟨hlen, hrest⟩
  · exfalso
    split at hr
    · simp at hr
    dsimp only at hr
    split_ifs at hr
    · simp at hr
    · simp at hr
    · split at hr
      · simp at hr
      · split at hr <;> simp at hr

theorem uint32_leAt_take (t : List UInt8) (h : i + 4 ≤ m) :
    (UInt32.ofNat (leAt (t.take m) i 4)).toNat = leAt t i 4 := by
  rw [leAt_take h]
  exact UInt32.toNat_ofNat_of_lt' (leAt_lt t i 4)

theorem carriesBody_of_not {s : Status} (h : ¬(s ≠ .ok ∧ s ≠ .okExists)) :
    carriesBody s = true := by
  rw [carriesBody, decide_eq_true_eq]
  by_contra hno
  exact h (not_or.mp hno)

theorem readGetFrame_ok {verify : Bool}
    (hr : readGetFrame hash verify pace keys h g t = (g', .ok (), rest)) :
    h.payloadLen.toNat ≠ preambleSize ∧ regionSize t ≤ t.length ∧
      carriesBody (regionStatus t) = true ∧ regionTotal t = keys ∧
      regionFirst t + regionCount t ≤ keys ∧
      ∃ g₁, readBlocks hash verify pace (regionFirst t) (regionDescs t) g
        (t.drop (regionSize t)) = (g₁, some rest) ∧
        g' = { g₁ with got := g₁.got + regionCount t } := by
  unfold readGetFrame at hr
  split_ifs at hr with hpre
  · split at hr <;> simp at hr
  split at hr
  · simp at hr
  next pre rest₁ hread₁ =>
  obtain ⟨hlen₁, rfl, rfl⟩ := readFull_eq hread₁
  have hcount := uint32_leAt_take t (show 4 + 4 ≤ preambleSize + 8 by decide)
  have hfirst := uint32_leAt_take t (show 8 + 4 ≤ preambleSize + 8 by decide)
  have htotal := uint32_leAt_take t (show 12 + 4 ≤ preambleSize + 8 by decide)
  have hstatus : UInt8.ofNat (leAt (t.take (preambleSize + 8)) 0 1) = regionStatus t := by
    rw [leAt_take (by decide)]
    rfl
  dsimp only at hr
  rw [hcount, hfirst, htotal, hstatus] at hr
  split_ifs at hr with hst hidx
  · simp at hr
  · simp at hr
  obtain ⟨htot, hwin⟩ := not_or.mp hidx
  split at hr
  · simp at hr
  next region rest₂ hread₂ =>
  obtain ⟨hlen₂, rfl, rfl⟩ := readFull_eq hread₂
  have hlen : regionSize t ≤ t.length := by
    rw [length_drop] at hlen₂
    unfold regionSize regionCount
    omega
  split at hr
  · simp at hr
  next g₁ rest₃ hblocks =>
  rw [rows_take getDesc_take _ (le_refl _), drop_drop] at hblocks
  obtain ⟨hg, hr⟩ := Prod.mk.inj hr
  cases hr
  exact ⟨hpre, hlen, carriesBody_of_not hst, not_not.mp htot, Nat.not_lt.mp hwin, g₁,
    hblocks, hg.symm⟩

/-- The slot holds what the descriptor announced, and its check is done, still to be done, or some
check failed. -/
def Placed (hash : List UInt8 → UInt64) (g : GetState) (slot : ℕ) (d : Desc) (block : List UInt8) :
    Prop :=
  g.statuses[slot]? = some d.status ∧
    (carriesBody d.status = true → g.into[slot]? = some (some block) ∧
      (hash block = d.xxh3 ∨ (⟨slot, d.xxh3⟩ : VerifyJob) ∈ g.jobs ∨ g.bad ≠ none))

theorem Placed.verifyOne (hp : Placed hash g slot d block) :
    Placed hash (verifyOne hash g) slot d block := by
  obtain ⟨statuses, into, got, jobs, sent, bad⟩ := g
  cases jobs with
  | nil => exact hp
  | cons j js =>
    refine ⟨hp.1, fun hd => ⟨(hp.2 hd).1, ?_⟩⟩
    have hslot : into[slot]? = some (some block) := (hp.2 hd).1
    rcases (hp.2 hd).2 with hgood | hjob | hbad
    · exact .inl hgood
    · rcases mem_cons.mp hjob with rfl | hjob
      · -- this job is the slot's own check
        by_cases hgood : hash block = d.xxh3
        · exact .inl hgood
        · refine .inr (.inr ?_)
          cases bad <;> simp [Client.verifyOne, hslot, hgood]
      · exact .inr (.inl hjob)
    · refine .inr (.inr ?_)
      have hbad : bad ≠ none := hbad
      simp [Client.verifyOne, hbad]

theorem Placed.verifySome (hp : Placed hash g slot d block)
    (n : ℕ) : Placed hash (verifySome hash n g) slot d block := by
  induction n generalizing g with
  | zero => exact hp
  | succ n ih => exact ih hp.verifyOne

theorem Placed.other {d' : Desc} (hp : Placed hash g i d block) (hne : i ≠ slot) :
    Placed hash
      (storeBlock hash true pace slot d' block'
        { g with statuses := g.statuses.set slot d'.status }) i d
      block := by
  refine Placed.verifySome ⟨?_, fun hd => ⟨?_, ?_⟩⟩ _
  · exact (getElem?_set_ne (Ne.symm hne)).trans hp.1
  · exact (getElem?_set_ne (Ne.symm hne)).trans (hp.2 hd).1
  rcases (hp.2 hd).2 with hgood | hjob | hbad
  · exact .inl hgood
  · exact .inr (.inl (mem_append_left _ hjob))
  · exact .inr (.inr hbad)

theorem Placed.status_other {st : Status} (hp : Placed hash g i d block) (hne : i ≠ slot) :
    Placed hash { g with statuses := g.statuses.set slot st } i d block :=
  ⟨(getElem?_set_ne (Ne.symm hne)).trans hp.1, hp.2⟩

theorem placed_store (hs : slot < g.statuses.length) (hi : slot < g.into.length) :
    Placed hash
      (storeBlock hash true pace slot d block { g with statuses := g.statuses.set slot d.status })
        slot d
      block := by
  refine Placed.verifySome ⟨?_, fun _ => ⟨?_, ?_⟩⟩ _
  · exact getElem?_set_self hs
  · exact getElem?_set_self hi
  · exact .inr (.inl (mem_append_right _ mem_cons_self))

theorem placed_miss (hs : slot < g.statuses.length) (hd : carriesBody d.status = false) :
    Placed hash { g with statuses := g.statuses.set slot d.status } slot d block :=
  ⟨getElem?_set_self hs, fun hok => absurd (hd.symm.trans hok) Bool.false_ne_true⟩

theorem verifySome_lengths (n : ℕ) (g : GetState) : (verifySome hash n g).statuses = g.statuses ∧
    (verifySome hash n g).into = g.into := by
  induction n generalizing g with
  | zero => exact ⟨rfl, rfl⟩
  | succ n ih =>
    have hone : (Client.verifyOne hash g).statuses = g.statuses ∧
        (Client.verifyOne hash g).into = g.into := by
      unfold Client.verifyOne
      split <;> exact ⟨rfl, rfl⟩
    exact ⟨(ih _).1.trans hone.1, (ih _).2.trans hone.2⟩

theorem storeBlock_lengths (slot : ℕ) (d : Desc) (block : List UInt8) (g : GetState) :
    (storeBlock hash true pace slot d block g).statuses.length = g.statuses.length ∧
      (storeBlock hash true pace slot d block g).into.length = g.into.length := by
  unfold storeBlock
  rw [if_pos rfl]
  refine ⟨congrArg length (verifySome_lengths _ _).1, ?_⟩
  exact (congrArg length (verifySome_lengths _ _).2).trans length_set

/-- What reading the blocks of a frame does: the bytes it takes, and the slots it fills. -/
structure BlocksRead (hash : List UInt8 → UInt64) (keys slot : ℕ) (ds : List Desc) (g : GetState)
    (s : List UInt8) (g' : GetState) (rest : List UInt8) : Prop where
  enough : okLen ds ≤ s.length
  rest_eq : rest = s.drop (okLen ds)
  statuses : g'.statuses.length = keys
  into : g'.into.length = keys
  got : g'.got = g.got
  outside : ∀ i d block, i < slot ∨ slot + ds.length ≤ i → Placed hash g i d block →
    Placed hash g' i d block
  placed :
    ∀ j d, ds[j]? = some d → Placed hash g' (slot + j) d (slice s (okLen (ds.take j)) d.len.toNat)

theorem readBlocks_ok {ds : List Desc}
    (hr : readBlocks hash true pace slot ds g s = (g', some rest)) (hroom : slot + ds.length ≤ keys)
    (hs : g.statuses.length = keys) (hi : g.into.length = keys) :
    BlocksRead hash keys slot ds g s g' rest := by
  induction ds generalizing slot g s with
  | nil =>
    obtain ⟨rfl, hrest⟩ := Prod.mk.inj hr
    obtain rfl := Option.some.inj hrest
    exact ⟨Nat.zero_le _, rfl, hs, hi, rfl, fun _ _ _ _ hp => hp, nofun⟩
  | cons d ds ih =>
    rw [length_cons] at hroom
    rw [Client.readBlocks] at hr
    split_ifs at hr with hmiss
    · have hd : carriesBody d.status = false := by simp [carriesBody, hmiss]
      have hnext := ih hr (by omega) (by simpa using hs) hi
      refine ⟨?_, ?_, hnext.statuses, hnext.into, hnext.got, ?_, ?_⟩
      · rw [okLen, if_neg (by simp [hd]), Nat.zero_add]
        exact hnext.enough
      · rw [okLen, if_neg (by simp [hd]), Nat.zero_add]
        exact hnext.rest_eq
      · intro i d' block hout hp
        rw [length_cons] at hout
        exact hnext.outside i d' block (by omega) (hp.status_other (by omega))
      intro j d' hj
      cases j with
      | zero =>
        obtain rfl := Option.some.inj hj
        exact hnext.outside slot d _ (.inl (Nat.lt_succ_self _)) (placed_miss (by omega) hd)
      | succ j =>
        have hp := hnext.placed j d' hj
        rw [take_succ_cons, okLen, if_neg (by simp [hd]), Nat.zero_add]
        rwa [show slot + 1 + j = slot + (j + 1) by omega] at hp
    · have hd : carriesBody d.status = true := carriesBody_of_not hmiss
      split at hr
      · cases (Prod.mk.inj hr).2
      next block rest' hread =>
      obtain ⟨hlen, rfl, rfl⟩ := readFull_eq hread
      have hlens := @storeBlock_lengths hash pace slot d (s.take d.len.toNat)
        { g with statuses := g.statuses.set slot d.status }
      have hnext := ih hr (by omega) (by rw [hlens.1, length_set, hs]) (by rw [hlens.2, hi])
      refine ⟨?_, ?_, hnext.statuses, hnext.into, hnext.got.trans (storeBlock_got _ _ _ _), ?_, ?_⟩
      · have henough := hnext.enough
        rw [length_drop] at henough
        rw [okLen, if_pos hd]
        omega
      · rw [okLen, if_pos hd, ← drop_drop]
        exact hnext.rest_eq
      · intro i d' block hout hp
        rw [length_cons] at hout
        exact hnext.outside i d' block (by omega) (hp.other (by omega))
      intro j d' hj
      cases j with
      | zero =>
        obtain rfl := Option.some.inj hj
        exact hnext.outside slot d _ (.inl (Nat.lt_succ_self _))
          (placed_store (by omega) (by omega))
      | succ j =>
        have hp := hnext.placed j d' hj
        rw [take_succ_cons, okLen, if_pos hd, slice, ← drop_drop]
        rwa [show slot + 1 + j = slot + (j + 1) by omega] at hp

end Reading

/-! ## What the server has to keep -/

/-- A frame of an answer that another one follows. -/
def Frame.Continues (f : Frame) : Prop :=
  f.header.flags &&& flagMore ≠ 0 ∧ f.payload.length ≠ preambleSize

/-- What the client takes on trust. Each frame of the answer that passes its own checks declares the
length that its count and descriptors give, and answers no key that an earlier one answered. -/
def Conforming (parse : List UInt8 → Option Header) (keys : ℕ) (s : List UInt8) : Prop :=
  0 < keys → ∀ fs t, Behind parse s fs t → (∀ f ∈ fs, Frame.Continues f) →
    ∀ h u, headerAt parse t = some (h, u) →
    isCredit h = false → h.payloadLen.toNat ≠ preambleSize → carriesBody (regionStatus u) = true →
    regionTotal u = keys → regionFirst u + regionCount u ≤ keys → frameSize u ≤ u.length →
      h.payloadLen.toNat = frameSize u ∧ ∀ f ∈ fs, ∀ i ∈ regionWindow u, i ∉ regionWindow f.payload

/-! ## The loop -/

/-- The request indices that the frames answer, in order. -/
def answered (fs : List Frame) : List ℕ := fs.flatMap fun f => regionWindow f.payload

/-- What holds after some frames were read: they are whole, their answers are in place, and no index
was answered twice. -/
structure Progress (hash : List UInt8 → UInt64) (keys : ℕ) (fs : List Frame) (g : GetState) :
    Prop where
  statuses : g.statuses.length = keys
  into : g.into.length = keys
  got : g.got = (answered fs).length
  once : (answered fs).Nodup
  within : ∀ i ∈ answered fs, i < keys
  whole : ∀ f ∈ fs, f.payload.length = frameSize f.payload
  placed : ∀ f ∈ fs, ∀ j d, (regionDescs f.payload)[j]? = some d →
    Placed hash g (regionFirst f.payload + j) d (blockAt f.payload j d)

section Loop

variable {hash : List UInt8 → UInt64} {pace : ℕ → ℕ} {keys : ℕ} {dg : Digests}

theorem mem_regionWindow :
    i ∈ regionWindow t ↔ regionFirst t ≤ i ∧ i < regionFirst t + regionCount t := by
  rw [regionWindow, mem_range'_1]

theorem slot_mem_regionWindow {d : Desc} (hj : (regionDescs t)[j]? = some d) :
    regionFirst t + j ∈ regionWindow t := by
  have hlt := (List.getElem?_eq_some_iff.mp hj).1
  rw [length_regionDescs] at hlt
  exact mem_regionWindow.mpr ⟨Nat.le_add_right _ _, Nat.add_lt_add_left hlt _⟩

variable {fs : List Frame} {g : GetState} {r : Except ReadError (List Status)}

theorem Progress.frame (hp : Progress hash keys fs g) (hsize : h.payloadLen.toNat = frameSize t)
    (hregion : regionSize t ≤ t.length) (hwin : regionFirst t + regionCount t ≤ keys)
    (hread : BlocksRead hash keys (regionFirst t) (regionDescs t) g (t.drop (regionSize t)) g₁ rest)
    (hfresh : ∀ f ∈ fs, ∀ i ∈ regionWindow t, i ∉ regionWindow f.payload) :
    Progress hash keys (fs ++ [⟨h, t.take h.payloadLen.toNat⟩])
      { g₁ with got := g₁.got + regionCount t } := by
  have hcut : regionSize t ≤ h.payloadLen.toNat := hsize ▸ Nat.le_add_right _ _
  have hwindow : regionWindow (t.take h.payloadLen.toNat) = regionWindow t := regionWindow_take hcut
  have hans : answered (fs ++ [⟨h, t.take h.payloadLen.toNat⟩]) =
      answered fs ++ regionWindow t := by
    simp only [answered, flatMap_append, flatMap_cons, flatMap_nil, append_nil, hwindow]
  refine ⟨hread.statuses, hread.into, ?_, ?_, ?_, ?_, ?_⟩
  · rw [hans, length_append, ← hp.got, ← hread.got, regionWindow, length_range']
  · rw [hans, nodup_append]
    refine ⟨hp.once, nodup_range', fun i hi j hj hij => ?_⟩
    subst hij
    obtain ⟨f, hf, hif⟩ := mem_flatMap.mp hi
    exact hfresh f hf i hj hif
  · rw [hans]
    intro i hi
    rcases mem_append.mp hi with hi | hi
    · exact hp.within i hi
    · exact (mem_regionWindow.mp hi).2.trans_le hwin
  · intro f hf
    rcases mem_append.mp hf with hf | hf
    · exact hp.whole f hf
    have henough := hread.enough
    rw [length_drop] at henough
    have hlen : h.payloadLen.toNat ≤ t.length := by
      rw [hsize, frameSize]
      omega
    obtain rfl := mem_singleton.mp hf
    dsimp only
    rw [frameSize_take hcut, length_take_of_le hlen, hsize]
  · intro f hf j d hj
    rcases mem_append.mp hf with hf | hf
    · -- an earlier frame: its window is disjoint from this one's
      have hslot := slot_mem_regionWindow hj
      have hout : regionFirst f.payload + j ∉ regionWindow t := fun hin => hfresh f hf _ hin hslot
      refine hread.outside _ d _ ?_ (hp.placed f hf j d hj)
      rw [mem_regionWindow] at hout
      rw [length_regionDescs]
      omega
    · obtain rfl := mem_singleton.mp hf
      dsimp only at hj ⊢
      rw [regionDescs_take hcut] at hj
      rw [regionFirst_take hcut]
      have hplaced := hread.placed j d hj
      refine ⟨hplaced.1, fun hd => ?_⟩
      rw [blockAt_take hsize.ge hj hd]
      have hfull := hplaced.2 hd
      rw [slice, drop_drop] at hfull
      exact hfull

theorem verifySome_jobs (n : ℕ) (g : GetState) : (verifySome hash n g).jobs = g.jobs.drop n := by
  induction n generalizing g with
  | zero => rfl
  | succ n ih =>
    have hone : (verifyOne hash g).jobs = g.jobs.drop 1 := by
      obtain ⟨statuses, into, got, jobs, sent, bad⟩ := g
      cases jobs <;> rfl
    rw [verifySome, ih, hone, drop_drop, Nat.add_comm]

theorem Progress.verifyAll (hp : Progress hash keys fs g) :
    Progress hash keys fs (verifyAll hash g) := by
  have hkeep := @verifySome_lengths hash g.jobs.length g
  exact ⟨(congrArg length hkeep.1).trans hp.statuses, (congrArg length hkeep.2).trans hp.into,
    (verifySome_got _ _).trans hp.got, hp.once, hp.within, hp.whole, fun f hf j d hj =>
    (hp.placed f hf j d hj).verifySome _⟩

theorem Progress.start {into : List (Option (List UInt8))} (hinto : into.length = keys) :
    Progress hash keys [] ⟨replicate keys 0, into, 0, [], 0, none⟩ :=
  ⟨length_replicate, hinto, rfl, nodup_nil, nofun, nofun, nofun⟩

/-- The whole answer reached the caller: every index was answered by exactly one descriptor, and a
slot whose status says so holds the bytes that followed that descriptor, with the hash it
announced. -/
structure Delivered (hash : List UInt8 → UInt64) (keys : ℕ) (fs : List Frame)
    (statuses : List Status) (into : List (Option (List UInt8))) : Prop where
  once : ∀ i < keys, (answered fs).count i = 1
  whole : ∀ f ∈ fs, f.payload.length = frameSize f.payload
  status : ∀ f ∈ fs, ∀ j d, (regionDescs f.payload)[j]? = some d →
    statuses[regionFirst f.payload + j]? = some d.status
  block : ∀ f ∈ fs, ∀ j d, (regionDescs f.payload)[j]? = some d → carriesBody d.status = true →
    into[regionFirst f.payload + j]? = some (some (blockAt f.payload j d)) ∧
    hash (blockAt f.payload j d) = d.xxh3

theorem Progress.count_eq_one (hp : Progress hash keys fs g) (hgot : g.got = keys) (hi : i < keys) :
    (answered fs).count i = 1 := by
  have hsub : (answered fs).toFinset ⊆ Finset.range keys := fun j hj =>
    Finset.mem_range.mpr (hp.within j (mem_toFinset.mp hj))
  have hcard : (Finset.range keys).card ≤ (answered fs).toFinset.card := by
    rw [Finset.card_range, toFinset_card_of_nodup hp.once, ← hp.got, hgot]
  have hall := Finset.eq_of_subset_of_card_le hsub hcard
  have hmem : i ∈ answered fs := mem_toFinset.mp (hall ▸ Finset.mem_range.mpr hi)
  exact count_eq_one_of_mem hp.once hmem

theorem Progress.delivered (hp : Progress hash keys fs g) (hgot : g.got = keys)
    (hjobs : g.jobs = []) (hbad : g.bad = none) : Delivered hash keys fs g.statuses g.into where
  once _ hi := hp.count_eq_one hgot hi
  whole := hp.whole
  status f hf j d hj := (hp.placed f hf j d hj).1
  block f hf j d hj hd := by
    obtain ⟨hslot, hgood | hjob | hno⟩ := (hp.placed f hf j d hj).2 hd
    · exact ⟨hslot, hgood⟩
    · rw [hjobs] at hjob
      cases hjob
    · exact absurd hbad hno

theorem Progress.finish (hp : Progress hash keys fs g) {rest' : List UInt8}
    (hf : Client.finish hash keys g rest = (g', r, rest')) :
    rest' = rest ∧ (∀ st, r ≠ .error (.status st)) ∧
      ∀ statuses, r = .ok statuses → Delivered hash keys fs statuses g'.into := by
  have hall := hp.verifyAll
  have hjobs : (Client.verifyAll hash g).jobs = [] := by
    rw [Client.verifyAll, verifySome_jobs, drop_length]
  unfold Client.finish at hf
  dsimp only at hf
  split at hf
  · obtain ⟨-, hr, hrest⟩ := hf
    exact ⟨rfl, nofun, nofun⟩
  next hbad =>
  split_ifs at hf with hgot
  · obtain ⟨-, hr, hrest⟩ := hf
    exact ⟨rfl, nofun, nofun⟩
  obtain ⟨rfl, rfl, rfl⟩ := hf
  refine ⟨rfl, nofun, ?_⟩
  rintro _ ⟨⟩
  exact hall.delivered (not_not.mp hgot) hjobs hbad

theorem nextHeader_error {e : ReadError} (hn : nextHeader dg s = .error e) (st : Status) :
    e ≠ .status st := by
  fun_induction nextHeader dg s with
  | case5 s hb rest hread h' hp hc skipped rest' hskip ih => exact ih hn
  | case6 => cases hn
  | _ =>
    rw [← Except.error.inj hn]
    simp

theorem fail_cases (g : GetState) (e : ReadError) :
    (∀ statuses, (Client.fail hash g e).2 ≠ .ok statuses) ∧
      ∀ st, (Client.fail hash g e).2 = .error (.status st) → e = .status st := by
  unfold Client.fail
  dsimp only
  split
  · exact ⟨nofun, nofun⟩
  · exact ⟨nofun, fun st h => Except.error.inj h⟩

/-- From a frame boundary inside the answer the loop ends at a frame boundary, if its result keeps
the connection. -/
theorem Progress.loop {s₀ : List UInt8} (hpos : 0 < keys) (hconf : Conforming (goParse dg) keys s₀)
    (hb : Behind (goParse dg) s₀ fs s) (hmore : ∀ f ∈ fs, Frame.Continues f)
    (hp : Progress hash keys fs g) (hr : readGetLoop dg hash true pace keys g s = (g', r, rest)) :
    (∀ st, r = .error (.status st) → ∃ fs', Behind (goParse dg) s₀ fs' rest) ∧
      ∀ statuses, r = .ok statuses →
        ∃ fs', Behind (goParse dg) s₀ fs' rest ∧ Delivered hash keys fs' statuses g'.into := by
  induction hn : s.length using Nat.strong_induction_on generalizing s fs g with
  | _ n ih =>
    rw [readGetLoop_eq] at hr
    cases hnext : nextHeader dg s with
    | error e =>
      rw [hnext] at hr
      obtain ⟨-, hr⟩ := Prod.mk.inj hr
      obtain ⟨rfl, -⟩ := Prod.mk.inj hr
      obtain ⟨hok, hst⟩ := @fail_cases hash g e
      exact ⟨fun st h => absurd (hst st h) (nextHeader_error hnext st),
        fun statuses h => absurd h (hok statuses)⟩
    | ok ht =>
      obtain ⟨h, t⟩ := ht
      rw [hnext] at hr
      dsimp only at hr
      obtain ⟨s', hskip, hhead, hcredit⟩ := nextHeader_behind hnext
      have hb' : Behind (goParse dg) s₀ fs s' := by
        have := hb.trans hskip
        rwa [append_nil] at this
      obtain ⟨⟨g₁, res, rest₁⟩, hframe⟩ : ∃ x, readGetFrame hash true pace keys h g t = x :=
        ⟨_, rfl⟩
      rw [hframe] at hr
      cases res with
      | error e =>
        obtain ⟨-, hr⟩ := Prod.mk.inj hr
        obtain ⟨rfl, rfl⟩ := Prod.mk.inj hr
        obtain ⟨hok, hst⟩ := @fail_cases hash g₁ e
        refine ⟨fun st h' => ?_, fun statuses h' => absurd h' (hok statuses)⟩
        rw [hst st h'] at hframe
        obtain ⟨hwhole, rfl⟩ := readGetFrame_status hframe
        exact ⟨_, hb'.concat hhead hcredit hwhole⟩
      | ok u =>
        dsimp only at hr
        obtain ⟨hpre, hregion, hstatus, htotal, hwin, g₂, hblocks, rfl⟩ := readGetFrame_ok hframe
        have hread := readBlocks_ok hblocks (by rwa [length_regionDescs]) hp.statuses hp.into
        have hthere : frameSize t ≤ t.length := by
          have henough := hread.enough
          rw [length_drop] at henough
          rw [frameSize]
          omega
        obtain ⟨hsize, hfresh⟩ :=
          hconf hpos fs s' hb' hmore h t hhead hcredit hpre hstatus htotal hwin hthere
        have hprog := hp.frame hsize hregion hwin hread hfresh
        have hwhole : h.payloadLen.toNat ≤ t.length := hsize ▸ hthere
        have hrest : rest₁ = t.drop h.payloadLen.toNat := by
          rw [hread.rest_eq, drop_drop, hsize, frameSize]
        have hnextb := hb'.concat hhead hcredit hwhole
        rw [← hrest] at hnextb
        split_ifs at hr with hlast
        · obtain ⟨rfl, hno, hdone⟩ := hprog.finish hr
          exact ⟨fun st h' => absurd h' (hno st), fun statuses h' => ⟨_, hnextb, hdone statuses h'⟩⟩
        refine ih rest₁.length ?_ hnextb ?_ hprog hr rfl
        · have hlt := nextHeader_length hnext
          rw [← hn, hrest, length_drop]
          omega
        intro f hf
        rcases mem_append.mp hf with hf | hf
        · exact hmore f hf
        obtain rfl := mem_singleton.mp hf
        refine ⟨hlast, ?_⟩
        rw [length_take_of_le hwhole]
        exact hpre

/-! ### What a whole answer says about the stream -/

theorem finish_rest {rest' : List UInt8} (hf : Client.finish hash keys g rest = (g', r, rest')) :
    rest' = rest := by
  unfold Client.finish at hf
  dsimp only at hf
  split at hf
  · exact (Prod.mk.inj (Prod.mk.inj hf).2).2.symm
  · split_ifs at hf <;> exact (Prod.mk.inj (Prod.mk.inj hf).2).2.symm

/-- A loop that succeeds has read a frame, and the end or the loop comes behind it. -/
theorem readGetLoop_ok {statuses : List Status}
    (hr : readGetLoop dg hash true pace keys g s = (g', .ok statuses, rest)) :
    ∃ h t g₁ rest₁, nextHeader dg s = .ok (h, t) ∧ t.length < s.length ∧
      readGetFrame hash true pace keys h g t = (g₁, .ok (), rest₁) ∧ rest₁.length ≤ t.length ∧
      (if h.flags &&& flagMore = 0 then Client.finish hash keys g₁ rest₁
        else readGetLoop dg hash true pace keys g₁ rest₁) = (g', .ok statuses, rest) := by
  rw [readGetLoop_eq] at hr
  split at hr
  · next e hnext => exact absurd (congrArg (·.2.1) hr) ((fail_cases g e).1 statuses)
  next h t hnext =>
  split at hr
  · next g₁ e rest₁ hframe => exact absurd (congrArg (·.2.1) hr) ((fail_cases g₁ e).1 statuses)
  next g₁ rest₁ hframe =>
  exact ⟨h, t, g₁, rest₁, hnext, nextHeader_length hnext, hframe,
    readGetFrame_length hash true pace hframe, hr⟩

theorem readGetLoop_rest {statuses : List Status}
    (hr : readGetLoop dg hash true pace keys g s = (g', .ok statuses, rest)) :
    rest.length < s.length := by
  induction hn : s.length using Nat.strong_induction_on generalizing s g with
  | _ n ih =>
    subst hn
    obtain ⟨h, t, g₁, rest₁, -, hlt, -, hle, hr⟩ := readGetLoop_ok hr
    split_ifs at hr with hlast
    · rw [finish_rest hr]
      omega
    · have := ih rest₁.length (by omega) hr rfl
      omega

/-- A frame that is as long as its own count and descriptors say declares the length that the client
reads. -/
theorem payloadLen_of_whole {f : Frame} (hlen : f.payload.length = frameSize f.payload)
    (hf : f = ⟨h, t.take h.payloadLen.toNat⟩) (hle : h.payloadLen.toNat ≤ t.length) :
    h.payloadLen.toNat = frameSize t := by
  subst hf
  dsimp only at hlen
  rw [length_take_of_le hle] at hlen
  have hwords : 4 + 4 ≤ h.payloadLen.toNat := by
    rw [hlen, frameSize, regionSize]
    unfold preambleSize
    omega
  have hcount : regionCount (t.take h.payloadLen.toNat) = regionCount t := leAt_take hwords
  have hregion : regionSize t ≤ h.payloadLen.toNat := by
    have hsize : regionSize (t.take h.payloadLen.toNat) = regionSize t := by
      rw [regionSize, hcount, regionSize]
    rw [hlen, frameSize, hsize]
    exact Nat.le_add_right _ _
  rwa [frameSize_take hregion] at hlen

/-- The frames up to where the client stopped do not all announce more. -/
theorem readGetLoop_stops {s₀ : List UInt8} {all : List Frame} {statuses : List Status}
    (hr : readGetLoop dg hash true pace keys g s = (g', .ok statuses, rest))
    (hb : Behind (goParse dg) s₀ fs s) (hall : Behind (goParse dg) s₀ all rest)
    (hwhole : ∀ f ∈ all, f.payload.length = frameSize f.payload) (hs : g.statuses.length = keys)
    (hi : g.into.length = keys) : ∃ f ∈ all, ¬Frame.Continues f := by
  induction hn : s.length using Nat.strong_induction_on generalizing s g fs with
  | _ n ih =>
    subst hn
    obtain ⟨h, t, g₁, rest₁, hnext, hlt, hframe, hle, hr⟩ := readGetLoop_ok hr
    obtain ⟨s', hskip, hhead, hcredit⟩ := nextHeader_behind hnext
    have hb' : Behind (goParse dg) s₀ fs s' := by
      have := hb.trans hskip
      rwa [append_nil] at this
    obtain ⟨-, -, -, -, hwin, g₂, hblocks, rfl⟩ := readGetFrame_ok hframe
    have hread := readBlocks_ok hblocks (by rwa [length_regionDescs]) hs hi
    have hpast : rest.length ≤ rest₁.length := by
      split_ifs at hr with hlast
      · exact (congrArg length (finish_rest hr)).le
      · exact (readGetLoop_rest hr).le
    have hshort : t.length < s'.length := by
      have hpos : 0 < headerSize := by decide
      obtain ⟨hlong, ht⟩ := headerAt_eq hhead
      rw [ht, length_drop]
      omega
    -- the place where the client stopped lies behind this frame
    rcases hb'.total hall with ⟨hs', hrest, rfl⟩ | ⟨hs', hback, -⟩
    swap
    · have := hback.suffix.length_le
      omega
    rcases hrest.of_headerAt hhead hcredit with ⟨-, rfl⟩ | ⟨hs', rfl, hwhole', -⟩
    · omega
    have hsize := payloadLen_of_whole (hwhole _ (mem_append_right _ mem_cons_self)) rfl hwhole'
    split_ifs at hr with hlast
    · exact ⟨_, mem_append_right _ mem_cons_self, fun hc => hc.1 hlast⟩
    have hnextb := hb'.concat hhead hcredit hwhole'
    have hdrop : t.drop h.payloadLen.toNat = rest₁ := by
      rw [hread.rest_eq, drop_drop, hsize, frameSize]
    rw [hdrop] at hnextb
    exact ih rest₁.length (by omega) hr hnextb hread.statuses hread.into rfl

/-- A whole answer keeps what the client takes on trust. -/
theorem Delivered.conforming {statuses : List Status} {into : List (Option (List UInt8))}
    (hd : Delivered hash keys fs statuses into) (hb : Behind (goParse dg) s fs rest)
    (hstop : ∃ f ∈ fs, ¬Frame.Continues f) : Conforming (goParse dg) keys s := by
  intro _ fs' t hb' hmore h u hhead hcredit _ _ _ hwin _
  rcases hb'.total hb with ⟨hs, hrest, rfl⟩ | ⟨hs, -, rfl⟩
  · obtain ⟨f, hf, hno⟩ := hstop
    rcases hrest.of_headerAt hhead hcredit with ⟨rfl, -⟩ | ⟨hs', rfl, hle, -⟩
    · exact absurd (hmore f (by simpa using hf)) hno
    have hsize := payloadLen_of_whole (hd.whole _ (mem_append_right _ mem_cons_self)) rfl hle
    refine ⟨hsize, fun f' hf' i hi hi' => ?_⟩
    have hwindow : regionWindow (u.take h.payloadLen.toNat) = regionWindow u :=
      regionWindow_take (hsize ▸ Nat.le_add_right _ _)
    -- an index in both windows is answered twice
    have hcount := hd.once i ((mem_regionWindow.mp hi).2.trans_le hwin)
    rw [answered, flatMap_append, flatMap_cons, count_append, count_append, hwindow] at hcount
    have h1 : 0 < (fs'.flatMap fun f => regionWindow f.payload).count i :=
      count_pos_iff.mpr (mem_flatMap.mpr ⟨f', hf', hi'⟩)
    have h2 := count_pos_iff.mpr hi
    omega
  · obtain ⟨f, hf, hno⟩ := hstop
    exact absurd (hmore f (mem_append_left _ hf)) hno

end Loop

/-! ## Any server -/

def getFrame (flags : UInt16) (payloadLen : UInt32) : Header :=
  ⟨opBatchGet, flags, 0, 0, 1, 0, payloadLen⟩

/-- The payload of a frame that answers one key of the batch: it was not found. -/
def missBody (first total : UInt32) : List UInt8 :=
  getRespHeader .ok first total [⟨.notFound, 0, 0⟩]

theorem headerAt_getFrame (flags : UInt16) {n : UInt32} (hn : n ≤ defaultMaxFrameLen)
    (t : List UInt8) :
    headerAt (goParse .zero) ((getFrame flags n).marshal .zero ++ t) = some (getFrame flags n, t) :=
  headerAt_append ((getFrame flags n).length_marshal .zero)
    (by rw [goParse, parseHeader_marshal_ok .zero hn]) t

theorem conforming_missBody :
    Conforming (goParse .zero) 1 ((getFrame flagResp 32).marshal .zero ++ missBody 0 1) := by
  have hhead := headerAt_getFrame flagResp (n := 32) (by decide) (missBody 0 1)
  intro _ fs t hb hmore h u hh hcredit _ _ _ _ _
  rcases hb.of_headerAt hhead (by decide) with ⟨rfl, rfl⟩ | ⟨fs', rfl, -⟩
  · obtain ⟨rfl, rfl⟩ := Prod.mk.inj (Option.some.inj (hhead.symm.trans hh))
    exact ⟨by decide, nofun⟩
  · exact absurd rfl (hmore _ mem_cons_self).1

end KVStash.Client
