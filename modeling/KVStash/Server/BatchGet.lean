/- GID: KVStash/Server/BatchGet
   digest: The frames a BATCH_GET response is split into: what they cover, how they are flagged, how
     long they are. -/

import KVStash.Server.Session

set_option autoImplicit false

namespace KVStash.Serving

open Foundation Nvme Wire List

variable {σ : Type}

/-- The states the store goes through while a request looks keys up. -/
inductive Reached (fetch : BlockKey → σ → Fetched × σ) (st : σ) : σ → Prop where
  | start : Reached fetch st st
  | fetched (k : BlockKey) {st' : σ} (h : Reached fetch st st') : Reached fetch st (fetch k st').2

variable {fetch : BlockKey → σ → Fetched × σ} {keys ks rest : List BlockKey} {fs : List Fetched}
  {st st' st'' : σ}

theorem Reached.trans (h : Reached fetch st st')
    (h' : Reached fetch st' st'') : Reached fetch st st'' := by
  induction h' with
  | start => exact h
  | fetched k _ ih => exact .fetched k ih

/-- Each key with an answer that a lookup of it gave while the request was served. -/
def Answers (fetch : BlockKey → σ → Fetched × σ) (st : σ) : List BlockKey → List Fetched → Prop :=
  List.Forall₂ fun k f => ∃ st', Reached fetch st st' ∧ (fetch k st').1 = f

theorem Answers.later
    (h : Answers fetch st' keys fs) (hst : Reached fetch st st') : Answers fetch st keys fs :=
  List.Forall₂.imp (fun _ _ ⟨s, hs, hf⟩ => ⟨s, hst.trans hs, hf⟩) h

theorem Answers.all (h : Answers fetch st keys fs) {P : Fetched → Prop}
    (hP : ∀ k ∈ keys, ∀ st', Reached fetch st st' → P (fetch k st').1) : ∀ f ∈ fs, P f := by
  induction h with
  | nil => exact nofun
  | cons hk _ ih =>
    intro f hf
    rcases mem_cons.mp hf with rfl | hf
    · obtain ⟨st', hst', rfl⟩ := hk
      exact hP _ mem_cons_self st' hst'
    · exact ih (fun k hk => hP k (mem_cons_of_mem _ hk)) f hf

/-- The block bytes behind the descriptors, one buffer for each hit that has any. -/
def blocks (fs : List Fetched) : List (List UInt8) :=
  fs.flatMap fun f => if f.hit ∧ 0 < f.blen then [f.data] else []

def Packing.of (fs : List Fetched) : Packing :=
  ⟨fs.map Fetched.desc, blocks fs, (fs.map Fetched.blen).sum⟩

theorem Packing.of_add (fs : List Fetched) (f : Fetched) :
    (Packing.of fs).add f = Packing.of (fs ++ [f]) := by
  unfold Packing.add Packing.of blocks
  congr 1
  · rw [map_append, map_singleton]
  · rw [flatMap_append, flatMap_singleton]
    split_ifs
    · rfl
    · exact (append_nil _).symm
  · rw [map_append, map_singleton, sum_append, sum_singleton]

def frameLen (fs : List Fetched) : ℕ := getRespHeaderSize fs.length + (fs.map Fetched.blen).sum

/-- A frame keeps to the cap, unless it holds one answer only. -/
def Fits (maxFrame : ℕ) (fs : List Fetched) : Prop := fs.length ≤ 1 ∨ frameLen fs ≤ maxFrame

/-- Answers cut into frames from left to right: a frame takes the next answer while it keeps to the
cap, and its first answer in any case. -/
def cutFrom (maxFrame : ℕ) : List Fetched → List Fetched → List (List Fetched)
  | frame, [] => [frame]
  | frame, a :: as =>
    if frame ≠ [] ∧ maxFrame < frameLen (frame ++ [a]) then frame :: cutFrom maxFrame [a] as
    else cutFrom maxFrame (frame ++ [a]) as

/-- The store answers every lookup of a key alike while the request is served. -/
def Steady (fetch : BlockKey → σ → Fetched × σ) (keys : List BlockKey) (ans : BlockKey → Fetched) :
    Prop :=
  ∀ k ∈ keys, ∀ st, (fetch k st).1 = ans k

theorem frameLen_concat (fs : List Fetched) (f : Fetched) :
    frameLen (fs ++ [f]) = getRespHeaderSize
      (fs.length + 1) + (fs.map Fetched.blen).sum + f.blen := by
  rw [frameLen, length_append, length_singleton, map_append, map_singleton, sum_append,
    sum_singleton, Nat.add_assoc]

theorem frameLen_le {maxFrame maxBlob : ℕ} (hfit : Fits maxFrame fs)
    (hblob : ∀ f ∈ fs, f.blen ≤ maxBlob) (hroom : getRespHeaderSize 1 + maxBlob ≤ maxFrame) :
    frameLen fs ≤ maxFrame := by
  rcases hfit with hone | hle
  · match fs, hone with
    | [], _ =>
      unfold frameLen getRespHeaderSize at *
      simp only [length_nil, map_nil, sum_nil]
      omega
    | [f], _ =>
      have := hblob f mem_cons_self
      simp only [frameLen, length_singleton, map_singleton, sum_singleton]
      omega
    | _ :: _ :: _, h => exact absurd h (by simp)
  · exact hle

theorem sum_length_blocks (fs : List Fetched) :
    ((blocks fs).map length).sum = (fs.map Fetched.blen).sum := by
  induction fs with
  | nil => rfl
  | cons f fs ih =>
    have hhead : ((if f.hit ∧ 0 < f.blen then [f.data] else []).map length).sum = f.blen := by
      unfold Fetched.blen
      cases hhit : f.hit
      · simp
      · rcases Nat.eq_zero_or_pos f.data.length with h0 | hpos
        · simp [h0]
        · simp [hpos]
    rw [blocks, flatMap_cons, map_append, sum_append, hhead, map_cons, sum_cons, ← ih]
    rfl

/-- The frames that follow one with the given rest of the keys. -/
def cutRest (maxFrame : ℕ) (ans : BlockKey → Fetched) (rest : List BlockKey) :
    List (List Fetched) :=
  if rest = [] then [] else cutFrom maxFrame [] (rest.map ans)

theorem packFrame_spec (fetch : BlockKey → σ → Fetched × σ) (maxFrame : ℕ)
    (keys : List BlockKey) (st : σ) (fs₀ : List Fetched) (hfit : Fits maxFrame fs₀) :
    ∃ fs taken rest st', packFrame fetch maxFrame keys st (.of fs₀) = (.of (fs₀ ++ fs), rest, st') ∧
      keys = taken ++ rest ∧ Answers fetch st taken fs ∧ Reached fetch st st' ∧
        Fits maxFrame (fs₀ ++ fs) ∧
      ∀ ans, Steady fetch keys ans →
        cutFrom maxFrame fs₀ (keys.map ans) = (fs₀ ++ fs) :: cutRest maxFrame ans rest := by
  induction keys generalizing st fs₀ with
  | nil =>
    refine ⟨[], [], [], st,
      by rw [packFrame, append_nil], rfl, .nil, .start, by rwa [append_nil], fun _ _ => ?_⟩
    rw [append_nil]
    rfl
  | cons k ks ih =>
    rw [packFrame]
    dsimp only
    have hdescs : (Packing.of fs₀).descs.length = fs₀.length := length_map _
    have hover :
        (0 < fs₀.length ∧
          maxFrame < getRespHeaderSize (fs₀.length + 1) + (fs₀.map Fetched.blen).sum +
        (fetch k st).1.blen) ↔ fs₀ ≠ [] ∧ maxFrame < frameLen (fs₀ ++ [(fetch k st).1]) := by
      rw [frameLen_concat, length_pos_iff]
    rw [hdescs]
    split_ifs with hstop
    · refine ⟨[], [], k :: ks, (fetch k st).2, by rw [append_nil], rfl, .nil, .fetched k .start, by
        rwa [append_nil], fun ans hans => ?_⟩
      have hcut := hover.mp hstop
      rw [hans k mem_cons_self st] at hcut
      rw [map_cons, cutFrom, if_pos hcut, append_nil, cutRest, if_neg (cons_ne_nil _ _),
        map_cons, cutFrom, if_neg (by simp), nil_append]
    rw [Packing.of_add]
    have hroom : Fits maxFrame (fs₀ ++ [(fetch k st).1]) := by
      rw [not_and_or, Nat.not_lt, Nat.not_lt] at hstop
      rcases hstop with hempty | hle
      · left
        rw [length_append, length_singleton]
        omega
      · right
        rw [frameLen_concat]
        exact hle
    obtain ⟨fs, taken, rest, st', hrun, hkeys, hans, hst', hfit', hcut⟩ :=
      ih (fetch k st).2 (fs₀ ++ [(fetch k st).1]) hroom
    refine ⟨(fetch k st).1 :: fs, k :: taken, rest, st', ?_, ?_,
      .cons ⟨st, .start, rfl⟩ (hans.later (.fetched k .start)),
      (Reached.fetched k .start).trans hst', ?_,
      fun ans hsteady => ?_⟩
    · rw [hrun, append_assoc, singleton_append]
    · rw [hkeys, cons_append]
    · rwa [append_assoc, singleton_append] at hfit'
    · have hgo := hover.not.mp hstop
      have hrest := hcut ans fun k' hk' => hsteady k' (mem_cons_of_mem _ hk')
      rw [hsteady k mem_cons_self st] at hgo hrest ⊢
      rw [map_cons, cutFrom, if_neg hgo, hrest, append_assoc, singleton_append]

/-- A response frame: the index of its first key, whether more follow, and the answers it
carries. -/
structure ResponseFrame where
  first : ℕ
  more : Bool
  answers : List Fetched

namespace ResponseFrame

def flags (f : ResponseFrame) : UInt16 := if f.more then flagResp ||| flagMore else flagResp

/-- The buffers of the frame: its header region and the blocks. -/
def bufs (total : ℕ) (f : ResponseFrame) : List (List UInt8) :=
  getRespHeader .ok (UInt32.ofNat f.first) (UInt32.ofNat total) (f.answers.map Fetched.desc) ::
    blocks f.answers

theorem sum_length_bufs (total : ℕ) (f : ResponseFrame) :
    ((f.bufs total).map length).sum = frameLen f.answers := by
  rw [bufs, map_cons, sum_cons, length_getRespHeader, sum_length_blocks, length_map]
  rfl

end ResponseFrame

/-- From index `i` on the frames cover the indices one behind the other, and all but the last are
flagged. -/
def Splits (total : ℕ) : ℕ → List ResponseFrame → Prop
  | _, [] => False
  | i, [f] => f.first = i ∧ f.more = false ∧ i + f.answers.length = total
  | i, f :: g :: fs => f.first = i ∧ f.more = true ∧ Splits total (i + f.answers.length) (g :: fs)

theorem Splits.le {total i : ℕ} {plan : List ResponseFrame} (h : Splits total i plan) :
    i ≤ total := by
  induction plan generalizing i with
  | nil => exact h.elim
  | cons f fs ih =>
    cases fs with
    | nil => exact h.2.2 ▸ Nat.le_add_right _ _
    | cons g gs => exact (Nat.le_add_right _ _).trans (ih h.2.2)

theorem Splits.head {total i : ℕ} {f : ResponseFrame} {fs : List ResponseFrame}
    (h : Splits total i (f :: fs)) :
    f.first = i ∧ f.more = !fs.isEmpty ∧ i + f.answers.length ≤ total := by
  cases fs with
  | nil => exact ⟨h.1, h.2.1, h.2.2.le⟩
  | cons g gs => exact ⟨h.1, h.2.1, Splits.le h.2.2⟩

def answersOf (plan : List ResponseFrame) : List Fetched := plan.flatMap ResponseFrame.answers

section Split

variable (fetch : BlockKey → σ → Fetched × σ) (maxFrame total : ℕ)
  (write : UInt16 → List (List UInt8) → Effect)

theorem getFrames_cons {k : BlockKey}
    (hrun : packFrame fetch maxFrame (k :: ks) st (.of []) = (.of fs, rest, st')) :
    (getFrames fetch maxFrame total write (k :: ks) st).1 =
      (let f : ResponseFrame := ⟨total - (k :: ks).length, rest ≠ [], fs⟩
       write f.flags (f.bufs total)) :: (getFrames fetch maxFrame total write rest st').1 := by
  have hrun' : packFrame fetch maxFrame (k :: ks) st ⟨[], [], 0⟩ = (.of fs, rest, st') := hrun
  rw [getFrames, hrun']
  by_cases hrest : rest = [] <;> simp [hrest, ResponseFrame.flags, ResponseFrame.bufs, Packing.of]

theorem packFrame_takes (k : BlockKey) (ks : List BlockKey) (st : σ) :
    ∃ fs taken rest st', packFrame fetch maxFrame (k :: ks) st (.of []) = (.of fs, rest, st') ∧
      k :: ks = taken ++ rest ∧ Answers fetch st taken fs ∧ Reached fetch st st' ∧ fs ≠ [] ∧
        Fits maxFrame fs ∧
      ∀ ans, Steady fetch (k :: ks) ans →
        cutFrom maxFrame [] ((k :: ks).map ans) = fs :: cutRest maxFrame ans rest := by
  obtain ⟨fs, taken, rest, st', hrun, hkeys, hans, hst', hfit, hcut⟩ :=
    packFrame_spec fetch maxFrame (k :: ks) st [] (.inl (Nat.zero_le _))
  have hprog : (packFrame fetch maxFrame (k :: ks) st (.of [])).2.1.length < (k :: ks).length :=
    packFrame_progress fetch maxFrame k ks st
  rw [hrun, hkeys, length_append] at hprog
  refine ⟨fs, taken, rest, st', hrun, hkeys, hans, hst', ?_, hfit, hcut⟩
  rintro rfl
  have htaken := hans.length_eq
  rw [length_nil] at htaken
  dsimp only at hprog
  omega

theorem getFrames_spec (keys : List BlockKey) (st : σ) (hne : keys ≠ [])
    (htotal : keys.length ≤ total) :
    ∃ plan, (getFrames fetch maxFrame total write keys st).1 = plan.map
      (fun f => write f.flags (f.bufs total)) ∧
      Splits total (total - keys.length) plan ∧ Answers fetch st keys (answersOf plan) ∧
      (∀ f ∈ plan, Fits maxFrame f.answers) ∧
      ∀ ans, Steady fetch keys ans → plan.map ResponseFrame.answers = cutFrom maxFrame []
        (keys.map ans) := by
  induction hn : keys.length using Nat.strong_induction_on generalizing keys st with
  | _ n ih =>
    subst hn
    obtain ⟨k, ks, rfl⟩ := exists_cons_of_ne_nil hne
    obtain ⟨fs, taken, rest, st', hrun, hkeys, hans, hst', hfs, hfit, hcut⟩ :=
      packFrame_takes fetch maxFrame k ks st
    have hsplit : (k :: ks).length = fs.length + rest.length := by
      rw [hkeys, length_append, hans.length_eq]
    have hpos : 0 < fs.length := length_pos_iff.mpr hfs
    rw [getFrames_cons fetch maxFrame total write hrun]
    by_cases hrest : rest = []
    · subst hrest
      refine ⟨[⟨total - (k :: ks).length, false, fs⟩], ?_, ⟨rfl, rfl, ?_⟩, ?_, ?_,
        fun ans h => (hcut ans h).symm⟩
      · simp [getFrames]
      · rw [length_nil] at hsplit
        dsimp only
        omega
      · rw [hkeys, append_nil, answersOf, flatMap_singleton]
        exact hans
      · intro f hf
        rw [mem_singleton.mp hf]
        exact hfit
    · obtain ⟨plan, hplan, hcover, hanswers, hall, hcuts⟩ :=
        ih rest.length (by omega) rest st' hrest (by omega) rfl
      refine ⟨⟨total - (k :: ks).length, true, fs⟩ :: plan, ?_, ?_, ?_, ?_, fun ans h => ?_⟩
      · simp [hplan, hrest]
      · cases plan with
        | nil => exact hcover.elim
        | cons g gs =>
          have hi : total - (k :: ks).length + fs.length = total - rest.length := by omega
          exact ⟨rfl, rfl, hi ▸ hcover⟩
      · rw [hkeys, answersOf, flatMap_cons]
        exact rel_append hans (hanswers.later hst')
      · intro f hf
        rcases mem_cons.mp hf with rfl | hf
        · exact hfit
        · exact hall f hf
      · rw [hcut ans h, map_cons, hcuts ans fun k' hk' => h k' (hkeys ▸ mem_append_right _ hk'),
          cutRest, if_neg hrest]

theorem getFrames_singleton (k : BlockKey) (st : σ) (hone : total = 1) :
    (getFrames fetch maxFrame total write [k] st).1 =
      [write flagResp ((⟨0, false, [(fetch k st).1]⟩ : ResponseFrame).bufs 1)] := by
  have hrun : packFrame fetch maxFrame [k] st (.of []) =
      (.of [(fetch k st).1], [], (fetch k st).2) := by
    rw [packFrame]
    dsimp only
    rw [if_neg (by simp [Packing.of]), Packing.of_add, packFrame, nil_append]
  rw [getFrames_cons fetch maxFrame total write hrun, getFrames, hone]
  rfl

end Split

theorem mem_answersOf {plan : List ResponseFrame} {f : ResponseFrame} (hf : f ∈ plan) {a : Fetched}
    (ha : a ∈ f.answers) : a ∈ answersOf plan := mem_flatMap.mpr ⟨f, hf, ha⟩

theorem writeRespFlags_bufs (s : Session) (h : Header) (f : ResponseFrame) (total : ℕ)
    (hlt : frameLen f.answers < 2 ^ 32) :
    ∃ hd : Header, writeRespFlags s h f.flags (f.bufs total) = .write hd (f.bufs total) ∧
      hd.opcode = h.opcode ∧
      hd.flags = f.flags ∧ hd.payloadLen.toNat = frameLen f.answers := by
  refine ⟨_, rfl, rfl, rfl, ?_⟩
  change (UInt32.ofNat ((f.bufs total).map length).sum).toNat = _
  rw [f.sum_length_bufs]
  exact UInt32.toNat_ofNat_of_lt' hlt

theorem handleBatchGet_spec (srv : Server σ) (h : Header) {body : List UInt8} (st : State σ)
    {aux : UInt32} (hkeys : decodeKeys st.sess body = .ok (aux, keys)) :
    ∃ plan, (handleBatchGet srv h body st).2 =
        consume h :: plan.map (fun f => writeRespFlags st.sess h f.flags (f.bufs keys.length)) ∧
      Splits keys.length 0 plan ∧ Answers (srv.store.getter.fetch st.sess.ns) st.store keys
        (answersOf plan) ∧
      (∀ f ∈ plan, Fits st.sess.limits.maxFrameLen.toNat f.answers) ∧
      ∀ ans, Steady (srv.store.getter.fetch st.sess.ns) keys ans →
        plan.map ResponseFrame.answers = cutFrom st.sess.limits.maxFrameLen.toNat []
          (keys.map ans) := by
  unfold handleBatchGet
  rw [hkeys]
  dsimp only
  by_cases hempty : keys = []
  · subst hempty
    refine ⟨[⟨0, false, []⟩], ?_, ⟨rfl, rfl, rfl⟩, .nil, ?_, fun _ _ => rfl⟩
    · rw [if_pos rfl]
      rfl
    · intro f hf
      rw [mem_singleton.mp hf]
      exact .inl (Nat.zero_le _)
  · obtain ⟨plan, hplan, hcover, hrest⟩ :=
      getFrames_spec (srv.store.getter.fetch st.sess.ns)
        st.sess.limits.maxFrameLen.toNat keys.length
        (writeRespFlags st.sess h) keys st.store hempty le_rfl
    rw [Nat.sub_self] at hcover
    refine ⟨plan, ?_, hcover, hrest⟩
    rw [if_neg hempty, ← hplan]

theorem handleBatchGet_singleton (srv : Server σ) (h : Header) {body : List UInt8} (st : State σ)
    {aux : UInt32} {k : BlockKey} (hkey : decodeKeys st.sess body = .ok (aux, [k])) :
    (handleBatchGet srv h body st).2 = [consume h, writeRespFlags st.sess h flagResp
      ((⟨0, false, [(srv.store.getter.fetch st.sess.ns k st.store).1]⟩ :
        ResponseFrame).bufs 1)] := by
  unfold handleBatchGet
  rw [hkey]
  dsimp only
  rw [if_neg (cons_ne_nil _ _), length_singleton, getFrames_singleton _ _ _ _ _ _ rfl]

end KVStash.Serving
