/- GID: KVStash/PyClient/Frames
   digest: What the client has read of a frame after its header, its region and its blocks. -/

import KVStash.PyClient.Scatter

set_option autoImplicit false

namespace KVStash.PyClient

open Foundation.Bytes Foundation.Socket Nvme Wire Client List

variable {E : Env} {t u rest hb : List UInt8} {m n seen len : ℕ}

/-! ## The region -/

section Region

variable {h : Header} {n : ℕ} {k k' : Sock}

theorem regionStatus_take (hm : preambleSize ≤ m) : regionStatus (t.take m) = regionStatus t := by
  rw [regionStatus, leAt_take ((by decide : 0 + 1 ≤ preambleSize).trans hm), regionStatus]

theorem regionTotal_take (hm : regionSize t ≤ m) : regionTotal (t.take m) = regionTotal t := by
  have hwords : preambleSize + 8 ≤ m := (Nat.le_add_right _ _).trans hm
  exact leAt_take ((by decide : 12 + 4 ≤ preambleSize + 8).trans hwords)

/-- How the read of a region ends. It is that of the frame, and the frame is as long as its
descriptors say; the bytes read along with it are the first of its blocks, and a refused batch is
only its preamble. Or the connection is evicted, and nothing behind the frame was read, unless the
frame is shorter than a preamble. -/
def Opened (E : Env) (len : ℕ) (u rest : List UInt8) : Except ClientError Region → Prop
  | .ok r => preambleSize ≤ u.length ∧ r.status = regionStatus u ∧
      (Checked.carriesBody r.status = false → rest = u.drop preambleSize) ∧
      (Checked.carriesBody r.status = true → len = frameSize u ∧ regionSize u ≤ u.length ∧
        r.first = regionFirst u ∧ r.total = regionTotal u ∧ r.descs = regionDescs u ∧
        r.lead ++ rest = u.drop (regionSize u) ∧ r.lead.length ≤ E.frontLen ∧
          r.lead.length ≤ okLen r.descs)
  | .error e => e.evicts = true ∧ ∃ m ≤ max preambleSize len, rest = u.drop m

theorem readRegion_spec {r : Except ClientError Region} (hr : readRegion E h n k = (r, k')) :
    Opened E h.payloadLen.toNat k.stream k'.stream r := by
  unfold readRegion at hr
  split at hr
  · next k₁ hpre =>
    cases hr
    obtain ⟨m, hm, hk⟩ := recvInto_none hpre
    exact ⟨rfl, m, hm.trans (le_max_left _ _), hk⟩
  next pre k₁ hpre =>
  obtain ⟨hlen, rfl, hk₁⟩ := recvInto_some hpre
  have hstatus : (UInt8.ofNat (leAt (k.stream.take preambleSize) 0 1) : Status) =
      regionStatus k.stream := by
    rw [leAt_take (by decide), regionStatus]
  have hcount : leAt (k.stream.take preambleSize) 4 4 = regionCount k.stream := by
    rw [leAt_take (by decide), regionCount]
  rw [hstatus, hcount] at hr
  dsimp only at hr
  split_ifs at hr with hrefused hmany hshort
  · cases hr
    exact ⟨hlen, rfl, fun _ => hk₁,
      fun hyes => absurd (hrefused.symm.trans hyes) Bool.false_ne_true⟩
  · cases hr
    exact ⟨rfl, _, le_max_left _ _, hk₁⟩
  · cases hr
    exact ⟨rfl, _, le_max_left _ _, hk₁⟩
  have hsize : preambleSize + (8 + descSize * regionCount k.stream) = regionSize k.stream := by
    rw [regionSize, Nat.mul_comm, Nat.add_assoc]
  generalize 8 + descSize * regionCount k.stream = restLen at hr hshort hsize
  obtain ⟨extra, hextra⟩ : ∃ x, min E.frontLen (h.payloadLen.toNat - preambleSize - restLen) = x :=
    ⟨_, rfl⟩
  rw [hextra] at hr
  split at hr
  · next k₂ hrest =>
    cases hr
    obtain ⟨m, hm, hk⟩ := recvInto_none hrest
    exact ⟨rfl, preambleSize + m, by omega, by rw [hk, hk₁, drop_drop]⟩
  next rest k₂ hrest =>
  obtain ⟨hlen₂, rfl, hk₂⟩ := recvInto_some hrest
  have hregion : k.stream.take preambleSize ++ (k₁.stream.take (restLen + extra)).take restLen =
      k.stream.take (regionSize k.stream) := by
    rw [take_take, Nat.min_eq_left (Nat.le_add_right _ _), hk₁, ← hsize]
    exact take_add.symm
  have hlead : (k₁.stream.take (restLen + extra)).drop restLen =
      (k₁.stream.drop restLen).take extra := by
    rw [drop_take, Nat.add_sub_cancel_left]
  rw [hregion, hlead, regionDescs_take (le_refl _), regionFirst_take (le_refl _),
    regionTotal_take (le_refl _)] at hr
  rw [hk₁, length_drop] at hlen₂
  split_ifs at hr with hlens
  · cases hr
    exact ⟨rfl, preambleSize + (restLen + extra), by omega, by rw [hk₂, hk₁, drop_drop]⟩
  cases hr
  have hlens := not_not.mp hlens
  have hle : ((k₁.stream.drop restLen).take extra).length ≤ extra := length_take_le _ _
  refine ⟨hlen, rfl, fun hno => absurd hno hrefused,
    fun _ => ⟨?_, by omega, rfl, rfl, rfl, ?_, ?_, ?_⟩⟩
  · rw [frameSize, hlens]
    omega
  · rw [hk₂, ← drop_drop, take_append_drop, hk₁, drop_drop, hsize]
  · exact hle.trans (hextra ▸ Nat.min_le_left _ _)
  · rw [hlens]
    exact hle.trans (hextra ▸ Nat.min_le_right _ _)

end Region

/-! ## A frame behind its header -/

/-- What holds of a frame that was read as an answer to keys from `seen` on. -/
structure Answers (n seen : ℕ) (u : List UInt8) : Prop where
  status : Checked.carriesBody (regionStatus u) = true
  total : regionTotal u = n
  first : regionFirst u = seen
  inside : seen + regionCount u ≤ n
  whole : frameSize u ≤ u.length

/-- How the read of a frame ends, whose header declares `len` bytes of the stream `u`: with the
whole frame, with the status of a refused batch, or with an error that evicts the connection. -/
def Framed (E : Env) (n seen len : ℕ) (u : List UInt8) (bs : List Block) (wk wk' : Work)
    (rest : List UInt8) :
    Except ClientError ℕ → Prop
  | .ok seen' =>
      Answers n seen u ∧ len = frameSize u ∧ seen' = seen + regionCount u ∧ bs = plainFrame u ∧
      rest = u.drop len ∧ (Agree E n seen wk → Agree E n seen' wk')
  | .error (.statusError c) =>
      c = regionStatus u ∧ Checked.carriesBody c = false ∧ preambleSize ≤ u.length ∧
      rest = u.drop preambleSize
  | .error e => e.evicts = true ∧ ∃ m ≤ max preambleSize len, rest = u.drop m

theorem Framed.of_evicts {bs : List Block} {wk wk' : Work} {e : ClientError}
    (he : e.evicts = true) (hm : ∃ m ≤ max preambleSize len, rest = u.drop m) :
    Framed E n seen len u bs wk wk' rest (.error e) := by
  cases e with
  | statusError c => cases he
  | _ => exact ⟨he, hm⟩

theorem readFrame_spec (htame : E.Tame) {h : Header} {wk wk' : Work} {k k' : Sock}
    {r : Except ClientError ℕ} (hr : readFrame E n seen h wk k = (r, wk', k')) :
    ∃ bs, bs <+: plainFrame k.stream ∧ (∀ b ∈ bs, b.Whole) ∧ plainServe E wk.log bs = some wk'.log ∧
      Framed E n seen h.payloadLen.toNat k.stream bs wk wk' k'.stream r := by
  unfold readFrame at hr
  split at hr
  · next e k₁ hregion =>
    cases hr
    obtain ⟨hev, hm⟩ := readRegion_spec hregion
    exact ⟨[], nil_prefix, by simp, rfl, .of_evicts hev hm⟩
  next g k₁ hregion =>
  obtain ⟨hpre, hstatus, hrefused, hfull⟩ := readRegion_spec hregion
  split_ifs at hr with hno htotal hwindow
  · cases hr
    exact ⟨[], nil_prefix, by simp, rfl, hstatus, hno, hpre, hrefused hno⟩
  all_goals
    have hyes : Checked.carriesBody g.status = true := by simpa using hno
    obtain ⟨hlen, hlong, hfirst, htot, hdescs, hlead, hlead₁, hlead₂⟩ := hfull hyes
    have hcount : g.descs.length = regionCount k.stream := by rw [hdescs, length_regionDescs]
    -- what was read along with the region, counted from the start of the frame
    have hstart : k₁.stream = k.stream.drop (regionSize k.stream + g.lead.length) := by
      rw [← drop_drop, ← hlead, drop_left]
    have hinside : regionSize k.stream + g.lead.length ≤ max preambleSize h.payloadLen.toNat := by
      rw [hlen, frameSize, ← hdescs]
      omega
  · cases hr
    exact ⟨[], nil_prefix, by simp, rfl, .of_evicts rfl ⟨_, hinside, hstart⟩⟩
  · cases hr
    exact ⟨[], nil_prefix, by simp, rfl, .of_evicts rfl ⟨_, hinside, hstart⟩⟩
  have hseen : g.first = seen ∧ g.first + g.descs.length ≤ n := by omega
  split at hr
  · next e wk₁ k₂ hall =>
    cases hr
    obtain ⟨bs, hbs, hwhole, hserve, hev, m, hm, hk⟩ :=
      scatterAll_spec htame hlead hlead₁ hlead₂ hall
    rw [hdescs] at hm
    refine ⟨bs, by rwa [plainFrame, ← hfirst, ← hdescs], hwhole, hserve, .of_evicts hev
      ⟨regionSize k.stream + m, ?_, by rw [hk, drop_drop]⟩⟩
    rw [hlen, frameSize]
    omega
  · next lead wk₁ k₂ hall =>
    obtain ⟨bs, hbs, hwhole, hserve, hnil, hblocks, hok, hk, hagree⟩ :=
      scatterAll_spec htame hlead hlead₁ hlead₂ hall
    rw [hdescs, length_drop] at hok
    rw [if_neg (not_not.mpr hnil)] at hr
    cases hr
    have hplain : bs = plainFrame k.stream := by rw [hblocks, plainFrame, hfirst, hdescs]
    refine ⟨bs, hplain ▸ prefix_rfl, hwhole, hserve, ⟨hstatus ▸ hyes, ?_, ?_, ?_, ?_⟩, hlen, ?_,
      hplain, ?_, ?_⟩
    · rw [← htot]
      exact not_not.mp htotal
    · rw [← hfirst, hseen.1]
    · rw [← hcount, ← hseen.1]
      exact hseen.2
    · rw [frameSize]
      omega
    · rw [hseen.1, hcount]
    · rw [hk, drop_drop, hlen, frameSize, hdescs]
    · intro h0
      exact hagree n (hseen.1.symm ▸ h0)

/-! ## The next header -/

/-- A call stopped in front of a frame, in its header or in its payload, which hold the given
blocks. Of a frame that is shorter than a preamble the bytes of a preamble may be gone. -/
def Within (E : Env) (t : List UInt8) (bs : List Block) (rest : List UInt8) : Prop :=
  (bs = [] ∧ ∃ m ≤ headerSize, rest = t.drop m) ∨
    ∃ h u, headerAt (parse E.dg) t = some (h, u) ∧ bs <+: plainFrame u ∧ (∀ b ∈ bs, b.Whole) ∧
      ∃ m, rest = u.drop m ∧ (m ≤ h.payloadLen.toNat ∨
        m ≤ preambleSize ∧ isCredit h = false ∧ h.flags &&& flagFatal = 0)

theorem Within.inside {h : Header} (hhead : headerAt (parse E.dg) t = some (h, u))
    (hm : ∃ m ≤ h.payloadLen.toNat, rest = u.drop m) : Within E t [] rest := by
  obtain ⟨m, hm, hrest⟩ := hm
  exact .inr ⟨h, u, hhead, nil_prefix, by simp, m, hrest, .inl hm⟩

theorem headerAt_of_recvInto {K : Kernel} {dg : Digests} {h : Header} {k k' : Sock}
    (hread : recvInto K headerSize k = (some hb, k')) (hparse : parse dg hb = some h) :
    headerAt (parse dg) k.stream = some (h, k'.stream) := by
  obtain ⟨hlen, rfl, hk⟩ := recvInto_some hread
  rw [headerAt, if_neg (not_lt.mpr hlen), hparse, hk]
  rfl

/-- How the read of a header ends, behind credit frames: with the header of the next frame, or with
an error that evicts the connection in front of a frame or inside it. -/
def Headed (E : Env) (s rest : List UInt8) : Except ClientError Header → Prop
  | .ok h => ∃ t, Behind (parse E.dg) s [] t ∧ headerAt (parse E.dg) t = some (h, rest) ∧
      isCredit h = false ∧ h.flags &&& flagFatal = 0
  | .error e => e.evicts = true ∧ ∃ t, Behind (parse E.dg) s [] t ∧ Within E t [] rest

theorem nextHeader_spec {k k' : Sock} {r : Except ClientError Header}
    (hn : nextHeader E k = (r, k')) : Headed E k.stream k'.stream r := by
  fun_induction nextHeader E k with
  | case1 k k₁ hread =>
    cases hn
    exact ⟨rfl, k.stream, .here _, .inl ⟨rfl, recvInto_none hread⟩⟩
  | case2 k hb k₁ hread hp =>
    cases hn
    obtain ⟨-, -, hk⟩ := recvInto_some hread
    exact ⟨rfl, k.stream, .here _, .inl ⟨rfl, headerSize, le_refl _, hk⟩⟩
  | case3 k hb k₁ hread h₁ hp hc k₂ hskip =>
    cases hn
    exact ⟨rfl, k.stream, .here _, .inside (headerAt_of_recvInto hread hp) (drainLoop_none hskip)⟩
  | case4 k hb k₁ hread h₁ hp hc skipped k₂ hskip ih =>
    have hrest := ih hn
    obtain ⟨hlen, -, hk₂⟩ := drainLoop_some (by decide) hskip
    rw [hk₂] at hrest
    cases r with
    | ok h =>
      obtain ⟨t, hbehind, hrest⟩ := hrest
      exact ⟨t, .credit (headerAt_of_recvInto hread hp) hc hlen hbehind, hrest⟩
    | error e =>
      obtain ⟨hev, t, hbehind, hrest⟩ := hrest
      exact ⟨hev, t, .credit (headerAt_of_recvInto hread hp) hc hlen hbehind, hrest⟩
  | case5 k hb k₁ hread h₁ hp hc hf k₂ hbody =>
    cases hn
    exact ⟨rfl, k.stream, .here _, .inside (headerAt_of_recvInto hread hp) (recvInto_none hbody)⟩
  | case6 k hb k₁ hread h₁ hp hc hf body k₂ hbody =>
    cases hn
    exact ⟨rfl, k.stream, .here _, .inside (headerAt_of_recvInto hread hp)
      ⟨_, le_refl _, (recvInto_some hbody).2.2⟩⟩
  | case7 k hb k₁ hread h₁ hp hc hf =>
    cases hn
    exact ⟨k.stream, .here _, headerAt_of_recvInto hread hp, by simpa using hc, not_not.mp hf⟩

end KVStash.PyClient
