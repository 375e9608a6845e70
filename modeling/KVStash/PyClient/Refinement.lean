/- GID: KVStash/PyClient/Refinement
   digest: The merged-read GET of the Python client against the plain parse, for every stream and
     every kernel. -/

import KVStash.PyClient.Frames
import KVStash.Client.AnyServer

set_option autoImplicit false

namespace KVStash.PyClient

open Foundation.Bytes Foundation.Socket Nvme Wire Client List

def More (f : Frame) : Prop := f.header.flags &&& flagMore ≠ 0

/-- A call of `n` keys can come to the frame with header `h`, whose payload is in front of `u`:
whole answers to the keys so far, each of which announces another one, are before it. -/
def Reached (dg : Digests) (n : ℕ) (s : List UInt8) (h : Header) (u : List UInt8) : Prop :=
  ∃ fs t seen, Behind (parse dg) s fs t ∧ (∀ f ∈ fs, More f) ∧ Contiguous n 0 fs seen ∧
    headerAt (parse dg) t = some (h, u) ∧ isCredit h = false ∧ h.flags &&& flagFatal = 0

def Refuses (u : List UInt8) : Prop :=
  preambleSize ≤ u.length ∧ Checked.carriesBody (regionStatus u) = false

/-- A frame that refuses the batch is only its preamble. -/
def BareRefusals (dg : Digests) (n : ℕ) (s : List UInt8) : Prop :=
  ∀ h u, Reached dg n s h u → Refuses u → h.payloadLen.toNat = preambleSize

/-- The last frame of the answer, if the stream goes on behind it, has a preamble. -/
def LastPreambled (dg : Digests) (n : ℕ) (s : List UInt8) : Prop :=
  ∀ h u, Reached dg n s h u → h.flags &&& flagMore = 0 → h.payloadLen.toNat < u.length →
    preambleSize ≤ h.payloadLen.toNat

def blocksOf (fs : List Frame) : List Block := fs.flatMap fun f => plainFrame f.payload

/-- What a call consumed of a stream, however it ends: whole frames that each announce another one,
and then part of the next frame. What was handed over is what the plain parse hands over of these
frames, in order. -/
def Consumed (E : Env) (n : ℕ) (s : List UInt8) (log : List Served) (rest : List UInt8) : Prop :=
  ∃ fs t bs seen, Behind (parse E.dg) s fs t ∧ (∀ f ∈ fs, More f) ∧ Contiguous n 0 fs seen ∧
    Within E t bs rest ∧
    plainServe E [] (blocksOf fs ++ bs) = some log

/-- No byte behind the last frame of the answer is gone. -/
def NotPast (dg : Digests) (s rest : List UInt8) : Prop :=
  ∀ fs f t, Behind (parse dg) s (fs ++ [f]) t → ¬More f → t <:+ rest

/-- How a call ends: with the frames of a whole answer; with the status of a batch that was refused,
and at a frame boundary exactly if refusals are bare; or with an error that evicts the
connection. -/
def Ending (E : Env) (n : ℕ) (s : List UInt8) (log : List Served) (rest : List UInt8) :
    Except ClientError (List Status) → Prop
  | .ok statuses =>
      ∃ fs, Behind (parse E.dg) s fs rest ∧ Contiguous n 0 fs n ∧ (∀ f ∈ fs.dropLast, More f) ∧
      (∀ f ∈ fs.getLast?, ¬More f) ∧ plainServe E [] (blocksOf fs) = some log ∧
        statuses = statusesOf E n log
  | .error (.statusError c) => Checked.carriesBody c = false ∧
      ((∃ fs, Behind (parse E.dg) s fs rest) ↔ BareRefusals E.dg n s)
  | .error e => e.evicts = true

variable {E : Env} {n : ℕ} {s : List UInt8} {rest t' : List UInt8}

theorem Ending.of_evicts {log : List Served} {e : ClientError} (he : e.evicts = true) :
    Ending E n s log rest (.error e) := by
  cases e with
  | statusError c => cases he
  | _ => exact he

/-! ## Where a call stopped -/

section Stop

variable {dg : Digests} {fs hs : List Frame} {t u u' : List UInt8} {h h' : Header}
  {log : List Served}

theorem Contiguous.whole {seen stop : ℕ} (hc : Contiguous n seen fs stop) {f : Frame}
    (hf : f ∈ fs) :
    Checked.carriesBody (regionStatus f.payload) = true ∧
      f.payload.length = frameSize f.payload := by
  induction fs generalizing seen with
  | nil => cases hf
  | cons g fs ih =>
    obtain ⟨h1, -, -, h4, h5⟩ := hc
    rcases mem_cons.mp hf with rfl | hf
    · exact ⟨h1, h4⟩
    · exact ih h5 hf

theorem Contiguous.not_refuses {seen stop : ℕ} (hc : Contiguous n seen fs stop)
    (hf : (⟨h, u.take h.payloadLen.toNat⟩ : Frame) ∈ fs) : ¬Refuses u := by
  rintro ⟨-, hno⟩
  obtain ⟨hyes, hlen⟩ := hc.whole hf
  have hpre : preambleSize ≤ h.payloadLen.toNat := by
    refine le_trans ?_ (length_take_le h.payloadLen.toNat u)
    rw [hlen, frameSize, regionSize]
    omega
  rw [regionStatus_take hpre, hno] at hyes
  cases hyes

/-- A frame that refuses the batch is the only one of the stream that a call can end with. -/
theorem Reached.unique (hr : Reached dg n s h u) (hu : Refuses u) (hr' : Reached dg n s h' u')
    (hu' : Refuses u') : h' = h ∧ u' = u := by
  obtain ⟨fs, t, seen, hb, -, hcont, hhead, hcredit, -⟩ := hr
  obtain ⟨fs', t', seen', hb', -, hcont', hhead', hcredit', -⟩ := hr'
  rcases hb.total hb' with ⟨hs, hbetween, rfl⟩ | ⟨hs, hbetween, rfl⟩
  · rcases hbetween.of_headerAt hhead hcredit with ⟨-, rfl⟩ | ⟨hs', rfl, -, -⟩
    · exact Prod.mk.inj (Option.some.inj (hhead'.symm.trans hhead))
    · exact absurd hu (hcont'.not_refuses (mem_append_right _ mem_cons_self))
  · rcases hbetween.of_headerAt hhead' hcredit' with ⟨-, rfl⟩ | ⟨hs', rfl, -, -⟩
    · exact Prod.mk.inj (Option.some.inj (hhead'.symm.trans hhead))
    · exact absurd hu' (hcont.not_refuses (mem_append_right _ mem_cons_self))

/-- A call that stops behind the preamble of a refusal is at a frame boundary exactly if refusals
are bare. -/
theorem Reached.boundary_iff (hr : Reached dg n s h u) (hu : Refuses u) :
    (∃ fs, Behind (parse dg) s fs (u.drop preambleSize)) ↔ BareRefusals dg n s := by
  refine ⟨fun ⟨fs', hb'⟩ h' u' hr' hu' => ?_, fun hbare => ?_⟩
  · obtain ⟨rfl, rfl⟩ := hr.unique hu hr' hu'
    obtain ⟨fs, t, seen, hb, -, -, hhead, hcredit, -⟩ := hr
    have hpos : preambleSize < headerSize := by decide
    have hlong := hu.1
    obtain ⟨hht, htu⟩ := headerAt_eq hhead
    have hut : t.length = u'.length + headerSize := by
      rw [htu, length_drop]
      omega
    rcases hb.total hb' with ⟨hs, hrest, -⟩ | ⟨hs, hback, -⟩
    · rcases hrest.of_headerAt hhead hcredit with ⟨-, heq⟩ | ⟨hs', -, hle, hrest'⟩
      · have := congrArg length heq
        rw [length_drop] at this
        omega
      -- between the end of the frame and the place there is no room for another header
      · rcases hrest'.here_or_header with ⟨-, heq⟩ | ⟨hroom, hsuf⟩
        · have := congrArg length heq
          rw [length_drop, length_drop] at this
          omega
        · have := hsuf.length_le
          rw [length_drop] at hroom
          rw [length_drop, length_drop, length_drop] at this
          omega
    · have := hback.suffix.length_le
      rw [length_drop] at this
      omega
  · have hlen := hbare h u hr hu
    obtain ⟨fs, t, seen, hb, -, -, hhead, hcredit, -⟩ := hr
    have hconcat := hb.concat hhead hcredit (hlen ▸ hu.1)
    rw [hlen] at hconcat
    exact ⟨_, hconcat⟩

theorem Consumed.notPast (hc : Consumed E n s log rest) (hlast : LastPreambled E.dg n s) :
    NotPast E.dg s rest := by
  obtain ⟨fs, t, bs, seen, hb, hmore, hcont, hwithin, -⟩ := hc
  intro fs' f t' hb' hno
  have hnot : f ∉ fs := fun hf => hno (hmore f hf)
  obtain ⟨hs, hrest, heq⟩ : ∃ hs, Behind (parse E.dg) t hs t' ∧ fs' ++ [f] = fs ++ hs := by
    rcases hb.total hb' with hfwd | ⟨hs, -, rfl⟩
    · exact hfwd
    · exact absurd (mem_append_left _ (mem_append_right _ (mem_singleton_self f))) hnot
  have hf : f ∈ hs := by
    have : f ∈ fs ++ hs := heq ▸ mem_append_right _ (mem_singleton_self f)
    exact (mem_append.mp this).resolve_left hnot
  rcases hwithin with ⟨-, m, hm, rfl⟩ | ⟨h, u, hhead, -, -, m, rfl, hm⟩
  · rcases hrest.here_or_header with ⟨rfl, -⟩ | ⟨-, hsuf⟩
    · cases hf
    · exact hsuf.trans (drop_suffix_drop_left _ hm)
  have hend : t' <:+ u.drop h.payloadLen.toNat := by
    cases hrest with
    | here => cases hf
    | credit hhead' _ _ hr | frame hhead' _ _ hr =>
      obtain ⟨rfl, rfl⟩ := Prod.mk.inj (Option.some.inj (hhead.symm.trans hhead'))
      exact hr.suffix
  rcases hm with hm | ⟨hm, hcredit, hfatal⟩
  · exact hend.trans (drop_suffix_drop_left _ hm)
  -- the bytes of a preamble may be gone; either the frame has them or it is not the last one
  by_cases hpre : preambleSize ≤ h.payloadLen.toNat
  · exact hend.trans (drop_suffix_drop_left _ (hm.trans hpre))
  by_cases hover : h.payloadLen.toNat < u.length
  swap
  · rw [drop_eq_nil_of_le (not_lt.mp hover), suffix_nil] at hend
    rw [hend]
    exact nil_suffix
  have hannounced : h.flags &&& flagMore ≠ 0 := fun h0 =>
    hpre (hlast h u ⟨fs, t, seen, hb, hmore, hcont, hhead, hcredit, hfatal⟩ h0 hover)
  rcases hrest.of_headerAt hhead hcredit with ⟨rfl, -⟩ | ⟨hs', rfl, -, hrest'⟩
  · cases hf
  rcases hrest'.here_or_header with ⟨rfl, -⟩ | ⟨-, hsuf⟩
  · obtain rfl := mem_singleton.mp hf
    exact absurd hannounced hno
  · rw [drop_drop] at hsuf
    have hpos : preambleSize ≤ headerSize := by decide
    exact hsuf.trans (drop_suffix_drop_left _ (by omega))

end Stop

/-! ## The frame loop -/

/-- The frames read before, as the next frame is about to be read. -/
structure SoFar (E : Env) (n : ℕ) (s : List UInt8) (seen : ℕ) (fs : List Frame) (wk : Work)
    (t : List UInt8) :
    Prop where
  behind : Behind (parse E.dg) s fs t
  more : ∀ f ∈ fs, More f
  contiguous : Contiguous n 0 fs seen
  served : plainServe E [] (blocksOf fs) = some wk.log
  agree : Agree E n seen wk

section Step

variable {seen : ℕ} {fs : List Frame} {wk wk' : Work} {t u : List UInt8} {h : Header}

theorem SoFar.behind_credit (hs : SoFar E n s seen fs wk t) (ht : Behind (parse E.dg) t [] t') :
    SoFar E n s seen fs wk t' := by
  have hbehind := hs.behind.trans ht
  rw [append_nil] at hbehind
  exact ⟨hbehind, hs.more, hs.contiguous, hs.served, hs.agree⟩

theorem SoFar.stop (hs : SoFar E n s seen fs wk t) {bs : List Block} {log : List Served}
    (ht : Behind (parse E.dg) t [] t') (hwithin : Within E t' bs rest)
    (hserve : plainServe E wk.log bs = some log) : Consumed E n s log rest := by
  refine ⟨fs, t', bs, seen, (hs.behind_credit ht).behind, hs.more, hs.contiguous, hwithin, ?_⟩
  rw [plainServe_append, hs.served]
  exact hserve

theorem SoFar.frame (hs : SoFar E n s seen fs wk t) (hhead : headerAt (parse E.dg) t = some (h, u))
    (hcredit : isCredit h = false) (ha : Answers n seen u) (hlen : h.payloadLen.toNat = frameSize u)
    (hserve : plainServe E wk.log (plainFrame u) = some wk'.log) :
    Behind (parse E.dg) s (fs ++ [⟨h, u.take h.payloadLen.toNat⟩]) (u.drop h.payloadLen.toNat) ∧
      Contiguous n 0 (fs ++ [⟨h, u.take h.payloadLen.toNat⟩]) (seen + regionCount u) ∧
      plainServe E [] (blocksOf (fs ++ [⟨h, u.take h.payloadLen.toNat⟩])) = some wk'.log := by
  have hregion : regionSize u ≤ h.payloadLen.toNat := hlen ▸ Nat.le_add_right _ _
  have hpre : preambleSize ≤ h.payloadLen.toNat := by
    refine le_trans ?_ hregion
    rw [regionSize, Nat.add_assoc]
    exact Nat.le_add_right _ _
  refine ⟨hs.behind.concat hhead hcredit (hlen ▸ ha.whole), ?_, ?_⟩
  · rw [← regionCount_take hregion]
    refine hs.contiguous.concat ?_ ?_ ?_ ?_
    · rw [regionStatus_take hpre]
      exact ha.status
    · rw [regionTotal_take hregion]
      exact ha.total
    · rw [regionFirst_take hregion]
      exact ha.first
    · rw [frameSize_take hregion, length_take_of_le (hlen ▸ ha.whole), hlen]
  · rw [blocksOf, flatMap_append, plainServe_append]
    have hserved := hs.served
    rw [blocksOf] at hserved
    rw [hserved, flatMap_singleton, plainFrame_take (le_of_eq hlen.symm)]
    exact hserve

end Step

/-- Whatever the frame loop meets, it stops inside the answer, and what it handed over is what the
plain parse does. -/
theorem getLoop_spec {seen : ℕ} {fs : List Frame} {wk wk' : Work} {k k' : Sock}
    {r : Except ClientError (List Status)} (htame : E.Tame) (hs : SoFar E n s seen fs wk k.stream)
    (h : getLoop E n seen wk k = (r, wk', k')) :
    Consumed E n s wk'.log k'.stream ∧ Ending E n s wk'.log k'.stream r := by
  -- along the loop; the frames read so far grow
  fun_induction getLoop E n seen wk k generalizing fs with
  | case1 seen wk k hlate =>
    cases h
    exact ⟨hs.stop (.here _) (.inl ⟨rfl, 0, Nat.zero_le _, rfl⟩) rfl, .of_evicts rfl⟩
  | case2 seen wk k hlate e k₁ hnext =>
    cases h
    obtain ⟨hev, t, ht, hwithin⟩ := nextHeader_spec hnext
    exact ⟨hs.stop ht hwithin rfl, .of_evicts hev⟩
  | case3 seen wk k hlate hd k₁ hnext e wk₁ k₂ hframe =>
    cases h
    obtain ⟨t, ht, hhead, hcredit, hfatal⟩ := nextHeader_spec hnext
    obtain ⟨bs, hbs, hwhole, hserve, hend⟩ := readFrame_spec htame hframe
    have hbehind := (hs.behind_credit ht).behind
    cases e with
    | statusError c =>
      obtain ⟨rfl, hno, hlong, hrest⟩ := hend
      have hreached : Reached E.dg n s hd k₁.stream :=
        ⟨fs, t, seen, hbehind, hs.more, hs.contiguous, hhead, hcredit, hfatal⟩
      refine ⟨hs.stop ht
        (.inr ⟨hd, k₁.stream, hhead, hbs, hwhole, _, hrest, .inr ⟨le_rfl, hcredit, hfatal⟩⟩) hserve,
        hno, ?_⟩
      rw [hrest]
      exact hreached.boundary_iff ⟨hlong, hno⟩
    | _ =>
      obtain ⟨hev, m, hm, hrest⟩ := hend
      refine ⟨hs.stop ht (.inr ⟨hd, k₁.stream, hhead, hbs, hwhole, m, hrest, ?_⟩) hserve,
        .of_evicts hev⟩
      exact (le_max_iff.mp hm).symm.imp_right fun hm => ⟨hm, hcredit, hfatal⟩
  | case4 seen wk k hlate hd k₁ hnext seen₁ wk₁ k₂ hframe hlast hshort =>
    cases h
    obtain ⟨t, ht, hhead, hcredit, hfatal⟩ := nextHeader_spec hnext
    obtain ⟨bs, hbs, hwhole, hserve, ha, hlen, -, -, hrest, -⟩ := readFrame_spec htame hframe
    exact ⟨hs.stop ht (.inr ⟨hd, k₁.stream, hhead, hbs, hwhole, _, hrest, .inl le_rfl⟩) hserve,
      .of_evicts rfl⟩
  | case5 seen wk k hlate hd k₁ hnext seen₁ wk₁ k₂ hframe hlast hall =>
    cases h
    obtain ⟨t, ht, hhead, hcredit, hfatal⟩ := nextHeader_spec hnext
    obtain ⟨bs, hbs, hwhole, hserve, ha, hlen, hseen, hplain, hrest, hagree⟩ :=
      readFrame_spec htame hframe
    have hs' := hs.behind_credit ht
    obtain ⟨hbehind, hcont, hserved⟩ := hs'.frame hhead hcredit ha hlen (hplain ▸ hserve)
    obtain rfl : seen₁ = n := not_not.mp hall
    refine ⟨hs.stop ht (.inr ⟨hd, k₁.stream, hhead, hbs, hwhole, _, hrest, .inl le_rfl⟩) hserve,
      fs ++ [⟨hd, k₁.stream.take hd.payloadLen.toNat⟩], hrest ▸ hbehind, hseen ▸ hcont,
      ?_, ?_, hserved, (hagree hs.agree).1⟩
    · rw [dropLast_concat]
      exact hs.more
    · rw [getLast?_concat]
      rintro f ⟨⟩
      exact not_not.mpr hlast
  | case6 seen wk k hlate hd k₁ hnext seen₁ wk₁ k₂ hframe hmore ih =>
    obtain ⟨t, ht, hhead, hcredit, hfatal⟩ := nextHeader_spec hnext
    obtain ⟨bs, hbs, hwhole, hserve, ha, hlen, hseen, hplain, hrest, hagree⟩ :=
      readFrame_spec htame hframe
    have hs' := hs.behind_credit ht
    obtain ⟨hbehind, hcont, hserved⟩ := hs'.frame hhead hcredit ha hlen (hplain ▸ hserve)
    refine ih ⟨hrest ▸ hbehind, ?_, hseen ▸ hcont, hserved, hagree hs.agree⟩ h
    intro f hf
    rcases mem_append.mp hf with hf | hf
    · exact hs.more f hf
    · rw [mem_singleton.mp hf]
      exact hmore

/-! ## Every stream -/

/-- A call whose receives give one byte at a time, and whose allocator refuses every block. -/
def bytewise (dg : Digests) (hash : List UInt8 → UInt64) : Env :=
  ⟨dg, hash, ⟨fun _ => some 0, fun _ => false⟩, true, true, 32, 0, fun _ _ => .refuse⟩

theorem headerAt_parse_getFrame (n : UInt32) (t : List UInt8) :
    headerAt (parse .zero) ((getFrame flagResp n).marshal .zero ++ t) =
      some (getFrame flagResp n, t) := by
  have hcap : n ≤ 4294967295 := UInt32.le_iff_toNat_le.mpr (Nat.le_of_lt_succ n.toNat_lt)
  refine headerAt_append ((getFrame flagResp n).length_marshal .zero) ?_ t
  rw [parse, parseHeader_marshal_ok .zero (h := getFrame flagResp n) hcap]

end KVStash.PyClient
