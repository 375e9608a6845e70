/- GID: KVStash/Client/Framing
   digest: The client's read side, and a byte stream cut into frames by their declared lengths. -/

import KVStash.Wire.Decode
import KVStash.Config

set_option autoImplicit false

namespace KVStash.Client

open Foundation.Bytes Nvme Wire

/-- Why a read of a response fails. Only `status` leaves the connection in step with the server. -/
inductive ReadError where
  | io
  | header (e : FrameError)
  | payloadTooLarge
  | status (s : Status)
  | statusBody (s : Status) (payloadLen : UInt32)
  | inconsistent (firstIndex count : UInt32) (keys : ℕ)
  | checksum (slot : ℕ)
  | missing (got keys : ℕ)
  deriving DecidableEq, Repr

def isCredit (h : Header) : Bool := h.opcode = opNop ∧ h.flags &&& flagFatal = 0

/-- The next header that is not a credit frame; the cap is the protocol's default, not the
negotiated one. -/
def nextHeader (dg : Digests) (s : List UInt8) : Except ReadError (Header × List UInt8) :=
  match _hread : readFull headerSize s with
  | none => .error .io
  | some (hb, rest) =>
    match parseHeader dg hb defaultMaxFrameLen with
    | .fatal e => .error (.header e)
    | .tooLarge _ => .error .payloadTooLarge
    | .ok h =>
      if isCredit h then
        match _hskip : readFull h.payloadLen.toNat rest with
        | none => .error .io
        | some (_, rest') => nextHeader dg rest'
      else .ok (h, rest)
termination_by s.length
decreasing_by
  have h1 := readFull_eq_some _hread
  have h2 := readFull_eq_some _hskip
  have hpos : 0 < headerSize := by decide
  rw [h1.2, h2.2, List.length_append, List.length_append, h1.1]
  omega

variable {s rest t payload hb : List UInt8} {h : Header}

theorem nextHeader_length {dg : Digests}
    (hn : nextHeader dg s = .ok (h, rest)) : rest.length < s.length := by
  have hpos : 0 < headerSize := by decide
  fun_induction nextHeader dg s with
  | case5 s hb rest₁ hread h' hp hc skipped rest' hskip ih =>
    have h1 := readFull_eq_some hread
    have h2 := readFull_eq_some hskip
    have := ih hn
    rw [h1.2, h2.2, List.length_append, List.length_append, h1.1]
    omega
  | case6 s hb rest₁ hread h' hp hc =>
    obtain ⟨rfl, rfl⟩ := Prod.mk.inj (Except.ok.inj hn)
    have h1 := readFull_eq_some hread
    rw [h1.2, List.length_append, h1.1]
    omega
  | _ => cases hn

theorem nextHeader_marshal_append (dg : Digests) (h : Header) (tail : List UInt8) :
    nextHeader dg (h.marshal dg ++ tail) =
      if defaultMaxFrameLen < h.payloadLen then .error .payloadTooLarge
      else if isCredit h then
        match readFull h.payloadLen.toNat tail with
        | none => .error .io
        | some (_, rest) => nextHeader dg rest
      else .ok (h, tail) := by
  have hread : readFull headerSize (h.marshal dg ++ tail) = some (h.marshal dg, tail) :=
    readFull_append (h.length_marshal dg) tail
  rw [nextHeader]
  split
  · next hnone => exact absurd (hread.symm.trans hnone) nofun
  next hb rest hsome =>
  obtain ⟨rfl, rfl⟩ := Prod.mk.inj (Option.some.inj (hsome.symm.trans hread))
  rw [parseHeader_marshal]
  split_ifs with hcap hc
  · rfl
  · dsimp only
    rw [if_pos hc]
    cases readFull h.payloadLen.toNat rest <;> rfl
  · dsimp only
    rw [if_neg hc]

theorem nextHeader_marshal (dg : Digests) (hcap : h.payloadLen ≤ defaultMaxFrameLen)
    (hc : isCredit h = false) (rest : List UInt8) :
    nextHeader dg (h.marshal dg ++ rest) = .ok (h, rest) := by
  rw [nextHeader_marshal_append, if_neg (UInt32.not_lt.mpr hcap), hc, if_neg Bool.false_ne_true]

theorem nextHeader_credit (dg : Digests) (hcap : h.payloadLen ≤ defaultMaxFrameLen)
    (hc : isCredit h = true) (hlen : payload.length = h.payloadLen.toNat) (rest : List UInt8) :
    nextHeader dg (h.marshal dg ++ (payload ++ rest)) = nextHeader dg rest := by
  rw [nextHeader_marshal_append, if_neg (UInt32.not_lt.mpr hcap), if_pos hc, readFull_append hlen]

/-! ## The cap of the client and the negotiated cap -/

def getResponse (payloadLen : UInt32) : Header where
  opcode := opBatchGet
  flags := flagResp
  namespaceID := 0
  credit := 0
  requestID := 1
  key := 0
  payloadLen := payloadLen

/-- Every header that the negotiated limit allows passes the client's check, and a response header
is handed to the caller, exactly where the configured ceiling or the client's own proposal is within
the default frame length. -/
theorem nextHeader_accepts_negotiated (c : Config) (keys frame : UInt32) (dg : Digests) :
    (∀ h : Header, h.payloadLen ≤ (negotiateLimits c.wireLimits keys frame).maxFrameLen →
        parseHeader dg (h.marshal dg) defaultMaxFrameLen = .ok h ∧
          (isCredit h = false → ∀ rest, nextHeader dg (h.marshal dg ++ rest) = .ok (h, rest))) ↔
      c.maxFrameLen ≤ defaultMaxFrameLen ∨ (frame ≠ 0 ∧ frame ≤ defaultMaxFrameLen) := by
  have hiff : (negotiateLimits c.wireLimits keys frame).maxFrameLen ≤ defaultMaxFrameLen ↔
      c.maxFrameLen ≤ defaultMaxFrameLen ∨ (frame ≠ 0 ∧ frame ≤ defaultMaxFrameLen) :=
    negotiateOne_le_iff (by decide)
  rw [← hiff]
  constructor
  · -- the longest header the limit allows
    intro hall
    exact payloadLen_le_of_parseHeader (hall (getResponse _) (UInt32.le_refl _)).1
  · intro hcap h hlen
    have hle := UInt32.le_trans hlen hcap
    exact ⟨parseHeader_marshal_ok dg hle, fun hc rest => nextHeader_marshal dg hle hc rest⟩

/-- The defaults with a frame ceiling of 512 MiB. -/
def wideFrames : Config := { Config.default with maxFrameLen := 536870912 }

/-- With a ceiling above the default and no proposal of its own, the client refuses a frame that the
limit it agreed to allows. -/
theorem nextHeader_refuses_lawful :
    wideFrames.validate ⟨fun _ => none, id⟩ = [] ∧
      (negotiateLimits wideFrames.wireLimits 0 0).maxFrameLen = 536870912 ∧
      ∀ dg : Digests, ∀ rest : List UInt8,
        nextHeader dg ((getResponse 268435457).marshal dg ++ rest) = .error .payloadTooLarge := by
  refine ⟨by decide +kernel, by decide, fun dg rest => ?_⟩
  rw [nextHeader_marshal_append, if_pos (by decide)]

/-- A frame: its header and the bytes the header declares. -/
structure Frame where
  header : Header
  payload : List UInt8

section Cut

/- How a receiver reads a header; it may refuse one. -/
variable (parse : List UInt8 → Option Header)

def headerAt (s : List UInt8) : Option (Header × List UInt8) :=
  if s.length < headerSize then none else (parse (s.take headerSize)).map fun h =>
    (h, s.drop headerSize)

/-- The stream is some whole frames and the given rest: the rest starts at a frame boundary. Credit
frames are passed over. -/
inductive Behind : List UInt8 → List Frame → List UInt8 → Prop where
  | here (s : List UInt8) : Behind s [] s
  | credit {s t rest : List UInt8} {h : Header} {fs : List Frame}
      (hhead : headerAt parse s = some (h, t))
      (hcredit : isCredit h = true) (hwhole : h.payloadLen.toNat ≤ t.length)
      (hrest : Behind (t.drop h.payloadLen.toNat) fs rest) : Behind s fs rest
  | frame {s t rest : List UInt8} {h : Header} {fs : List Frame}
      (hhead : headerAt parse s = some (h, t))
      (hcredit : isCredit h = false) (hwhole : h.payloadLen.toNat ≤ t.length)
      (hrest : Behind (t.drop h.payloadLen.toNat) fs rest) :
      Behind s (⟨h, t.take h.payloadLen.toNat⟩ :: fs) rest

end Cut

variable {parse : List UInt8 → Option Header} {fs gs : List Frame}

theorem Behind.trans (h : Behind parse s fs t)
    (h' : Behind parse t gs rest) : Behind parse s (fs ++ gs) rest := by
  induction h with
  | here => exact h'
  | credit hhead hcredit hwhole _ ih => exact .credit hhead hcredit hwhole (ih h')
  | frame hhead hcredit hwhole _ ih => exact .frame hhead hcredit hwhole (ih h')

theorem Behind.concat (hb : Behind parse s fs t)
    (hhead : headerAt parse t = some (h, rest)) (hcredit : isCredit h = false)
    (hwhole : h.payloadLen.toNat ≤ rest.length) :
    Behind parse s (fs ++ [⟨h, rest.take h.payloadLen.toNat⟩]) (rest.drop h.payloadLen.toNat) :=
  hb.trans (.frame hhead hcredit hwhole (.here _))

theorem Behind.of_headerAt_none (hb : Behind parse s fs rest)
    (hnone : headerAt parse s = none) : fs = [] ∧ rest = s := by
  cases hb with
  | here => exact ⟨rfl, rfl⟩
  | credit hhead => exact nomatch hnone.symm.trans hhead
  | frame hhead => exact nomatch hnone.symm.trans hhead

theorem Behind.of_headerAt (hb : Behind parse s fs rest)
    (hhead : headerAt parse s = some (h, t)) (hcredit : isCredit h = false) :
    (fs = [] ∧ rest = s) ∨ ∃ fs', fs = ⟨h, t.take h.payloadLen.toNat⟩ :: fs' ∧
      h.payloadLen.toNat ≤ t.length ∧
      Behind parse (t.drop h.payloadLen.toNat) fs' rest := by
  cases hb with
  | here => exact .inl ⟨rfl, rfl⟩
  | credit hhead' hcredit' =>
    obtain ⟨rfl, -⟩ := Prod.mk.inj (Option.some.inj (hhead.symm.trans hhead'))
    exact absurd (hcredit.symm.trans hcredit') Bool.false_ne_true
  | frame hhead' _ hwhole hrest =>
    obtain ⟨rfl, rfl⟩ := Prod.mk.inj (Option.some.inj (hhead.symm.trans hhead'))
    exact .inr ⟨_, rfl, hwhole, hrest⟩

/-- Of two places in the stream at a frame boundary one is behind the other. -/
theorem Behind.total (h : Behind parse s fs t) (h' : Behind parse s gs rest) :
    (∃ hs, Behind parse t hs rest ∧ gs = fs ++ hs) ∨ ∃ hs, Behind parse rest hs t ∧
      fs = gs ++ hs := by
  induction h generalizing gs rest with
  | here s => exact .inl ⟨gs, h', rfl⟩
  | credit hhead hcredit hwhole hr ih =>
    cases h' with
    | here => exact .inr ⟨_, .credit hhead hcredit hwhole hr, rfl⟩
    | credit hhead' _ _ hr' =>
      obtain ⟨rfl, rfl⟩ := Prod.mk.inj (Option.some.inj (hhead.symm.trans hhead'))
      exact ih hr'
    | frame hhead' hcredit' =>
      obtain ⟨rfl, -⟩ := Prod.mk.inj (Option.some.inj (hhead.symm.trans hhead'))
      exact absurd (hcredit'.symm.trans hcredit) Bool.false_ne_true
  | frame hhead hcredit hwhole hr ih =>
    rcases h'.of_headerAt hhead hcredit with ⟨rfl, rfl⟩ | ⟨gs', rfl, -, hr'⟩
    · exact .inr ⟨_, .frame hhead hcredit hwhole hr, rfl⟩
    · refine (ih hr').imp ?_ ?_
      · rintro ⟨hs, hb, rfl⟩
        exact ⟨hs, hb, rfl⟩
      · rintro ⟨hs, hb, rfl⟩
        exact ⟨hs, hb, rfl⟩

theorem headerAt_eq (hh : headerAt parse s = some (h, t)) :
    headerSize ≤ s.length ∧ t = s.drop headerSize := by
  unfold headerAt at hh
  split_ifs at hh with hshort
  obtain ⟨_, -, heq⟩ := Option.map_eq_some_iff.mp hh
  exact ⟨not_lt.mp hshort, (Prod.mk.inj heq).2.symm⟩

/-- Of two different places one header at least is in between. -/
theorem Behind.here_or_header (h : Behind parse s fs t) :
    (fs = [] ∧ t = s) ∨ headerSize ≤ s.length ∧ t <:+ s.drop headerSize := by
  induction h with
  | here => exact .inl ⟨rfl, rfl⟩
  | credit hhead _ _ _ ih | frame hhead _ _ _ ih =>
    obtain ⟨hlong, heq⟩ := headerAt_eq hhead
    rw [← heq]
    rcases ih with ⟨-, rfl⟩ | ⟨-, ih⟩
    · exact .inr ⟨hlong, List.drop_suffix _ _⟩
    · exact .inr ⟨hlong, (ih.trans (List.drop_suffix _ _)).trans (List.drop_suffix _ _)⟩

theorem Behind.suffix (h : Behind parse s fs t) : t <:+ s := by
  rcases h.here_or_header with ⟨-, rfl⟩ | ⟨-, hsuf⟩
  · exact List.suffix_rfl
  · exact hsuf.trans (List.drop_suffix _ _)

theorem headerAt_append (hlen : hb.length = headerSize) (hparse : parse hb = some h)
    (t : List UInt8) : headerAt parse (hb ++ t) = some (h, t) := by
  have hlong : ¬(hb ++ t).length < headerSize := by
    rw [List.length_append]
    omega
  rw [headerAt, if_neg hlong, List.take_left' hlen, List.drop_left' hlen, hparse]
  rfl

/-! ## The region in front of the blocks of a GET frame -/

section Region

/- The bytes behind the header of the frame; more may follow. -/
variable (t : List UInt8)

def regionStatus : Status := UInt8.ofNat (leAt t 0 1)

def regionCount : ℕ := leAt t 4 4

def regionFirst : ℕ := leAt t 8 4

def regionTotal : ℕ := leAt t 12 4

def regionSize : ℕ := preambleSize + 8 + regionCount t * descSize

def regionDescs : List Desc := rows getDesc descSize (t.drop (preambleSize + 8)) (regionCount t)

def regionWindow : List ℕ := List.range' (regionFirst t) (regionCount t)

end Region

def okLen : List Desc → ℕ
  | [] => 0
  | d :: ds => (if Checked.carriesBody d.status then d.len.toNat else 0) + okLen ds

def frameSize (t : List UInt8) : ℕ := regionSize t + okLen (regionDescs t)

def blockAt (t : List UInt8) (j : ℕ) (d : Desc) : List UInt8 :=
  slice t (regionSize t + okLen ((regionDescs t).take j)) d.len.toNat

theorem okLen_append (ds es : List Desc) : okLen (ds ++ es) = okLen ds + okLen es := by
  induction ds with
  | nil => rw [List.nil_append, okLen, Nat.zero_add]
  | cons d ds ih => rw [List.cons_append, okLen, okLen, ih, Nat.add_assoc]

theorem length_regionDescs (t : List UInt8) : (regionDescs t).length = regionCount t :=
    length_rows _ _ _ _

section Take

/- A frame cut behind its region says the same about itself. -/
variable {t : List UInt8} {m : ℕ}

theorem regionCount_take (h : regionSize t ≤ m) : regionCount (t.take m) = regionCount t := by
  have hwords : preambleSize + 8 ≤ m := (Nat.le_add_right _ _).trans h
  exact leAt_take ((by decide : 4 + 4 ≤ preambleSize + 8).trans hwords)

theorem regionFirst_take (h : regionSize t ≤ m) : regionFirst (t.take m) = regionFirst t := by
  have hwords : preambleSize + 8 ≤ m := (Nat.le_add_right _ _).trans h
  exact leAt_take ((by decide : 8 + 4 ≤ preambleSize + 8).trans hwords)

theorem regionSize_take (h : regionSize t ≤ m) : regionSize (t.take m) = regionSize t := by
  rw [regionSize, regionCount_take h, regionSize]

theorem regionWindow_take (h : regionSize t ≤ m) : regionWindow (t.take m) = regionWindow t := by
  rw [regionWindow, regionFirst_take h, regionCount_take h, regionWindow]

theorem regionDescs_take (h : regionSize t ≤ m) : regionDescs (t.take m) = regionDescs t := by
  have hrows : regionCount t * descSize ≤ m - (preambleSize + 8) := by
    unfold regionSize at h
    omega
  rw [regionDescs, regionCount_take h, List.drop_take, rows_take getDesc_take _ hrows, regionDescs]

theorem frameSize_take (h : regionSize t ≤ m) : frameSize (t.take m) = frameSize t := by
  rw [frameSize, regionSize_take h, regionDescs_take h, frameSize]

theorem okLen_take_le (ds : List Desc) {j : ℕ} {d : Desc} (hj : ds[j]? = some d)
    (hd : Checked.carriesBody d.status = true) : okLen (ds.take j) + d.len.toNat ≤ okLen ds := by
  obtain ⟨hlt, rfl⟩ := List.getElem?_eq_some_iff.mp hj
  have hsplit := okLen_append (ds.take (j + 1)) (ds.drop (j + 1))
  rw [List.take_append_drop, List.take_succ_eq_append_getElem hlt, okLen_append, okLen, if_pos hd,
    okLen] at hsplit
  omega

theorem blockAt_take (h : frameSize t ≤ m) {j : ℕ} {d : Desc} (hj : (regionDescs t)[j]? = some d)
    (hd : Checked.carriesBody d.status = true) : blockAt (t.take m) j d = blockAt t j d := by
  have hregion : regionSize t ≤ m := (Nat.le_add_right _ _).trans h
  have hlen := okLen_take_le _ hj hd
  unfold frameSize at h
  rw [blockAt, regionSize_take hregion, regionDescs_take hregion, slice_take (by omega), blockAt]

end Take

end KVStash.Client
