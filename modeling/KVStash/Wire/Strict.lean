/- GID: KVStash/Wire/Strict
   digest: The bodies as strict codecs: round trips, reads inside the body, exact lengths, and
     re-encoding. -/

import KVStash.Wire.Decode
import Mathlib.Tactic.IntervalCases

set_option autoImplicit false

namespace KVStash.Wire

open Foundation.Bytes Nvme ExistsResp Checked Layout Option List

/-! ## Numbers read from a body -/

theorem uint8_leAt (b : List UInt8) (i : ℕ) : (UInt8.ofNat (leAt b i 1)).toNat = leAt b i 1 :=
  UInt8.toNat_ofNat_of_lt' (leAt_lt b i 1)

theorem uint32_leAt (b : List UInt8) (i : ℕ) : (UInt32.ofNat (leAt b i 4)).toNat = leAt b i 4 :=
  UInt32.toNat_ofNat_of_lt' (leAt_lt b i 4)

theorem uint64_leAt (b : List UInt8) (i : ℕ) : (UInt64.ofNat (leAt b i 8)).toNat = leAt b i 8 :=
  UInt64.toNat_ofNat_of_lt' (leAt_lt b i 8)

/-! ## Fixed bodies -/

/-- The layout of PUT BEGIN: the last word is reserved. -/
def putBeginLayout : Layout := [(4, true), (4, true), (8, true), (4, true), (4, false)]

theorem decodePutBegin_encode (v : PutBeginBody) : decodePutBegin v.encode = .ok v := by
  have hlen : v.encode.length = putBeginSize := length_fields _
  have htotal : leAt v.encode 0 4 = v.totalLen.toNat := leAt_field_end 0 rfl rfl (uint32_lt _)
  have httl : leAt v.encode 4 4 = v.ttlMS.toNat := leAt_field_end 1 rfl rfl (uint32_lt _)
  have hhint : leAt v.encode 8 8 = v.xxh3Hint.toNat := leAt_field_end 2 rfl rfl (uint64_lt _)
  have hflags : leAt v.encode 16 4 = v.flags.toNat := leAt_field_end 3 rfl rfl (uint32_lt _)
  rw [decodePutBegin, if_neg (not_not.mpr hlen), htotal, httl, hhint, hflags, UInt32.ofNat_toNat,
    UInt32.ofNat_toNat, UInt64.ofNat_toNat, UInt32.ofNat_toNat]

variable {b : List UInt8}

theorem decodePutBegin_ok {v : PutBeginBody} (h : decodePutBegin b = .ok v) :
    b.length = putBeginLayout.span ∧ v.encode = putBeginLayout.blank b := by
  rw [decodePutBegin] at h
  split_ifs at h with hlen
  have hsize : b.length = putBeginSize := not_not.mp hlen
  refine ⟨hsize, ?_⟩
  rw [← Except.ok.inj h, PutBeginBody.encode, uint32_leAt, uint32_leAt, uint64_leAt, uint32_leAt]
  exact (congrArg fields rfl).trans (putBeginLayout.fields_read_front hsize.ge)

theorem strict_putBegin :
    Strict (fun _ => True) PutBeginBody.encode Checked.decodePutBegin (fun _ => putBeginLayout) :=
  .of_total decodePutBegin_eq (fun v _ => decodePutBegin_encode v)
    (fun _ _ h => decodePutBegin_ok h)

theorem decodePutCommit_putCommit (sum : UInt64) : decodePutCommit (putCommit sum) = .ok sum := by
  have hread : leAt (putCommit sum) 0 8 = sum.toNat := by
    have hbytes := leAt_append (a := []) (c := []) rfl (uint64_lt sum)
    rwa [append_nil] at hbytes
  have hlen : (putCommit sum).length = 8 := length_leBytes _ _
  rw [decodePutCommit, if_neg (not_not.mpr hlen), hread, UInt64.ofNat_toNat]

def putCommitLayout : Layout := [(8, true)]

theorem decodePutCommit_ok {sum : UInt64} (h : decodePutCommit b = .ok sum) :
    b.length = putCommitLayout.span ∧ putCommit sum = putCommitLayout.blank b := by
  rw [decodePutCommit] at h
  split_ifs at h with hlen
  have hsize : b.length = 8 := not_not.mp hlen
  refine ⟨hsize, ?_⟩
  have hback := putCommitLayout.fields_read (i := 0) (b := b) hsize.ge
  rw [← Except.ok.inj h, putCommit, uint64_leAt]
  exact (append_nil _).symm.trans hback

theorem strict_putCommit :
    Strict (fun _ => True) putCommit Checked.decodePutCommit (fun _ => putCommitLayout) :=
  .of_total decodePutCommit_eq (fun v _ => decodePutCommit_putCommit v)
    (fun _ _ h => decodePutCommit_ok h)

/-- The layout of a STATS request: the second word is reserved. -/
def statsReqLayout : Layout := [(4, true), (4, false)]

theorem decodeStatsReq_statsReq (sections : UInt32) :
    decodeStatsReq (statsReq sections) = .ok sections := by
  have hread : leAt (statsReq sections) 0 4 = sections.toNat :=
    leAt_field_end 0 rfl rfl (uint32_lt sections)
  have hlen : (statsReq sections).length = 8 := length_fields _
  rw [decodeStatsReq, if_neg (not_not.mpr hlen), hread, UInt32.ofNat_toNat]

theorem decodeStatsReq_ok {sections : UInt32} (h : decodeStatsReq b = .ok sections) :
    b.length = statsReqLayout.span ∧ statsReq sections = statsReqLayout.blank b := by
  rw [decodeStatsReq] at h
  split_ifs at h with hlen
  have hsize : b.length = 8 := not_not.mp hlen
  refine ⟨hsize, ?_⟩
  rw [← Except.ok.inj h, statsReq, uint32_leAt]
  exact (congrArg fields rfl).trans (statsReqLayout.fields_read_front hsize.ge)

theorem strict_statsReq :
    Strict (fun _ => True) statsReq Checked.decodeStatsReq (fun _ => statsReqLayout) :=
  .of_total decodeStatsReq_eq (fun v _ => decodeStatsReq_statsReq v)
    (fun _ _ h => decodeStatsReq_ok h)

/-! ## The key list -/

/-- The layout of a key list; every byte of it carries a value. -/
def keyListLayout (v : UInt32 × List BlockKey) : Layout :=
  [(4, true), (4, true)] ++ (replicate v.2.length [(32, true)]).flatten

theorem encodeKey_decodeKey (h : span [(32, true)] ≤ b.length) :
    encodeKey (decodeKey b) = blank [(32, true)] b := by
  have hlt : leAt b 0 32 < 2 ^ 256 := leAt_lt b 0 32
  have hback := fields_read [(32, true)] (i := 0) (b := b) ((Nat.zero_add _).trans_le h)
  rw [encodeKey, decodeKey, BitVec.toNat_ofNat, Nat.mod_eq_of_lt hlt]
  exact (append_nil _).symm.trans hback

theorem decodeKeyList_ok {maxKeys : UInt32} {v : UInt32 × List BlockKey}
    (h : decodeKeyList b maxKeys = .ok v) :
    b.length = (keyListLayout v).span ∧ keyList v.1 v.2 = (keyListLayout v).blank b := by
  unfold decodeKeyList at h
  dsimp only at h
  split_ifs at h with hshort hmany hlen
  have hv := Except.ok.inj h
  rw [not_not, uint32_leAt] at hlen
  rw [uint32_leAt] at hv
  have hcount : v.2.length = leAt b 0 4 := by rw [← hv, length_rows]
  have hspan : (keyListLayout v).span = 8 + v.2.length * 32 := by
    rw [keyListLayout, span_append, span_replicate]
    rfl
  have hrest : leAt b 0 4 * span [(32, true)] ≤ (b.drop 8).length := by
    rw [length_drop]
    change leAt b 0 4 * 32 ≤ _
    omega
  have hwords : fields [(4, v.2.length), (4, v.1.toNat)] = blank [(4, true), (4, true)] b := by
    rw [hcount, ← hv, uint32_leAt]
    exact fields_read [(4, true), (4, true)] (i := 0) (Nat.not_lt.mp hshort)
  have hkeys :
      v.2.flatMap encodeKey = blank (replicate v.2.length [(32, true)]).flatten (b.drop 8) := by
    rw [hcount, ← flatMap_rows (fun _ => encodeKey_decodeKey) _ hrest, ← hv]
    rfl
  refine ⟨by rw [hspan, hcount]; omega, ?_⟩
  rw [keyList, keyListLayout, blank_append, hwords, hkeys]
  rfl

theorem strict_keyList (maxKeys : UInt32) :
    Strict (fun v => v.2.length ≤ maxKeys.toNat) (fun v => keyList v.1 v.2)
      (fun b => Checked.decodeKeyList b maxKeys) keyListLayout :=
  .of_total (fun b => decodeKeyList_eq b maxKeys) (fun v hv => decodeKeyList_keyList v.1 hv)
    (fun _ _ h => decodeKeyList_ok h)

/-! ## HELLO -/

/-- The fixed part of a HELLO request, with its three reserved words. -/
def helloReqWords : Layout :=
  [(1, true), (1, true), (2, false), (8, true), (4, true), (4, true), (8, false), (2, true),
    (2, true), (2, true), (2, false)]

/-- The padding behind the first `n` bytes of a body. -/
def padding (n : ℕ) : ℕ × Bool := (padTo8 n - n, false)

def helloReqLayout (r : HelloReq) : Layout :=
  helloReqWords ++ [(r.token.length, true), (r.ns.length, true), (r.clientName.length, true),
    padding (helloReqFixed + r.token.length + r.ns.length + r.clientName.length)]

/-- The strings a HELLO request can carry. -/
structure HelloReq.Fits (r : HelloReq) : Prop where
  token : r.token.length ≤ 65535
  ns : r.ns.length ≤ 65535
  clientName : r.clientName.length ≤ 65535

theorem length_pad8 (region : List UInt8) : (pad8 region).length = padTo8 region.length := by
  rw [pad8, length_append, length_replicate, Nat.add_sub_cancel' (le_padTo8 _)]

theorem length_helloReq (r : HelloReq) : (helloReq r).length =
    padTo8 (helloReqFixed + r.token.length + r.ns.length + r.clientName.length) := by
  rw [helloReq, length_pad8, length_append, length_append, length_append, length_fields]
  rfl

theorem helloReq_eq (r : HelloReq) :
    helloReq r = fields r.fieldList ++ (r.token ++ (r.ns ++ (r.clientName ++
    replicate
      (padding (helloReqFixed + r.token.length + r.ns.length + r.clientName.length)).1 0))) := by
  have hlen : (fields r.fieldList ++ r.token ++ r.ns ++ r.clientName).length =
      helloReqFixed + r.token.length + r.ns.length + r.clientName.length := by
    rw [length_append, length_append, length_append, length_fields]
    rfl
  rw [helloReq, pad8, hlen, append_assoc, append_assoc, append_assoc, padding]

theorem decodeHelloReq_helloReq {r : HelloReq} (hfits : r.Fits) :
    decodeHelloReq (helloReq r) = .ok r := by
  obtain ⟨htok, hns, hname⟩ := hfits
  have hfixed : (fields r.fieldList).length = helloReqFixed := length_fields _
  have hread : ∀ (k : ℕ) {i w v : ℕ}, r.fieldList[k]? = some (w, v) →
      widths (r.fieldList.take k) = i →
      v < 256 ^ w → leAt (helloReq r) i w = v := by
    intro k i w v hk hi hv
    rw [helloReq_eq]
    exact leAt_field k hk hi hv _
  have hmin : leAt (helloReq r) 0 1 = r.protoMin.toNat := hread 0 rfl rfl r.protoMin.toNat_lt
  have hmax : leAt (helloReq r) 1 1 = r.protoMax.toNat := hread 1 rfl rfl r.protoMax.toNat_lt
  have hfeat : leAt (helloReq r) 4 8 = r.features.toNat := hread 3 rfl rfl (uint64_lt _)
  have hkeys : leAt (helloReq r) 12 4 = r.maxBatchKeys.toNat := hread 4 rfl rfl (uint32_lt _)
  have hframe : leAt (helloReq r) 16 4 = r.maxFrameLen.toNat := hread 5 rfl rfl (uint32_lt _)
  have htokLen : leAt (helloReq r) 28 2 = r.token.length := hread 7 rfl rfl (by omega)
  have hnsLen : leAt (helloReq r) 30 2 = r.ns.length := hread 8 rfl rfl (by omega)
  have hnameLen : leAt (helloReq r) 32 2 = r.clientName.length := hread 9 rfl rfl (by omega)
  have htoken : slice (helloReq r) helloReqFixed r.token.length = r.token := by
    rw [helloReq_eq]
    exact slice_append hfixed rfl
  have hnamespace : slice (helloReq r) (helloReqFixed + r.token.length) r.ns.length = r.ns := by
    rw [helloReq_eq, ← append_assoc (fields _)]
    exact slice_append (by rw [length_append, hfixed]) rfl
  have hclient :
      slice (helloReq r) (helloReqFixed + r.token.length + r.ns.length) r.clientName.length =
      r.clientName := by
    rw [helloReq_eq, ← append_assoc (fields _), ← append_assoc (_ ++ r.token)]
    exact slice_append (by rw [length_append, length_append, hfixed]) rfl
  have hlong : ¬(helloReq r).length < helloReqFixed := by
    have hle := le_padTo8 (helloReqFixed + r.token.length + r.ns.length + r.clientName.length)
    rw [length_helloReq]
    omega
  unfold decodeHelloReq
  dsimp only
  rw [if_neg hlong, htokLen, hnsLen, hnameLen, if_neg (not_not.mpr (length_helloReq r)), hmin,
    hmax, hfeat, hkeys, hframe, htoken, hnamespace, hclient]
  simp only [UInt8.ofNat_toNat, UInt32.ofNat_toNat, UInt64.ofNat_toNat]

theorem decodeHelloReq_ok {r : HelloReq} (h : decodeHelloReq b = .ok r) :
    b.length = (helloReqLayout r).span ∧ helloReq r = (helloReqLayout r).blank b := by
  unfold decodeHelloReq at h
  dsimp only at h
  split_ifs at h with hshort hlen
  rw [not_not] at hlen
  have hr := Except.ok.inj h
  have hfixed : 36 ≤ b.length := Nat.not_lt.mp hshort
  have hend :=
    (le_padTo8 (helloReqFixed + leAt b 28 2 + leAt b 30 2 + leAt b 32 2)).trans_eq hlen.symm
  have htok : r.token.length = leAt b 28 2 := by
    rw [← hr]
    exact length_slice (by omega)
  have hns : r.ns.length = leAt b 30 2 := by
    rw [← hr]
    exact length_slice (by omega)
  have hname : r.clientName.length = leAt b 32 2 := by
    rw [← hr]
    exact length_slice hend
  have hwords : fields r.fieldList = helloReqWords.blank b := by
    rw [HelloReq.fieldList, htok, hns, hname, ← hr]
    simp only [uint8_leAt, uint32_leAt, uint64_leAt]
    exact (congrArg fields rfl).trans (helloReqWords.fields_read_front hfixed)
  refine ⟨?_, ?_⟩
  · have hspan : (helloReqLayout r).span =
        helloReqFixed + r.token.length + r.ns.length + r.clientName.length +
        (padTo8 (helloReqFixed + r.token.length + r.ns.length + r.clientName.length) -
          (helloReqFixed + r.token.length + r.ns.length + r.clientName.length)) := by
      simp only [helloReqLayout, helloReqWords, padding, Layout.span_append, Layout.span,
        helloReqFixed]
      omega
    rw [hspan, Nat.add_sub_cancel' (le_padTo8 _), htok, hns, hname]
    exact hlen
  · rw [helloReq_eq, helloReqLayout, Layout.blank_append, hwords, Layout.blank_kept,
      Layout.blank_kept,
      Layout.blank_kept, padding, Layout.blank_zero, List.drop_drop, List.drop_drop, htok,
      hns, hname, ← hr]
    rfl

theorem strict_helloReq : Strict HelloReq.Fits helloReq Checked.decodeHelloReq helloReqLayout :=
  .of_total decodeHelloReq_eq (fun _ h => decodeHelloReq_helloReq h)
    (fun _ _ h => decodeHelloReq_ok h)

/-! ## Responses -/

def preambleLayout : Layout := [(1, true), (3, false), (4, true)]

theorem errorResp_preambleOf (hlen : b.length = preambleSize) (hcount : (preambleOf b).count = 0) :
    errorResp (preambleOf b).status = preambleLayout.blank b := by
  have hback := preambleLayout.fields_read (i := 0) (b := b) hlen.ge
  rw [errorResp, ← hcount, preamble, preambleOf, uint8_leAt, uint32_leAt]
  exact hback

theorem count_toNat_preambleOf (b : List UInt8) : (preambleOf b).count.toNat = leAt b 4 4 :=
    uint32_leAt b 4

/-- The preamble of a batch response whose encoder always writes OK: another status is not kept. -/
def okPreambleLayout (s : Status) : Layout := [(1, decide (s = .ok)), (3, false), (4, true)]

theorem preamble_ok_preambleOf (h : preambleSize ≤ b.length) :
    preamble .ok (preambleOf b).count = (okPreambleLayout (preambleOf b).status).blank b := by
  have hback := (okPreambleLayout (preambleOf b).status).fields_read (i := 0) (b := b)
    ((Nat.zero_add _).trans_le h)
  have hstatus : (if decide ((preambleOf b).status = .ok) = true then leAt b 0 1 else 0) =
      Status.ok.toNat := by
    split_ifs with hok
    · rw [← of_decide_eq_true hok]
      exact (uint8_leAt b 0).symm
    · rfl
  rw [okPreambleLayout, Layout.read, hstatus] at hback
  rw [preamble, count_toNat_preambleOf]
  exact hback

/-- The statuses of some keys and their padding. -/
def statusesLayout (statuses : List Status) : Layout :=
  [(statuses.length, true), padding statuses.length]

theorem span_statusesLayout (statuses : List Status) :
    (statusesLayout statuses).span = padTo8 statuses.length := by
  have hle := le_padTo8 statuses.length
  simp only [statusesLayout, padding, Layout.span]
  omega

theorem pad8_take {region : List UInt8} {n : ℕ} (h : n ≤ region.length) :
    pad8 (region.take n) = (statusesLayout (region.take n)).blank region := by
  have hlen : (region.take n).length = n := length_take_of_le h
  rw [pad8, statusesLayout, blank_kept, padding, blank_zero, hlen]

theorem slice_pad8 (front statuses : List UInt8) {i : ℕ} (hi : front.length = i) :
    slice (front ++ pad8 statuses) i statuses.length = statuses := by
  rw [pad8]
  exact slice_append hi rfl

theorem strict_response {α : Type} {full : Status → Bool} (refused : Preamble → α)
    (rest : List UInt8 → Preamble → Option (Except BodyError α)) (answered : α → Prop)
    {encode : α → List UInt8} {layout : α → Layout}
    (hrefused : ∀ p, full p.status = false →
      encode (refused p) = errorResp p.status ∧ layout (refused p) = preambleLayout)
    (hinside : ∀ b p, rest b p ≠ none)
    (haccept : ∀ b v, full (preambleOf b).status = true → preambleSize ≤ b.length →
      rest b (preambleOf b) = some (.ok v) → b.length = (layout v).span ∧
        encode v = (layout v).blank b)
    (hround : ∀ v, answered v → response full refused (rest (encode v)) (encode v) = some (.ok v)) :
    Strict (fun v => answered v ∨ ∃ s, full s = false ∧ v = refused ⟨s, 0⟩) encode
      (fun b => response full refused (rest b) b) layout := by
  have hok : ∀ b v, response full refused (rest b) b = some (.ok v) →
      b.length = (layout v).span ∧ encode v = (layout v).blank b := by
    intro b v h
    rcases response_eq_ok h with ⟨hfull, hlen, hcount, rfl⟩ | ⟨hfull, hlen, hrest⟩
    · obtain ⟨henc, hlay⟩ := hrefused _ hfull
      rw [henc, hlay]
      exact ⟨hlen, errorResp_preambleOf hlen hcount⟩
    · exact haccept b v hfull hlen hrest
  refine ⟨?_, fun b => response_ne_none fun _ => hinside b _, fun b v h => (hok b v h).1,
    fun b v h => (hok b v h).2⟩
  rintro v (hv | ⟨s, hs, rfl⟩)
  · exact hround v hv
  · rw [(hrefused ⟨s, 0⟩ hs).1]
    exact response_errorResp hs

/-! ### EXISTS -/

namespace ExistsResp

/-- The encoder of an answered batch, or of a refusal. -/
def encode (r : ExistsResp) : List UInt8 :=
  if carriesBody r.preamble.status then existsResp r.preamble.count r.nConsecutive r.perKey
  else errorResp r.preamble.status

/-- An answered batch as the encoder takes it: the status is OK, and a bitmap has a status for each
counted key. -/
structure Answered (expectBitmap : Bool) (r : ExistsResp) : Prop where
  status : r.preamble.status = .ok
  bitmap : r.perKey.isSome = expectBitmap
  counted : ∀ statuses ∈ r.perKey, statuses.length = r.preamble.count.toNat

def restLayout (r : ExistsResp) : Layout :=
  match r.perKey with
  | none => [(4, true), (4, false)]
  | some statuses => [(4, true), (4, false)] ++ statusesLayout statuses

def layout (r : ExistsResp) : Layout :=
  if carriesBody r.preamble.status then okPreambleLayout r.preamble.status ++ r.restLayout
  else preambleLayout

end ExistsResp

variable {b : List UInt8} {v : Preamble × List Status}

theorem existsWords_back (h : 16 ≤ b.length) :
    fields [(4, leAt b 8 4), (4, 0)] = blank [(4, true), (4, false)] (b.drop 8) :=
  fields_read [(4, true), (4, false)] (i := 8) h

theorem existsRest_ok {expectBitmap : Bool} {r : ExistsResp}
    (hfull : carriesBody (preambleOf b).status = true) (hlen : preambleSize ≤ b.length)
    (h : existsRest b expectBitmap (preambleOf b) = some (.ok r)) :
    b.length = r.layout.span ∧ r.encode = r.layout.blank b := by
  have hspan : (okPreambleLayout (preambleOf b).status).span = 8 := rfl
  rw [existsRest_eq, some.injEq] at h
  cases expectBitmap with
  | false =>
    simp only [Bool.false_eq_true, if_false] at h
    split_ifs at h with hsize
    rw [not_not] at hsize
    rw [← Except.ok.inj h]
    refine ⟨?_, ?_⟩
    · rw [layout, if_pos hfull, span_append, hspan]
      exact hsize
    · rw [encode, layout, if_pos hfull, if_pos hfull, blank_append, hspan, existsResp,
        preamble_ok_preambleOf hlen, uint32_leAt, existsWords_back (by omega)]
      exact append_nil _
  | true =>
    simp only [if_true] at h
    split_ifs at h with hsize
    rw [not_not] at hsize
    have hpad := le_padTo8 (preambleOf b).count.toNat
    have hregion : (preambleOf b).count.toNat ≤ (b.drop 16).length := by
      rw [length_drop]
      omega
    have hcount : (slice b 16 (preambleOf b).count.toNat).length = (preambleOf b).count.toNat :=
      length_slice (by omega)
    rw [← Except.ok.inj h]
    refine ⟨?_, ?_⟩
    · rw [layout, if_pos hfull, span_append, hspan, restLayout, span_append,
        span_statusesLayout, hcount, ← Nat.add_assoc]
      exact hsize
    · rw [encode, layout, if_pos hfull, if_pos hfull, blank_append, hspan, existsResp,
        preamble_ok_preambleOf hlen, uint32_leAt, existsWords_back (by omega), restLayout,
        blank_append, drop_drop, append_assoc]
      exact congrArg _ (congrArg _ (pad8_take hregion))

theorem decodeExistsResp_answered {expectBitmap : Bool} {r : ExistsResp}
    (hr : r.Answered expectBitmap) : decodeExistsResp r.encode expectBitmap = some (.ok r) := by
  obtain ⟨⟨status, count⟩, nConsecutive, perKey⟩ := r
  obtain ⟨rfl, rfl, hcount⟩ := hr
  have henc : encode ⟨⟨.ok, count⟩, nConsecutive, perKey⟩ =
      preamble .ok count ++
      (fields [(4, nConsecutive.toNat), (4, 0)] ++ (perKey.map pad8).getD []) := by
    cases perKey <;> exact append_assoc _ _ _
  have hwords :
      leAt
        (preamble .ok count ++
          (fields [(4, nConsecutive.toNat), (4, 0)] ++ (perKey.map pad8).getD [])) 8 4
      = nConsecutive.toNat := by
    rw [fields, append_assoc]
    exact leAt_append (length_preamble _ _) (uint32_lt _)
  rw [decodeExistsResp, henc, response_preamble rfl, existsRest_eq, hwords, UInt32.ofNat_toNat]
  cases perKey with
  | none =>
    rw [if_neg (by simp [preambleSize, widths])]
    rfl
  | some statuses =>
    have hlen : statuses.length = count.toNat := hcount statuses rfl
    have hslice :=
      slice_pad8 (preamble .ok count ++ fields [(4, nConsecutive.toNat), (4, 0)]) statuses
      (i := 16) (by simp [preambleSize, widths])
    rw [hlen, append_assoc] at hslice
    rw [if_neg (by simp [preambleSize, widths, length_pad8, hlen, ← Nat.add_assoc])]
    simp only [map_some, getD_some, isSome_some, if_true, hslice]

theorem strict_existsResp (expectBitmap : Bool) :
    Strict (fun r => r.Answered expectBitmap ∨ ∃ s, carriesBody s = false ∧ r = ⟨⟨s, 0⟩, 0, none⟩)
      encode (fun b => decodeExistsResp b expectBitmap) layout := by
  refine strict_response (fun p => (⟨p, 0, none⟩ : ExistsResp)) (fun b => existsRest b expectBitmap)
    (fun r => r.Answered expectBitmap) (fun p hp => ?_) (fun b p => ?_) (fun b r => existsRest_ok)
    (fun r hr => decodeExistsResp_answered hr)
  · simp [encode, layout, hp]
  · rw [existsRest_eq]
    exact some_ne_none _

/-! ### Key statuses -/

/-- A key-status response is its preamble and the statuses. -/
def encodeKeyStatus (v : Preamble × List Status) : List UInt8 :=
  if carriesBody v.1.status then keyStatusResp v.2 else errorResp v.1.status

def keyStatusLayout (v : Preamble × List Status) : Layout :=
  if carriesBody v.1.status then okPreambleLayout v.1.status ++ statusesLayout v.2
    else preambleLayout

/-- The statuses of an answered batch, as the encoder takes them. -/
def KeyStatusAnswered (v : Preamble × List Status) : Prop :=
  v.1.status = .ok ∧ v.2.length = v.1.count.toNat

theorem keyStatusRest_ok
    (hfull : carriesBody (preambleOf b).status = true) (hlen : preambleSize ≤ b.length)
    (h : keyStatusRest b (preambleOf b) = some (.ok v)) :
    b.length = (keyStatusLayout v).span ∧ encodeKeyStatus v = (keyStatusLayout v).blank b := by
  have hspan : (okPreambleLayout (preambleOf b).status).span = 8 := rfl
  have hpad := le_padTo8 (preambleOf b).count.toNat
  rw [keyStatusRest_eq, some.injEq] at h
  split_ifs at h with hsize
  rw [not_not] at hsize
  have hregion : (preambleOf b).count.toNat ≤ (b.drop 8).length := by
    rw [length_drop]
    omega
  have hcount : (slice b 8 (preambleOf b).count.toNat).length = (preambleOf b).count.toNat :=
    length_slice (by omega)
  rw [← Except.ok.inj h]
  refine ⟨?_, ?_⟩
  · rw [keyStatusLayout, if_pos hfull, span_append, hspan, span_statusesLayout, hcount]
    exact hsize
  · rw [encodeKeyStatus, keyStatusLayout, if_pos hfull, if_pos hfull, blank_append, hspan,
      keyStatusResp, hcount, UInt32.ofNat_toNat, preamble_ok_preambleOf hlen]
    exact congrArg _ (pad8_take hregion)

theorem decodeKeyStatusResp_answered (hv : KeyStatusAnswered v) :
    decodeKeyStatusResp (encodeKeyStatus v) = some (.ok v) := by
  obtain ⟨⟨status, count⟩, statuses⟩ := v
  obtain ⟨rfl, hlen⟩ := hv
  have hlen : statuses.length = count.toNat := hlen
  have henc : encodeKeyStatus (⟨.ok, count⟩, statuses) = preamble .ok count ++ pad8 statuses := by
    change keyStatusResp statuses = _
    rw [keyStatusResp, hlen, UInt32.ofNat_toNat]
  have hslice := slice_pad8 (preamble .ok count) statuses (length_preamble _ _)
  rw [hlen] at hslice
  rw [decodeKeyStatusResp, henc, response_preamble rfl, keyStatusRest_eq,
    if_neg (by rw [length_append, length_preamble, length_pad8, hlen]; exact not_not.mpr rfl)]
  exact congrArg (fun ss => some (Except.ok ((⟨.ok, count⟩ : Preamble), ss))) hslice

theorem strict_keyStatusResp :
    Strict
      (fun v => KeyStatusAnswered v ∨ ∃ s, carriesBody s = false ∧ v = (⟨s, 0⟩, [])) encodeKeyStatus
      decodeKeyStatusResp keyStatusLayout := by
  refine strict_response (fun p => (p, ([] : List Status))) keyStatusRest KeyStatusAnswered
    (fun p hp => ?_)
    (fun b p => ?_) (fun b v => keyStatusRest_ok) (fun v hv => decodeKeyStatusResp_answered hv)
  · simp [encodeKeyStatus, keyStatusLayout, hp]
  · rw [keyStatusRest_eq]
    exact some_ne_none _

/-! ### HELLO -/

/-- The fixed part of a HELLO response. The count of its preamble is not part of the value: the
encoder writes zero. -/
def helloRespWords : Layout :=
  [(1, true), (3, false), (4, false), (1, true), (3, false), (8, true), (4, true), (4, true),
    (4, true), (4, true), (4, true), (4, true), (4, true), (4, true), (2, true), (2, false)]

def helloRespLayout (v : Preamble × HelloResp) : Layout :=
  if v.1.status = .ok then
    helloRespWords ++ [(v.2.serverName.length, true),
      padding (helloRespFixed + v.2.serverName.length)]
  else preambleLayout

def encodeHelloResp (v : Preamble × HelloResp) : List UInt8 :=
  if v.1.status = .ok then helloResp v.2 else errorResp v.1.status

/-- An accepted HELLO, as the encoder takes it. -/
structure HelloAccepted (v : Preamble × HelloResp) : Prop where
  preamble : v.1 = ⟨.ok, 0⟩
  serverName : v.2.serverName.length ≤ 65535

def HelloResp.fieldList (r : HelloResp) : List (ℕ × ℕ) :=
  [(1, Status.ok.toNat), (3, 0), (4, 0), (1, r.proto.toNat), (3, 0), (8, r.features.toNat),
    (4, r.limits.maxBatchKeys.toNat), (4, r.limits.maxFrameLen.toNat),
    (4, r.limits.maxBlobLen.toNat),
    (4, r.namespaceID.toNat), (4, r.limits.initialCredit.toNat), (4, r.leaseDefaultMS.toNat),
    (4, r.leaseMaxMS.toNat), (4, r.streamTimeoutMS.toNat), (2, r.serverName.length), (2, 0)]

theorem length_helloRespFields (r : HelloResp) : (fields r.fieldList).length = helloRespFixed := by
  simp only [length_fields, HelloResp.fieldList, widths, helloRespFixed, preambleSize]

theorem helloResp_eq (r : HelloResp) : helloResp r = fields r.fieldList ++
    (r.serverName ++ replicate (padding (helloRespFixed + r.serverName.length)).1 0) := by
  have hwords : preamble .ok 0 ++ fields [(1, r.proto.toNat), (3, 0), (8, r.features.toNat),
      (4, r.limits.maxBatchKeys.toNat), (4, r.limits.maxFrameLen.toNat),
      (4, r.limits.maxBlobLen.toNat),
      (4, r.namespaceID.toNat), (4, r.limits.initialCredit.toNat), (4, r.leaseDefaultMS.toNat),
      (4, r.leaseMaxMS.toNat), (4, r.streamTimeoutMS.toNat), (2, r.serverName.length), (2, 0)] =
      fields r.fieldList := by
    rw [preamble, ← fields_append]
    exact congrArg fields rfl
  rw [helloResp, hwords, pad8, length_append, length_helloRespFields, append_assoc, padding]

theorem length_helloResp (r : HelloResp) :
    (helloResp r).length = padTo8 (helloRespFixed + r.serverName.length) := by
  have hle := le_padTo8 (helloRespFixed + r.serverName.length)
  rw [helloResp_eq, length_append, length_append, length_helloRespFields, length_replicate, padding,
    ← Nat.add_assoc, Nat.add_sub_cancel' hle]

theorem helloRespRest_ok {v : Preamble × HelloResp} (hok : (preambleOf b).status = .ok)
    (h : helloRespRest b (preambleOf b) = some (.ok v)) :
    b.length = (helloRespLayout v).span ∧ encodeHelloResp v = (helloRespLayout v).blank b := by
  rw [helloRespRest_eq, some.injEq] at h
  split_ifs at h with hshort hlen
  rw [not_not] at hlen
  have hfixed : 56 ≤ b.length := Nat.not_lt.mp hshort
  have hend := (le_padTo8 (helloRespFixed + leAt b 52 2)).trans_eq hlen.symm
  have hname : (helloRespAt b (leAt b 52 2)).serverName.length = leAt b 52 2 := length_slice hend
  have hstatus : Status.ok.toNat = leAt b 0 1 := by
    rw [← hok]
    exact uint8_leAt b 0
  have hwords : fields (helloRespAt b (leAt b 52 2)).fieldList = helloRespWords.blank b := by
    rw [HelloResp.fieldList, hname, hstatus, helloRespAt]
    simp only [uint8_leAt, uint32_leAt, uint64_leAt]
    exact (congrArg fields rfl).trans (helloRespWords.fields_read_front hfixed)
  rw [← Except.ok.inj h]
  refine ⟨?_, ?_⟩
  · have hspan : span [(leAt b 52 2, true), padding (helloRespFixed + leAt b 52 2)] =
        leAt b 52 2 + (padTo8 (helloRespFixed + leAt b 52 2) - (helloRespFixed + leAt b 52 2)) :=
        rfl
    have hfix : helloRespWords.span = helloRespFixed := rfl
    rw [helloRespLayout, if_pos hok, hname, span_append, hspan, hfix, ← Nat.add_assoc,
      Nat.add_sub_cancel' (le_padTo8 _)]
    exact hlen
  · rw [encodeHelloResp, helloRespLayout, if_pos hok, if_pos hok, helloResp_eq, hname,
      hwords, blank_append, blank_kept, padding, blank_zero]
    rfl

theorem decodeHelloResp_accepted {v : Preamble × HelloResp} (hv : HelloAccepted v) :
    decodeHelloResp (encodeHelloResp v) = some (.ok v) := by
  obtain ⟨p, r⟩ := v
  obtain ⟨rfl, hname⟩ := hv
  have henc : encodeHelloResp (⟨.ok, 0⟩, r) = helloResp r := rfl
  have hfront : helloResp r = preamble .ok 0 ++ (fields (r.fieldList.drop 3) ++
      (r.serverName ++ replicate (padding (helloRespFixed + r.serverName.length)).1 0)) := by
    rw [helloResp_eq, ← append_assoc (preamble .ok 0), preamble, ← fields_append]
    rfl
  have hread : ∀ (k : ℕ) {i w v : ℕ}, r.fieldList[k]? = some (w, v) →
      widths (r.fieldList.take k) = i →
      v < 256 ^ w → leAt (helloResp r) i w = v := by
    intro k i w v hk hi hv
    rw [helloResp_eq]
    exact leAt_field k hk hi hv _
  have hproto : leAt (helloResp r) 8 1 = r.proto.toNat :=
    hread 3 rfl (by simp [HelloResp.fieldList, widths]) r.proto.toNat_lt
  have hfeatures : leAt (helloResp r) 12 8 = r.features.toNat :=
    hread 5 rfl (by simp [HelloResp.fieldList, widths]) (uint64_lt _)
  -- the eight words in the middle lie one behind the other
  have hoff : ∀ k ≤ 7, widths (r.fieldList.take (6 + k)) = 20 + 4 * k := by
    intro k hk
    interval_cases k <;> simp [HelloResp.fieldList, widths]
  have hword : ∀ k ≤ 7, ∀ x : UInt32, r.fieldList[6 + k]? = some (4, x.toNat) →
      leAt (helloResp r) (20 + 4 * k) 4 = x.toNat :=
      fun k hk x hx => hread (6 + k) hx (hoff k hk) (uint32_lt x)
  have hkeys : leAt (helloResp r) 20 4 = r.limits.maxBatchKeys.toNat := hword 0 (by omega) _ rfl
  have hframe : leAt (helloResp r) 24 4 = r.limits.maxFrameLen.toNat := hword 1 (by omega) _ rfl
  have hblob : leAt (helloResp r) 28 4 = r.limits.maxBlobLen.toNat := hword 2 (by omega) _ rfl
  have hns : leAt (helloResp r) 32 4 = r.namespaceID.toNat := hword 3 (by omega) _ rfl
  have hcredit : leAt (helloResp r) 36 4 = r.limits.initialCredit.toNat := hword 4 (by omega) _ rfl
  have hlease : leAt (helloResp r) 40 4 = r.leaseDefaultMS.toNat := hword 5 (by omega) _ rfl
  have hmax : leAt (helloResp r) 44 4 = r.leaseMaxMS.toNat := hword 6 (by omega) _ rfl
  have htimeout : leAt (helloResp r) 48 4 = r.streamTimeoutMS.toNat := hword 7 (by omega) _ rfl
  have hnameLen : leAt (helloResp r) 52 2 = r.serverName.length :=
    hread 14 rfl (by simp [HelloResp.fieldList, widths]) (Nat.lt_succ_of_le hname)
  have hslice : slice (helloResp r) helloRespFixed r.serverName.length = r.serverName := by
    rw [helloResp_eq]
    exact slice_append (length_helloRespFields r) rfl
  have hlong : ¬(helloResp r).length < helloRespFixed := by
    have hle := le_padTo8 (helloRespFixed + r.serverName.length)
    rw [length_helloResp]
    omega
  have hback : helloRespAt (helloResp r) r.serverName.length = r := by
    unfold helloRespAt
    rw [hproto, hfeatures, hkeys, hframe, hblob, hns, hcredit, hlease, hmax, htimeout, hslice]
    simp only [UInt8.ofNat_toNat, UInt32.ofNat_toNat, UInt64.ofNat_toNat]
  have hrest : helloRespRest (helloResp r) ⟨.ok, 0⟩ = some (.ok (⟨.ok, 0⟩, r)) := by
    rw [helloRespRest_eq, if_neg hlong, hnameLen, if_neg (not_not.mpr (length_helloResp r)), hback]
  have hresp : response (fun s => decide (s = .ok)) (fun p => (p, HelloResp.zero))
      (helloRespRest (helloResp r)) (helloResp r) = helloRespRest (helloResp r) ⟨.ok, 0⟩ := by
    conv_lhs => arg 4; rw [hfront]
    exact response_preamble rfl 0 _
  exact hresp.trans hrest

theorem strict_helloResp :
    Strict (fun v => HelloAccepted v ∨ ∃ s,
      decide (s = Status.ok) = false ∧ v = (⟨s, 0⟩, HelloResp.zero))
      encodeHelloResp decodeHelloResp helloRespLayout := by
  refine strict_response (fun p => (p, HelloResp.zero)) helloRespRest HelloAccepted (fun p hp => ?_)
    (fun b p => ?_) (fun b v hok _ => helloRespRest_ok (of_decide_eq_true hok))
    (fun v hv => decodeHelloResp_accepted hv)
  · have hne : p.status ≠ .ok := of_decide_eq_false hp
    simp [encodeHelloResp, helloRespLayout, hne]
  · rw [helloRespRest_eq]
    exact some_ne_none _

/-! ### The header region of GET -/

def descLayout : Layout := [(1, true), (3, false), (4, true), (8, true)]

theorem encode_getDesc (h : descLayout.span ≤ b.length) :
    (getDesc b).encode = descLayout.blank b := by
  rw [Desc.encode, Desc.fieldList, getDesc, uint8_leAt, uint32_leAt, uint64_leAt]
  exact (congrArg fields rfl).trans (descLayout.fields_read_front ((Nat.zero_add _).trans_le h))

namespace GetResp

def encode (r : GetResp) : List UInt8 :=
  if carriesBody r.preamble.status then
    getRespHeader r.preamble.status r.firstIndex r.totalKeys r.descs
  else errorResp r.preamble.status

/-- A region as the encoder takes it: the count is that of the descriptors. -/
def Answered (r : GetResp) : Prop :=
  carriesBody r.preamble.status = true ∧ r.descs.length = r.preamble.count.toNat

def words : Layout := [(1, true), (3, false), (4, true), (4, true), (4, true)]

def layout (r : GetResp) : Layout :=
  if carriesBody r.preamble.status then words ++ (replicate r.descs.length descLayout).flatten
  else preambleLayout

/-- Block bytes may follow the region of an answered batch; nothing follows a refusal. -/
def Trailing (r : GetResp) (n : ℕ) : Prop := carriesBody r.preamble.status = true ∨ n = 0

end GetResp

/-- What is read from a body in front of its block bytes. -/
def getRespAt (b : List UInt8) : GetResp where
  preamble := preambleOf b
  firstIndex := UInt32.ofNat (leAt b 8 4)
  totalKeys := UInt32.ofNat (leAt b 12 4)
  descs := rows getDesc descSize (slice b 16 (16 * (preambleOf b).count.toNat))
    (preambleOf b).count.toNat

theorem readGetResp_full (hfull : carriesBody (preambleOf b).status = true)
    (hregion : 16 + 16 * (preambleOf b).count.toNat ≤ b.length) :
    readGetResp b = some (.ok (getRespAt b)) := by
  have hsize : preambleSize ≤ b.length := by
    change 8 ≤ _
    omega
  have hdescs : (0 + (preambleOf b).count.toNat) * descSize ≤
      (slice b 16 (16 * (preambleOf b).count.toNat)).length := by
    rw [length_slice hregion]
    change _ * 16 ≤ _
    omega
  unfold readGetResp decodeGetRespHeader
  rw [response_full hfull hsize, getRespRest_eq, if_neg (Nat.not_lt.mpr hregion)]
  dsimp only [bind, Option.bind]
  rw [descsFrom_eq hdescs, Nat.zero_mul, drop_zero]
  rfl

theorem readGetResp_cases (b : List UInt8) :
    (∃ e, readGetResp b = some (.error e)) ∨
      (carriesBody (preambleOf b).status = false ∧ b.length = preambleSize ∧
        (preambleOf b).count = 0 ∧ readGetResp b = some (.ok ⟨preambleOf b, 0, 0, []⟩)) ∨
      (carriesBody (preambleOf b).status = true ∧
        16 + 16 * (preambleOf b).count.toNat ≤ b.length) := by
  cases hdec : decodeGetRespHeader b with
  | none =>
    refine absurd hdec (response_ne_none fun _ => ?_)
    rw [getRespRest_eq]
    exact some_ne_none _
  | some res =>
    cases res with
    | error e =>
      refine .inl ⟨e, ?_⟩
      rw [readGetResp, hdec]
      rfl
    | ok g =>
      rcases response_eq_ok hdec with ⟨hfull, hlen, hcount, rfl⟩ | ⟨hfull, hlen, hrest⟩
      · refine .inr (.inl ⟨hfull, hlen, hcount, ?_⟩)
        rw [readGetResp, hdec]
        dsimp only [bind, Option.bind]
        rw [hcount]
        rfl
      · rw [getRespRest_eq, some.injEq] at hrest
        split_ifs at hrest with hshort
        exact .inr (.inr ⟨hfull, Nat.not_lt.mp hshort⟩)

theorem getRespAt_back (hfull : carriesBody (preambleOf b).status = true)
    (hregion : 16 + 16 * (preambleOf b).count.toNat ≤ b.length) :
    (getRespAt b).layout.span = 16 + 16 * (preambleOf b).count.toNat ∧
      (getRespAt b).encode = (getRespAt b).layout.blank b := by
  have hcount : (getRespAt b).descs.length = (preambleOf b).count.toNat := length_rows _ _ _ _
  have hspan : GetResp.words.span = 16 := rfl
  have hfull' : carriesBody (getRespAt b).preamble.status = true := hfull
  refine ⟨?_, ?_⟩
  · rw [GetResp.layout, if_pos hfull', span_append, span_replicate, hcount, hspan, Nat.mul_comm 16]
    rfl
  have hwords : fields (getRespWords (preambleOf b).status (preambleOf b).count
      (UInt32.ofNat (leAt b 8 4)) (UInt32.ofNat (leAt b 12 4))) = GetResp.words.blank b := by
    rw [getRespWords, count_toNat_preambleOf, uint32_leAt, uint32_leAt, preambleOf, uint8_leAt]
    exact (congrArg fields rfl).trans (GetResp.words.fields_read_front (by rw [hspan]; omega))
  have hrows : (preambleOf b).count.toNat * descLayout.span ≤
      (slice b 16 (16 * (preambleOf b).count.toNat)).length := by
    rw [length_slice hregion, Nat.mul_comm]
    rfl
  have htable : (getRespAt b).descs.flatMap Desc.encode =
      blank (replicate (preambleOf b).count.toNat descLayout).flatten (b.drop 16) := by
    have hback := flatMap_rows (fun _ => encode_getDesc) _ hrows
    rw [slice, blank_take (by rw [span_replicate, Nat.mul_comm]; rfl)] at hback
    exact hback
  have hcountBack : UInt32.ofNat (getRespAt b).descs.length = (preambleOf b).count := by
    rw [hcount, UInt32.ofNat_toNat]
  rw [GetResp.encode, if_pos hfull', getRespHeader_eq, hcountBack, htable, GetResp.layout,
    if_pos hfull', blank_append, hspan, hcount, ← hwords]
  rfl

theorem readGetResp_answered {r : GetResp} (hr : r.Answered) (payload : List UInt8) :
    readGetResp (r.encode ++ payload) = some (.ok r) := by
  obtain ⟨⟨status, count⟩, firstIndex, totalKeys, descs⟩ := r
  obtain ⟨hfull, hlen⟩ := hr
  have hfull : carriesBody status = true := hfull
  have hlen : descs.length = count.toNat := hlen
  set body := fields (getRespWords status count firstIndex totalKeys) ++
    (descs.flatMap Desc.encode ++ payload)
  have henc : GetResp.encode ⟨⟨status, count⟩, firstIndex, totalKeys, descs⟩ ++ payload = body := by
    rw [GetResp.encode, if_pos hfull, getRespHeader_eq, append_assoc]
    dsimp only
    rw [hlen, UInt32.ofNat_toNat]
  have hpre : preambleOf body = ⟨status, count⟩ := by
    have hsplit :
        body = preamble status count ++ (fields [(4, firstIndex.toNat), (4, totalKeys.toNat)] ++
        (descs.flatMap Desc.encode ++ payload)) := by
      rw [preamble, ← append_assoc, ← fields_append]
      rfl
    rw [hsplit]
    exact preambleOf_append ..
  have hfirst : leAt body 8 4 = firstIndex.toNat := leAt_field 3 rfl rfl (uint32_lt _) _
  have htotal : leAt body 12 4 = totalKeys.toNat := leAt_field 4 rfl rfl (uint32_lt _) _
  have htable : (descs.flatMap Desc.encode).length = 16 * count.toNat := by
    rw [length_flatMap_rows Desc.length_encode, hlen, Nat.mul_comm]
    rfl
  have hslice : slice body 16 (16 * count.toNat) = descs.flatMap Desc.encode :=
    slice_append (length_getRespWords ..) htable
  have hdescs : rows getDesc descSize (descs.flatMap Desc.encode) count.toNat = descs := by
    have hrows := rows_getDesc descs []
    rwa [append_nil, hlen] at hrows
  have hread : getRespAt body = ⟨⟨status, count⟩, firstIndex, totalKeys, descs⟩ := by
    rw [getRespAt, hpre, hfirst, htotal, hslice, hdescs, UInt32.ofNat_toNat, UInt32.ofNat_toNat]
  rw [henc, readGetResp_full (by rw [hpre]; exact hfull), hread]
  rw [hpre, length_append, length_getRespWords, length_append, htable]
  change 16 + 16 * count.toNat ≤ 16 + _
  omega

theorem readGetResp_ok {r : GetResp} (h : readGetResp b = some (.ok r)) :
    (∃ n, r.Trailing n ∧ b.length = r.layout.span + n) ∧ r.encode = r.layout.blank b := by
  rcases readGetResp_cases b with ⟨e, he⟩ | ⟨hfull, hlen, hcount, hok⟩ | ⟨hfull, hregion⟩
  · exact nomatch (some.inj (he.symm.trans h))
  · cases hok.symm.trans h
    rw [GetResp.encode, GetResp.layout, if_neg (by simp [hfull]), if_neg (by simp [hfull])]
    exact ⟨⟨0, .inr rfl, hlen⟩, errorResp_preambleOf hlen hcount⟩
  · cases (readGetResp_full hfull hregion).symm.trans h
    obtain ⟨hspan, hback⟩ := getRespAt_back hfull hregion
    refine ⟨⟨b.length - (16 + 16 * (preambleOf b).count.toNat), .inl hfull, ?_⟩, hback⟩
    rw [hspan]
    omega

theorem strict_getResp :
    StrictAtFront
      (fun r => r.Answered ∨ ∃ s, carriesBody s = false ∧ r = ⟨⟨s, 0⟩, 0, 0, []⟩) GetResp.Trailing
      GetResp.encode readGetResp GetResp.layout where
  roundTrip := by
    rintro r payload (hr | ⟨s, hs, rfl⟩) htrail
    · exact readGetResp_answered hr payload
    rcases htrail with hfull | hnone
    · exact absurd (hs.symm.trans hfull) Bool.false_ne_true
    · have henc : GetResp.encode ⟨⟨s, 0⟩, 0, 0, []⟩ = errorResp s := by
        simp [GetResp.encode, hs]
      rw [length_eq_zero_iff.mp hnone, append_nil, henc, readGetResp, decodeGetRespHeader,
        response_errorResp hs]
      rfl
  inside b := by
    rcases readGetResp_cases b with ⟨e, he⟩ | ⟨-, -, -, hok⟩ | ⟨hfull, hregion⟩
    · rw [he]
      exact some_ne_none _
    · rw [hok]
      exact some_ne_none _
    · rw [readGetResp_full hfull hregion]
      exact some_ne_none _
  declared b r h := (readGetResp_ok h).1
  reencode b r h := (readGetResp_ok h).2

/-! ## All bodies -/

/-- The bodies of the protocol are strict codecs. Three things are not given back by encoding again:
the status of an EXISTS or key-status response that says OK_EXISTS, for which the encoders write OK,
and the count of a HELLO response. Only the header region of GET may be followed by other bytes, the
blocks. -/
theorem codecs_strict :
    Strict HelloReq.Fits helloReq Checked.decodeHelloReq helloReqLayout ∧
    Strict (fun v => HelloAccepted v ∨ ∃ s,
      decide (s = Status.ok) = false ∧ v = (⟨s, 0⟩, HelloResp.zero))
      encodeHelloResp decodeHelloResp helloRespLayout ∧
    (∀ maxKeys : UInt32, Strict (fun v => v.2.length ≤ maxKeys.toNat) (fun v => keyList v.1 v.2)
      (fun b => Checked.decodeKeyList b maxKeys) keyListLayout) ∧
    (∀ expectBitmap : Bool,
      Strict (fun r => r.Answered expectBitmap ∨ ∃ s, carriesBody s = false ∧ r = ⟨⟨s, 0⟩, 0, none⟩)
        encode (fun b => decodeExistsResp b expectBitmap) layout) ∧
    Strict
      (fun v => KeyStatusAnswered v ∨ ∃ s, carriesBody s = false ∧ v = (⟨s, 0⟩, [])) encodeKeyStatus
      decodeKeyStatusResp keyStatusLayout ∧
    StrictAtFront (fun r => r.Answered ∨ ∃ s, carriesBody s = false ∧ r = ⟨⟨s, 0⟩, 0, 0, []⟩)
      GetResp.Trailing GetResp.encode readGetResp GetResp.layout ∧
    Strict (fun _ => True) PutBeginBody.encode Checked.decodePutBegin (fun _ => putBeginLayout) ∧
    Strict (fun _ => True) putCommit Checked.decodePutCommit (fun _ => putCommitLayout) ∧
    Strict (fun _ => True) statsReq Checked.decodeStatsReq (fun _ => statsReqLayout) :=
  ⟨strict_helloReq, strict_helloResp, strict_keyList, strict_existsResp, strict_keyStatusResp,
    strict_getResp, strict_putBegin, strict_putCommit, strict_statsReq⟩

/-- A GET body of 17 bytes is accepted although its count of zero declares 16; an EXISTS and a
key-status response that say OK_EXISTS are accepted, and encoding them again changes the status
byte; a HELLO response that counts one is accepted, and encoding it again counts none. -/
theorem codecs_lax :
    (∃ b r, readGetResp b = some (.ok r) ∧ b.length = 17 ∧ r.preamble.count = 0) ∧
    (∃ b r, decodeExistsResp b false = some (.ok r) ∧ leAt b 0 1 = 1 ∧ leAt r.encode 0 1 = 0) ∧
    (∃ b v, decodeKeyStatusResp b = some (.ok v) ∧ leAt b 0 1 = 1 ∧
      leAt (encodeKeyStatus v) 0 1 = 0) ∧
    (∃ b v, decodeHelloResp b = some (.ok v) ∧ leAt b 4 4 = 1 ∧ leAt (encodeHelloResp v) 4 4 = 0) :=
  ⟨⟨replicate 17 0, ⟨⟨.ok, 0⟩, 0, 0, []⟩, by decide, by decide, by decide⟩,
    ⟨1 :: replicate 15 0, ⟨⟨.okExists, 0⟩, 0, none⟩, by decide, by decide, by decide⟩,
    ⟨1 :: replicate 7 0, (⟨.okExists, 0⟩, []), by decide, by decide, by decide⟩,
    ⟨replicate 4 0 ++ 1 :: replicate 51 0, (⟨.ok, 1⟩, .zero), rfl, by decide, by decide⟩⟩

end KVStash.Wire
