/- GID: KVStash/PyClient/Scatter
   digest: What the reads of one block, one frame and its region do, with bytes read ahead. -/

import KVStash.PyClient.Model

set_option autoImplicit false

namespace KVStash.PyClient

open Foundation.Bytes Foundation.Socket Nvme Wire Client List

variable {E : Env} {aheadLen n pfx bodyLen slot : ℕ} {t front body extra lead w : List UInt8}
  {r : Except ClientError (List UInt8)}

/-! ## One block -/

section Block

/- The bytes from the block on: those read ahead, and those in the socket. -/
variable {w lead : List UInt8} {k k' : Sock}

theorem readFront_some (hw : lead ++ k.stream = w) (h : readFront E pfx lead k = (some front, k')) :
    pfx ≤ w.length ∧ front = w.take pfx ∧ lead.drop pfx ++ k'.stream = w.drop pfx := by
  subst hw
  unfold readFront at h
  dsimp only at h
  split_ifs at h with hall
  · cases h
    have hle : pfx ≤ lead.length := by omega
    rw [length_append, take_append_of_le_length hle, drop_append_of_le_length hle]
    exact ⟨by omega, rfl, rfl⟩
  split at h
  · cases h
  · next more k₁ hread =>
    cases h
    obtain ⟨hlen, rfl, hk⟩ := recvInto_some hread
    have hshort : lead.length ≤ pfx := by omega
    have hmin : min pfx lead.length = lead.length := by omega
    rw [hmin] at hlen hk ⊢
    rw [length_append, take_append, drop_append, take_of_length_le (le_refl _),
      take_of_length_le hshort, hk]
    exact ⟨by omega, rfl, rfl⟩

theorem readFront_none (hw : lead ++ k.stream = w) (h : readFront E pfx lead k = (none, k')) :
    ∃ m ≤ pfx, k'.stream = w.drop m := by
  subst hw
  unfold readFront at h
  dsimp only at h
  split_ifs at h with hall
  · cases h
  split at h
  · next k₁ hread =>
    cases h
    obtain ⟨m, hm, hk⟩ := recvInto_none hread
    have hmin : min pfx lead.length = lead.length := by omega
    rw [hmin] at hm
    refine ⟨lead.length + m, by omega, ?_⟩
    rw [hk, ← drop_drop, drop_left]
  · cases h

theorem readBody_some (h : readBody E bodyLen aheadLen k = (some (body, extra), k')) :
    body = k.stream.take bodyLen ∧ bodyLen + extra.length ≤ k.stream.length ∧
      extra.length ≤ aheadLen ∧
      extra ++ k'.stream = k.stream.drop bodyLen ∧ (bodyLen = 0 → extra = []) := by
  unfold readBody at h
  split_ifs at h with hzero hmsg
  · cases h
    subst hzero
    simp
  · obtain ⟨hbody, hextra, hle, hlen, hk⟩ := recvLoop_some h
    refine ⟨hbody, hlen, hle, ?_, fun h0 => absurd h0 hzero⟩
    rw [hk, ← drop_drop]
    nth_rewrite 1 [hextra]
    exact take_append_drop _ _
  · obtain ⟨hbody, hextra, hle, hlen, hk⟩ := recvLoop_some h
    refine ⟨hbody, hlen, hle.trans (Nat.zero_le _), ?_, fun h0 => absurd h0 hzero⟩
    rw [hk, ← drop_drop]
    nth_rewrite 1 [hextra]
    exact take_append_drop _ _

theorem readBody_none (h : readBody E bodyLen aheadLen k = (none, k')) :
    ∃ m ≤ bodyLen, k'.stream = k.stream.drop m := by
  unfold readBody at h
  split_ifs at h with hzero hmsg
  · cases h
  · exact recvLoop_none h
  · exact recvLoop_none h

theorem behind_front (hlead : lead.length ≤ E.frontLen)
    (ht : lead.drop (min E.frontLen n) ++ t = w.drop (min E.frontLen n)) :
    (n - min E.frontLen n = 0 ∧ min E.frontLen n = n) ∨
      (lead.drop (min E.frontLen n) = [] ∧ t = w.drop (min E.frontLen n)) := by
  rcases Nat.le_total n E.frontLen with hle | hle
  · left
    omega
  right
  have hnil : lead.drop (min E.frontLen n) = [] := drop_eq_nil_of_le (by omega)
  rw [hnil, nil_append] at ht
  exact ⟨hnil, ht⟩

theorem body_eq (hlead : lead.length ≤ E.frontLen)
    (ht : lead.drop (min E.frontLen n) ++ t = w.drop (min E.frontLen n)) :
    t.take (n - min E.frontLen n) = (w.take n).drop E.frontLen := by
  rw [drop_take]
  rcases behind_front hlead ht with ⟨hnone, hall⟩ | ⟨-, rfl⟩
  · have hzero : n - E.frontLen = 0 := by omega
    rw [hnone, hzero, take_zero, take_zero]
  rcases Nat.le_total n E.frontLen with hle | hle
  · have hzero : n - E.frontLen = 0 := by omega
    rw [Nat.min_eq_right hle, Nat.sub_self, hzero, take_zero, take_zero]
  · rw [Nat.min_eq_left hle]

theorem front_append_body (n : ℕ) :
    w.take (min E.frontLen n) ++ (w.take n).drop E.frontLen = w.take n := by
  have hfront : w.take (min E.frontLen n) = (w.take n).take E.frontLen := by rw [take_take]
  rw [hfront, take_append_drop]

theorem behind_body (hlead : lead.length ≤ E.frontLen)
    (ht : lead.drop (min E.frontLen n) ++ t = w.drop (min E.frontLen n)) :
    lead.drop (min E.frontLen n) ++ t.drop (n - min E.frontLen n) = w.drop n ∧
      (lead.drop (min E.frontLen n)).length ≤ lead.length - n := by
  rcases behind_front hlead ht with ⟨hnone, hall⟩ | ⟨hnil, rfl⟩
  · rw [hnone, drop_zero, ht, length_drop, hall]
    exact ⟨rfl, le_refl _⟩
  · rw [hnil, nil_append, drop_drop, Nat.add_sub_cancel' (Nat.min_le_right _ _)]
    exact ⟨rfl, Nat.zero_le _⟩

/-- How the read of a block ends: with the block handed over and the bytes read ahead, or with an
error that evicts the connection and leaves the work as it was, no further than the block and what
it may read ahead. -/
def Taken (E : Env) (slot : ℕ) (d : Desc) (aheadLen : ℕ) (lead w : List UInt8) (wk wk' : Work)
    (rest : List UInt8) :
    Except ClientError (List UInt8) → Prop
  | .ok lead' => d.len.toNat ≤ w.length ∧ lead' ++ rest = w.drop d.len.toNat ∧
      lead'.length ≤ max (lead.length - d.len.toNat) aheadLen ∧
      ∃ e, serve E wk.log ⟨slot, d, w.take d.len.toNat⟩ = some e ∧
        wk' = ⟨wk.statuses.set slot (if e.body.isSome then .ok else .notFound), wk.log ++ [e]⟩
  | .error e =>
      e.evicts = true ∧ wk' = wk ∧ ∃ m ≤ max lead.length (d.len.toNat + aheadLen), rest = w.drop m

theorem scatterOne_spec (htame : E.Tame) {d : Desc} {wk wk' : Work}
    (hw : lead ++ k.stream = w) (hlead : lead.length ≤ E.frontLen)
    (h : scatterOne E slot d aheadLen lead wk k = (r, wk', k')) :
    Taken E slot d aheadLen lead w wk wk' k'.stream r := by
  unfold scatterOne at h
  dsimp only at h
  split at h
  · next k₁ hfront =>
    obtain ⟨m, hm, hk⟩ := readFront_none hw hfront
    cases h
    exact ⟨rfl, rfl, m, by omega, hk⟩
  next front k₁ hfront =>
  obtain ⟨hpfx, rfl, ht⟩ := readFront_some hw hfront
  have hbody := body_eq hlead ht
  have hjoin := @front_append_body E w d.len.toNat
  obtain ⟨hbehind, hkept⟩ := behind_body hlead ht
  have hlen : (lead.drop (min E.frontLen d.len.toNat)).length + k₁.stream.length =
      w.length - min E.frontLen d.len.toNat := by
    rw [← length_append, ht, length_drop]
  have hasked : Block.asked E ⟨slot, d, w.take d.len.toNat⟩ =
      ⟨E.base + slot, w.take (min E.frontLen d.len.toNat),
        d.len.toNat - min E.frontLen d.len.toNat⟩ := by
    rw [Block.asked, take_take]
  -- the socket behind the front, counted from the start of the block
  have hstart : k₁.stream = w.drop (max lead.length (min E.frontLen d.len.toNat)) := by
    have hdrop := congrArg (drop (lead.drop (min E.frontLen d.len.toNat)).length) ht
    rw [drop_left, drop_drop, length_drop] at hdrop
    rw [hdrop]
    congr 1
    omega
  have hfrom : ∀ m, m ≤ d.len.toNat - min E.frontLen d.len.toNat + aheadLen →
      (0 < m → 0 < d.len.toNat - min E.frontLen d.len.toNat) → ∀ t, t = k₁.stream.drop m →
      ∃ m' ≤ max lead.length (d.len.toNat + aheadLen), t = w.drop m' := by
    intro m hm hpos t ht'
    refine ⟨max lead.length (min E.frontLen d.len.toNat) + m, ?_, by rw [ht', hstart, drop_drop]⟩
    rcases Nat.eq_zero_or_pos m with rfl | hm'
    · omega
    · have := hpos hm'
      omega
  split at h
  · next halloc =>
    cases h
    exact ⟨htame _ _ _ halloc, rfl,
      hfrom 0 (Nat.zero_le _) (fun h0 => absurd h0 (lt_irrefl _)) _ rfl⟩
  · next halloc =>
    split at h
    · next k₂ hdrain =>
      cases h
      obtain ⟨m, hm, hk⟩ := drainLoop_none hdrain
      exact ⟨rfl, rfl, hfrom m (by omega) (by omega) _ hk⟩
    next body k₂ hdrain =>
    obtain ⟨henough, hb, hk⟩ := drainLoop_some (by decide) hdrain
    rw [nil_append] at hb
    rw [hb, hbody, hjoin] at h
    split_ifs at h with hdigest
    · cases h
      refine ⟨by omega, by rw [hk]; exact hbehind, hkept.trans (le_max_left _ _),
        ⟨⟨E.base + slot, _, _⟩, none⟩, ?_, rfl⟩
      rw [serve, if_neg (by simp [hdigest]), hasked, halloc]
    · cases h
      exact ⟨rfl, rfl, hfrom _ (Nat.le_add_right _ _) id _ hk⟩
  · next size halloc =>
    split_ifs at h with hsmall
    · cases h
      exact ⟨rfl, rfl, hfrom 0 (Nat.zero_le _) (fun h0 => absurd h0 (lt_irrefl _)) _ rfl⟩
    split at h
    · next k₂ hread =>
      cases h
      obtain ⟨m, hm, hk⟩ := readBody_none hread
      exact ⟨rfl, rfl, hfrom m (by omega) (by omega) _ hk⟩
    next body extra k₂ hread =>
    obtain ⟨hb, henough, hextra, hk, hzero⟩ := readBody_some hread
    rw [hb, hbody, hjoin] at h
    split at h
    · next hdigest =>
      cases h
      have hserve : serve E wk.log ⟨slot, d, w.take d.len.toNat⟩ = some
          ⟨Block.asked E ⟨slot, d, w.take d.len.toNat⟩,
            some ((w.take d.len.toNat).drop E.frontLen)⟩ := by
        rw [serve, if_neg (by simp [hdigest]), hasked, halloc]
        exact if_neg hsmall
      rw [hasked] at hserve
      refine ⟨by omega, ?_, ?_, _, hserve, rfl⟩
      · split_ifs with hnil
        · rw [hnil, nil_append] at hk
          rw [hk]
          exact hbehind
        -- something was read ahead, so there was a body and nothing was left over before it
        rcases behind_front hlead ht with ⟨hnone, -⟩ | ⟨hempty, -⟩
        · exact absurd (hzero hnone) hnil
        · rw [hempty, nil_append] at hbehind
          exact hk.trans hbehind
      · split_ifs
        · exact hkept.trans (le_max_left _ _)
        · exact hextra.trans (le_max_right _ _)
    cases h
    have hk₂ :
        k'.stream = k₁.stream.drop (d.len.toNat - min E.frontLen d.len.toNat + extra.length) := by
      rw [← drop_drop, ← hk, drop_left]
    refine ⟨rfl, rfl, hfrom _ (by omega) ?_ _ hk₂⟩
    intro hpos
    rcases Nat.eq_zero_or_pos (d.len.toNat - min E.frontLen d.len.toNat) with h0 | h0
    · rw [hzero h0, h0] at hpos
      exact absurd hpos (lt_irrefl _)
    · exact h0

end Block

/-! ## The blocks of one frame -/

theorem follows_le (E : Env) (ds : List Desc) :
    (follows E ds).2 ≤ E.frontLen ∧ (follows E ds).2 ≤ okLen ds := by
  induction ds with
  | nil => exact ⟨Nat.zero_le _, le_refl _⟩
  | cons d ds ih =>
    rw [follows, okLen]
    dsimp only
    split_ifs with hd
    · exact ⟨Nat.min_le_left _ _, (Nat.min_le_right _ _).trans (Nat.le_add_right _ _)⟩
    · exact ⟨ih.1, ih.2.trans (Nat.le_add_left _ _)⟩

/-- The statuses are those of the blocks handed over so far, all of them of keys below `stop`. -/
def Agree (E : Env) (n stop : ℕ) (wk : Work) : Prop :=
  wk.statuses = statusesOf E n wk.log ∧ ∀ e ∈ wk.log, e.asked.index < E.base + stop

section Agree

variable {n slot : ℕ} {wk : Work}

theorem length_statusesOf (n : ℕ) (log : List Served) : (statusesOf E n log).length = n := by
  rw [statusesOf, length_map, length_range]

theorem getElem?_statusesOf (n : ℕ) (log : List Served) (i : ℕ) :
    (statusesOf E n log)[i]? = if i < n then
      some (if log.any (fun e => e.asked.index = E.base + i ∧ e.body.isSome) then .ok
        else .notFound) else none := by
  rw [statusesOf, getElem?_map]
  by_cases hi : i < n
  · rw [getElem?_range hi, Option.map_some, if_pos hi]
  · rw [getElem?_eq_none (by rwa [length_range, ← not_lt]), Option.map_none, if_neg hi]

theorem Agree.fresh (h : Agree E n slot wk) :
    wk.log.any (fun e => e.asked.index = E.base + slot ∧ e.body.isSome) = false := by
  rw [any_eq_false]
  intro e he
  have hlt := h.2 e he
  rw [decide_eq_true_eq]
  rintro ⟨heq, -⟩
  omega

theorem Agree.skip (h : Agree E n slot wk) :
    Agree E n (slot + 1) ⟨wk.statuses.set slot .notFound, wk.log⟩ := by
  refine ⟨?_, fun e he => (h.2 e he).trans (Nat.lt_succ_self _)⟩
  apply ext_getElem?
  intro i
  rw [getElem?_set, h.1, length_statusesOf, getElem?_statusesOf]
  by_cases hi : slot = i
  · subst hi
    rw [if_pos rfl, h.fresh]
    rfl
  · rw [if_neg hi]

theorem Agree.serve (h : Agree E n slot wk) {e : Served} (he : e.asked.index = E.base + slot) :
    Agree E n (slot + 1) ⟨wk.statuses.set slot (if e.body.isSome then .ok else .notFound),
      wk.log ++ [e]⟩ := by
  refine ⟨?_, ?_⟩
  · apply ext_getElem?
    intro i
    rw [getElem?_set, h.1, length_statusesOf, getElem?_statusesOf, getElem?_statusesOf, any_append]
    by_cases hi : slot = i
    · subst hi
      rw [if_pos rfl, h.fresh]
      simp [he]
    · rw [if_neg hi]
      simp [he, hi]
  · intro e' he'
    rcases mem_append.mp he' with he' | he'
    · exact (h.2 e' he').trans (Nat.lt_succ_self _)
    · rw [mem_singleton.mp he', he]
      exact Nat.lt_succ_self _

end Agree

theorem serve_index {log : List Served} {b : Block} {e : Served} (h : serve E log b = some e) :
    e.asked.index = E.base + b.slot := by
  unfold serve at h
  split_ifs at h with hd
  split at h
  · cases h
  · cases h
    rfl
  · split_ifs at h
    cases h
    rfl

def Block.Whole (b : Block) : Prop := b.bytes.length = b.desc.len.toNat

/-- How the blocks of a frame end. All of them were read and no byte of another: or an error that
evicts the connection stopped the read among them. -/
def Scattered (E : Env) (slot : ℕ) (ds : List Desc) (w : List UInt8) (bs : List Block)
    (wk wk' : Work) (rest : List UInt8) : Except ClientError (List UInt8) → Prop
  | .ok lead =>
      lead = [] ∧ bs = plainBlocks slot ds w ∧ okLen ds ≤ w.length ∧ rest = w.drop (okLen ds) ∧
      ∀ n, Agree E n slot wk → Agree E n (slot + ds.length) wk'
  | .error e => e.evicts = true ∧ ∃ m ≤ okLen ds, rest = w.drop m

/-- The blocks of a frame are handed over as the plain parse hands them over, up to an error;
nothing behind the last block is read, and bytes are left over from no read. -/
theorem scatterAll_spec (htame : E.Tame) {ds : List Desc} {wk wk' : Work} {k k' : Sock}
    (hw : lead ++ k.stream = w) (hlead : lead.length ≤ E.frontLen) (hlen : lead.length ≤ okLen ds)
    (h : scatterAll E slot (ds.zip (follows E ds).1) lead wk k = (r, wk', k')) :
    ∃ bs, bs <+: plainBlocks slot ds w ∧ (∀ b ∈ bs, b.Whole) ∧
      plainServe E wk.log bs = some wk'.log ∧
      Scattered E slot ds w bs wk wk' k'.stream r := by
  induction ds generalizing slot lead w wk k with
  | nil =>
    cases h
    obtain rfl : lead = [] := length_eq_zero_iff.mp (Nat.le_zero.mp hlen)
    exact ⟨[], nil_prefix, by simp, rfl, rfl, rfl, Nat.zero_le _, hw, fun n hn => hn⟩
  | cons d ds ih =>
    have hzip : (d :: ds).zip (follows E (d :: ds)).1 =
        (d, (follows E ds).2) :: ds.zip (follows E ds).1 := rfl
    obtain ⟨hahead, hahead'⟩ := follows_le E ds
    rw [hzip, scatterAll] at h
    rw [okLen] at hlen
    split_ifs at h with hd hlate
    · have hno : ¬Checked.carriesBody d.status = true := by simp [hd]
      rw [if_neg hno, Nat.zero_add] at hlen
      obtain ⟨bs, hpre, hwhole, hserve, hr⟩ := ih hw hlead hlen h
      have hblocks : plainBlocks slot (d :: ds) w = plainBlocks (slot + 1) ds w := by
        rw [plainBlocks, if_neg hno]
      have hok : okLen (d :: ds) = okLen ds := by rw [okLen, if_neg hno, Nat.zero_add]
      refine ⟨bs, by rwa [hblocks], hwhole, hserve, ?_⟩
      cases r with
      | error e => rwa [Scattered, hok]
      | ok lead' =>
        obtain ⟨h1, h2, h3, h4, h5⟩ := hr
        rw [Scattered, hok, hblocks, length_cons]
        refine ⟨h1, h2, h3, h4, fun n hn => ?_⟩
        have hagree := h5 n hn.skip
        rwa [Nat.add_assoc, Nat.add_comm 1] at hagree
    · cases h
      exact ⟨[], nil_prefix, by simp, rfl, rfl, lead.length, hlen, by rw [← hw, drop_left]⟩
    · have hyes : Checked.carriesBody d.status = true := by simpa using hd
      rw [if_pos hyes] at hlen
      have hblocks : plainBlocks slot (d :: ds) w =
          ⟨slot, d, w.take d.len.toNat⟩ :: plainBlocks (slot + 1) ds (w.drop d.len.toNat) := by
        rw [plainBlocks, if_pos hyes]
      have hok : okLen (d :: ds) = d.len.toNat + okLen ds := by rw [okLen, if_pos hyes]
      split at h
      · next e wk₁ k₁ hone =>
        cases h
        obtain ⟨hev, rfl, m, hm, hk⟩ :=
          scatterOne_spec htame (k := ⟨k.stream, k.tick + 1⟩) hw hlead hone
        exact ⟨[], nil_prefix, by simp, rfl, hev, m, by omega, hk⟩
      next lead₁ wk₁ k₁ hone =>
      obtain ⟨hbound, hk, hlead₁, e, hserve, rfl⟩ :=
        scatterOne_spec htame (k := ⟨k.stream, k.tick + 1⟩) hw hlead hone
      obtain ⟨bs, hpre, hwhole, hrun, hr⟩ := ih hk (by omega) (by omega) h
      refine ⟨⟨slot, d, w.take d.len.toNat⟩ :: bs, by rwa [hblocks, prefix_cons_inj], ?_, ?_, ?_⟩
      · intro b hb
        rcases mem_cons.mp hb with rfl | hb
        · exact length_take_of_le hbound
        · exact hwhole b hb
      · rw [plainServe, hserve]
        exact hrun
      cases r with
      | error e' =>
        obtain ⟨hev, m, hm, hk'⟩ := hr
        exact ⟨hev, d.len.toNat + m, by omega, by rw [hk', drop_drop]⟩
      | ok lead' =>
        obtain ⟨h1, h2, h3, h4, h5⟩ := hr
        rw [length_drop] at h3
        rw [Scattered, hok, hblocks, length_cons]
        refine ⟨h1, by rw [h2], by omega, by rw [h4, drop_drop], fun n hn => ?_⟩
        have hagree := h5 n (hn.serve (serve_index hserve))
        rwa [Nat.add_assoc, Nat.add_comm 1] at hagree

end KVStash.PyClient
