/- GID: KVStash/Dram/Tier/Specs
   digest: What each atomic action of the DRAM tier takes from and gives to the thread that takes
     it. -/

import KVStash.Dram.Tier.Invariant

set_option autoImplicit false

namespace KVStash.Dram.Tier

open Protocol Foundation.Tally Multiset Function

variable {p : Params} {a : Audit} {s s' : Store} {m m' f : Own} {k : Key} {r : BlockRef}
  {n ns i offset len xxh3 : ℕ}
  {x : Tok}

/-! ### Changing what is owned -/

private theorem Inv.account (h : Inv p a s m) {l : List Extent} {u : ℕ → ℤ}
    (hc : ∀ x, (∀ e, x ≠ .raw e) → (∀ ns n, x ≠ .debt ns n) → (∀ r, x ≠ .known r) →
      m'.count x = m.count x)
    (hk : ∀ r, .known r ∈ m' → Minted s r)
    (he : (l : Multiset Extent) = rawExtents m' + tally s.next (kept s m))
    (hap : l.Pairwise Extent.Disjoint) (har : ∀ e ∈ l, 0 < e.units ∧ e.offset + e.units ≤ p.units)
    (hu : a.ledger → ∀ ns, u ns = owed m' ns + tally s.next (accounted s m ns)) :
    Inv p a { s with extents := l, used := u } m' :=
  h.totals ⟨rfl, fun _ => rfl, fun _ _ => rfl, fun _ _ => rfl, fun _ _ => .rfl, fun _ _ => rfl,
    fun r _ => ⟨hc _ (by simp) (by simp) (by simp), hc _ (by simp) (by simp) (by simp)⟩,
    fun k r _ => ⟨hc _ (by simp) (by simp) (by simp), hc _ (by simp) (by simp) (by simp)⟩⟩
      hk he hap har hu

private theorem Inv.own_congr (h : Inv p a s m)
    (hc : ∀ x, (∀ r, x ≠ .known r) → m'.count x = m.count x)
    (hraw : rawExtents m' = rawExtents m) (howed : ∀ ns, owed m' ns = owed m ns)
    (hk : ∀ r, .known r ∈ m' → Minted s r) : Inv p a s m' := by
  refine h.account (l := s.extents) (u := s.used)
    (fun x _ _ hx => hc x hx) hk ?_ h.apart h.inArena ?_
  · rw [hraw]
    exact h.extents
  · intro hl ns
    rw [howed]
    exact h.ledger hl ns

theorem Inv.know (h : Inv p a s f) (hr : Minted s r) : Inv p a s ({.known r} + f) := by
  apply h.own_congr
  · intro x hx
    rw [count_add, count_singleton, if_neg (hx r), zero_add]
  · simp [Tok.extents]
  · simp [Tok.owed]
  intro r' hr'
  rw [mem_add, mem_singleton, Tok.known.injEq] at hr'
  rcases hr' with rfl | hr'
  · exact hr
  · exact h.minted r' (.inl hr')

theorem Inv.forget (h : Inv p a s ({.known r} + f)) : Inv p a s f := by
  apply h.own_congr
  · intro x hx
    rw [count_add, count_singleton, if_neg (hx r), zero_add]
  · simp [Tok.extents]
  · simp [Tok.owed]
  · intro r' hr'
    exact h.minted r' (.inl (mem_add.mpr (.inr hr')))

/-! ### Lookups and the clock -/

theorem get_holds (k : Key) (keep : BlockRef → Bool) : Holds p a (.get k) 0 fun o m' =>
    (∀ r, o = some r → (m' = if keep r then {.known r} else 0) ∧ r.key = k ∧
      (a.ledger → r.len = a.lenOf r.xxh3)) ∧ (o = none → m' = 0) := by
  intro s f h env o s' he
  rw [zero_add] at h
  simp only [exec] at he
  split at he
  · simp at he
  cases he
  cases ho : s.index k with
  | none => exact ⟨0, by rwa [zero_add], by simp, fun _ => rfl⟩
  | some r =>
    obtain ⟨hm, hk⟩ := h.indexed k r ho
    refine ⟨if keep r then {.known r} else 0, ?_, ?_, by simp⟩
    · split
      · exact h.know hm
      · rwa [zero_add]
    intro r' hr'
    rw [Option.some.injEq] at hr'
    subst hr'
    refine ⟨rfl, hk, fun hl => ?_⟩
    have := h.sized hl r.id hm.1
    rwa [hm.2] at this

private theorem Holds.of_inv {x : Act} {m : Own}
    (h : ∀ s n env r s', Inv p a s n → exec p x env s = some (r, s') → Inv p a s' n) :
    Holds p a x m fun _ m' => m' = m :=
  fun s f hi env r s' he => ⟨m, h s (m + f) env r s' hi he, rfl⟩

theorem now_holds (m : Own) : Holds p a .now m fun _ m' => m' = m := by
  apply Holds.of_inv
  intro s n env r s' h he
  cases he
  exact h

theorem advance_holds (d : ℕ) (m : Own) : Holds p a (.advance d) m fun _ m' => m' = m := by
  apply Holds.of_inv
  intro s n env r s' h he
  cases he
  exact h.congr rfl rfl rfl rfl rfl (fun _ => rfl) (fun _ => rfl)

theorem extendLease_holds (r : BlockRef) (u : ℕ) (m : Own) :
    Holds p a (.extendLease r u) m fun _ m' => m' = m := by
  apply Holds.of_inv
  intro s n env x s' h he
  cases he
  exact h.onCell (fun _ => rfl) (fun _ => rfl)

theorem releaseLease_holds (r : BlockRef) (m : Own) :
    Holds p a (.releaseLease r) m fun _ m' => m' = m := by
  apply Holds.of_inv
  intro s n env x s' h he
  cases he
  exact h.onCell (fun _ => rfl) (fun _ => rfl)

theorem touch_holds (r : BlockRef) (t : ℕ) (ttl : Option ℕ) (m : Own) :
    Holds p a (.touch r t ttl) m fun _ m' => m' = m := by
  apply Holds.of_inv
  intro s n env x s' h he
  cases he
  exact h.onCell (fun _ => rfl) (fun _ => rfl)

theorem hit_holds (r : BlockRef) (m : Own) : Holds p a (.hit r) m fun _ m' => m' = m := by
  apply Holds.of_inv
  intro s n env x s' h he
  cases he
  exact h.onCell (fun _ => rfl) (fun _ => rfl)

theorem hits_holds (r : BlockRef) (m : Own) : Holds p a (.hits r) m fun _ m' => m' = m := by
  apply Holds.of_inv
  intro s n env x s' h he
  cases he
  exact h

theorem view_holds (o n : ℕ) (m : Own) :
    Holds p a (.view o n) m fun d m' => m' = m ∧ d.length = n := by
  intro s f h env d s' he
  cases he
  exact ⟨m, h, rfl, by simp [Store.view]⟩

theorem write_holds (o : ℕ) (d : List UInt8) (m : Own) :
    Holds p a (.write o d) m fun _ m' => m' = m := by
  apply Holds.of_inv
  intro s n env x s' h he
  cases he
  exact h.congr rfl rfl rfl rfl rfl (fun _ => rfl) (fun _ => rfl)

/-! ### Pins -/

@[simp] theorem unpin_index : (s.unpin r).index = s.index := by
  unfold Store.unpin
  split <;> rfl

@[simp] theorem unpin_locked : (s.unpin r).locked = s.locked := by
  unfold Store.unpin
  split <;> rfl

private theorem Inv.unpin (h : Inv p a s m) : Inv p a (s.unpin r) m := by
  unfold Store.unpin
  split
  · have h' : Inv p a (s.refundPin r) m :=
      h.congr rfl rfl rfl rfl rfl (fun _ => rfl) (fun _ => rfl)
    exact h'.onCell (fun _ => rfl) (fun _ => rfl)
  · exact h.onCell (fun _ => rfl) (fun _ => rfl)

private theorem Inv.pin (h : Inv p a s m) (hard : Bool) : Inv p a (s.pin p r hard).2 m := by
  have setTo : ∀ {t : Store} (fl : PinFlags), Inv p a t m →
      Inv p a (t.onCell r fun c => { c with pinFlags := fl }) m :=
    fun fl ht => ht.onCell (fun _ => rfl) (fun _ => rfl)
  have charge : ∀ pinned, Inv p a { s with pinned := pinned } m :=
    fun pinned => h.congr rfl rfl rfl rfl rfl (fun _ => rfl) (fun _ => rfl)
  unfold Store.pin
  dsimp only
  split
  · split
    · exact setTo .hard h
    · split
      · exact h
      · exact setTo .hard (charge _)
  · split
    · exact setTo .soft (charge _)
    · exact setTo .soft h

theorem pinOp_holds (k : Key) (sub : PinSub) (m : Own) :
    Holds p a (.pinOp k sub) m fun _ m' => m' = m := by
  apply Holds.of_inv
  intro s n env x s' h he
  simp only [exec] at he
  split at he
  · simp at he
  rw [Option.some.injEq] at he
  have hs : s' = (s.pinOp p k sub).2 := (congrArg Prod.snd he).symm
  subst hs
  unfold Store.pinOp
  split
  · exact h
  cases sub
  · exact h.pin false
  · exact h.pin true
  · exact h.unpin
  · exact h

/-! ### Reference counts -/

@[simp] theorem onCell_cells_self (f : Cell → Cell) :
    (s.onCell r f).cells r.id = f (s.cells r.id) := by
  simp [Store.onCell]

theorem onCell_cells_ne (f : Cell → Cell) (hi : i ≠ r.id) : (s.onCell r f).cells i = s.cells i := by
  simp [Store.onCell, update_of_ne hi]

/-! ### One block and its key -/

section Block

variable {K : Key → Prop}

private theorem Inv.id_of_ref (h : Inv p a s m) (hi : i < s.next) (he : (s.cells i).ref = r) :
    i = r.id :=
  (h.ids i hi).symm.trans (congrArg BlockRef.id he)

private theorem Inv.tally_kept (h : Inv p a s m) (hb : Beside (· = r) K s s' m m')
    (hr : Minted s r) :
    kept s' m' r.id + tally s.next (kept s m) = kept s m r.id + tally s.next (kept s' m') :=
  tally_exchange hr.1 fun _ hj hjr => (hb.kept fun he => hjr (h.id_of_ref hj he)).symm

private theorem Inv.tally_accounted (h : Inv p a s m) (hb : Beside (· = r) K s s' m m')
    (hr : Minted s r) (ns : ℕ) :
    accounted s' m' ns r.id + tally s.next (accounted s m ns) =
      accounted s m ns r.id + tally s.next (accounted s' m' ns) :=
  tally_exchange hr.1 fun _ hj hjr => (hb.accounted ns fun he => hjr (h.id_of_ref hj he)).symm

end Block

private theorem Inv.recount (h : Inv p a s m) (hr : Minted s r)
    (hcount : n = (if s.index r.key = some r then 1 else 0) + m'.count (.hold r))
    (hother : ∀ x, x ≠ .hold r → x ≠ .spent r → m'.count x = m.count x)
    (hraw : rawExtents m' = rawExtents m) (howed : ∀ ns, owed m' ns = owed m ns)
    (hspent : .spent r ∈ m' → n = 0 ∧ m'.count (.spent r) = 1)
    (hkept : r.len = 0 ∨
      ((0 < n ∨ .spent r ∈ m') ↔ (0 < (s.cells r.id).refcount ∨ .spent r ∈ m))) :
    Inv p a (s.onCell r fun c => { c with refcount := n }) m' := by
  set t := s.onCell r fun c => { c with refcount := n } with ht
  have hcell : ∀ i, (t.cells i).ref = (s.cells i).ref := by
    intro i
    by_cases hi : i = r.id
    · rw [hi, ht, onCell_cells_self]
    · rw [ht, onCell_cells_ne _ hi]
  have hself : (t.cells r.id).refcount = n := by rw [ht, onCell_cells_self]
  have hb : Beside (· = r) (fun _ => False) s t m m' := by
    refine ⟨rfl, hcell, fun i hi => ?_, fun _ _ => rfl, fun _ _ => .rfl, fun _ _ => rfl,
      fun x hx => ?_, fun k x _ => ?_⟩
    · rw [ht, onCell_cells_ne]
      rintro rfl
      exact hi hr.2
    · exact ⟨hother _ (by simpa using hx) (by simp), hother _ (by simp) (by simpa using hx)⟩
    · exact ⟨hother _ (by simp) (by simp), hother _ (by simp) (by simp)⟩
  refine h.change hb (fun _ _ h => h.elim) ?_ ?_ ?_ (fun _ _ h => h.elim)
    (fun _ h => h.elim) ?_ h.apart h.inArena ?_
  · rintro x (hx | ⟨rfl, -⟩)
    · exact h.minted x (.inl ((mem_of_count (hother _ (by simp) (by simp))).mp hx))
    · exact hr
  · rintro x rfl -
    rw [hself]
    exact hcount
  · rintro x rfl hx
    rw [hself]
    exact hspent hx
  · have hsame : kept t m' r.id = kept s m r.id := by
      simp only [kept, hcell, hr.2, hself]
      rcases hkept with hz | hiff
      · simp [extentOf, hz]
      · simp only [hiff]
    have hex := h.tally_kept hb hr
    rw [hsame] at hex
    rw [hraw, ← add_left_cancel hex]
    exact h.extents
  · intro hl ns
    have ha : accounted t m' ns = accounted s m ns := by
      funext i
      simp only [accounted, hcell, mem_of_count (hother (.moved _ _) (by simp) (by simp))]
      rfl
    rw [howed, ha]
    exact h.ledger hl ns

theorem acquire_holds (r : BlockRef) : Holds p a (.acquire r) {.known r} fun b m' =>
    m' = if b then {.hold r} else 0 := by
  intro s f h env b s' he
  have hr : Minted s r := h.minted r (.inl (by simp))
  have hf := h.forget
  simp only [exec] at he
  split at he
  · cases he
    exact ⟨0, by rwa [zero_add], rfl⟩
  next hz =>
  cases he
  refine ⟨{.hold r}, ?_, rfl⟩
  have hns : Tok.spent r ∉ f := fun hs => hz (hf.spent r hs).1
  apply hf.recount hr
  · rw [hf.counted r hr, count_add, count_singleton_self]
    omega
  · intro x hx _
    rw [count_add, count_singleton, if_neg hx, zero_add]
  · simp [Tok.extents]
  · simp [Tok.owed]
  · intro hs
    simp [hns] at hs
  · right
    simp [hns]
    omega

theorem release_holds (r : BlockRef) : Holds p a (.release r) {.hold r} fun b m' =>
    m' = if b ∧ r.len ≠ 0 then {.spent r} else 0 := by
  intro s f h env b s' he
  have hr : Minted s r := h.minted r (.inr (.inl (by simp)))
  have hc := h.counted r hr
  rw [count_add, count_singleton_self] at hc
  have hns : Tok.spent r ∉ f := by
    intro hs
    have := (h.spent r (by simp [hs])).1
    omega
  simp only [exec] at he
  split at he
  · omega
  cases he
  refine ⟨_, ?_, rfl⟩
  have hrest : ∀ (c : Prop) [Decidable c],
      ((if c then {Tok.spent r} else 0) + f : Own).count (.hold r) = f.count (.hold r) := by
    intro c _
    split <;> simp
  apply h.recount hr
  · rw [hc, hrest]
    omega
  · intro x hx hx'
    split <;> simp [hx, hx']
  · split <;> simp [Tok.extents]
  · intro ns
    split <;> simp [Tok.owed]
  · split
    · next hlast =>
      intro _
      simp only [decide_eq_true_eq] at hlast
      refine ⟨by omega, ?_⟩
      simp [count_eq_zero_of_notMem hns]
    · intro hs
      simp [hns] at hs
  · by_cases hlen : r.len = 0
    · exact .inl hlen
    · right
      split
      · simp
        omega
      next hlast =>
      simp only [decide_eq_true_eq, not_and_or, not_not] at hlast
      simp [hns]
      omega

/-! ### The allocator and the ledger -/

theorem alloc_holds (hn : 0 < n) : Holds p a (.alloc n) 0 fun o m' =>
    (∀ x, o = some x → m' = {.raw ⟨x, n⟩}) ∧ (o = none → m' = 0) := by
  intro s f h env o s' he
  rw [zero_add] at h
  simp only [exec] at he
  split at he
  · cases he
    exact ⟨0, by rwa [zero_add], by simp, fun _ => rfl⟩
  next x =>
  split at he
  · next hfit =>
    cases he
    refine ⟨{.raw ⟨x, n⟩}, ?_, by simp, by simp⟩
    apply h.account (u := s.used)
    · intro y hy _ _
      simp [hy]
    · intro r hr
      exact h.minted r (.inl (by simpa using hr))
    · rw [← cons_coe, h.extents]
      simp [Tok.extents]
    · exact List.pairwise_cons.mpr ⟨hfit.2, h.apart⟩
    · intro e he
      rcases List.mem_cons.mp he with rfl | he
      · exact ⟨hn, hfit.1⟩
      · exact h.inArena e he
    · intro hl ns
      simp only [owed_add, owed_singleton, Tok.owed, zero_add]
      exact h.ledger hl ns
  · simp at he

theorem free_raw_holds (e : Extent) : Holds p a (.free e) {.raw e} fun _ m' => m' = 0 := by
  intro s f h env o s' he
  cases he
  refine ⟨0, ?_, rfl⟩
  rw [zero_add]
  apply h.account (u := s.used)
  · intro y hy _ _
    simp [hy]
  · intro r hr
    exact h.minted r (.inl (by simpa using hr))
  · rw [← coe_erase, h.extents]
    simp only [singleton_add, rawExtents_cons, Tok.extents, cons_add, erase_cons_head]
  · exact h.apart.sublist List.erase_sublist
  · intro x hx
    exact h.inArena x (List.mem_of_mem_erase hx)
  · intro hl ns
    have := h.ledger hl ns
    simpa [Tok.owed] using this

private theorem count_owe (hd : ∀ ns n, x ≠ .debt ns n) : (owe a ns n).count x = 0 := by
  unfold owe
  split <;> simp [hd]

private theorem owed_owe (hl : a.ledger) (ns n ns' : ℕ) :
    owed (owe a ns n) ns' = if ns = ns' then (n : ℤ) else 0 := by
  unfold owe
  by_cases hz : n = 0
  · simp [hz]
  · simp [hz, hl, Tok.owed]

theorem charge_holds (ns n : ℕ) : Holds p a (.charge ns n) 0 fun b m' =>
    m' = if b then owe a ns n else 0 := by
  intro s f h env b s' he
  rw [zero_add] at h
  simp only [exec, Option.some.injEq, Store.charge] at he
  split at he
  · cases he
    exact ⟨0, by rwa [zero_add], rfl⟩
  cases he
  refine ⟨_, ?_, rfl⟩
  rw [if_pos rfl]
  apply h.account (l := s.extents)
  · intro y _ hy _
    rw [count_add, count_owe hy, zero_add]
  · intro r hr
    rw [← count_pos, count_add, count_owe (by simp), zero_add, count_pos] at hr
    exact h.minted r (.inl hr)
  · rw [h.extents]
    unfold owe
    split <;> simp [Tok.extents]
  · exact h.apart
  · exact h.inArena
  · refine fun hl => update_charge (h.ledger hl) fun ns' => ?_
    rw [owed_add, owed_owe hl, add_assoc, add_comm]

private theorem accounted_nonneg (s : Store) (m : Own) (ns i : ℕ) : 0 ≤ accounted s m ns i := by
  unfold accounted
  split <;> omega

private theorem tally_accounted_nonneg (s : Store) (m : Own) (ns n : ℕ) :
    0 ≤ tally n (accounted s m ns) :=
  tally_nonneg fun i _ => accounted_nonneg s m ns i

theorem refund_holds : Holds p a (.refund ns n) (owe a ns n) fun _ m' => m' = 0 := by
  intro s f h env b s' he
  cases he
  refine ⟨0, ?_, rfl⟩
  rw [zero_add]
  apply h.account (l := s.extents)
  · intro y _ hy _
    rw [count_add, count_owe hy, zero_add]
  · intro r hr
    exact h.minted r (.inl (mem_add.mpr (.inr hr)))
  · rw [h.extents]
    unfold owe
    split <;> simp [Tok.extents]
  · exact h.apart
  · exact h.inArena
  · refine fun hl => update_refund (h.ledger hl) (fun ns' => ?_)
      fun ns' => add_nonneg (owed_nonneg f ns') (tally_accounted_nonneg _ _ ns' _)
    rw [owed_add, owed_owe hl, add_assoc, add_comm]

theorem free_spent_holds (hlen : r.len ≠ 0) :
    Holds p a (.free r.extent) {.spent r} fun _ m' => m' = 0 := by
  intro s f h env o s' he
  cases he
  refine ⟨0, ?_, rfl⟩
  rw [zero_add]
  have hr : Minted s r := h.minted r (.inr (.inr (by simp)))
  obtain ⟨hz, hone⟩ := h.spent r (by simp)
  have hnf : Tok.spent r ∉ f := by
    rw [← count_eq_zero]
    simpa using hone
  set t : Store := { s with extents := s.extents.erase r.extent }
  have hb : Beside (· = r) (fun _ => False) s t ({Tok.spent r} + f) f := by
    refine ⟨rfl, fun _ => rfl, fun _ _ => rfl, fun _ _ => rfl, fun _ _ => .rfl, fun _ _ => rfl,
      fun x hx => ?_,
      fun _ _ _ => ?_⟩
    · simp [hx]
    · simp
  have hacc : ∀ ns, accounted t f ns = accounted s ({Tok.spent r} + f) ns := by
    intro ns
    funext i
    simp [accounted, t]
  refine h.change hb (fun _ _ h => h.elim) ?_ ?_ ?_ (fun _ _ h => h.elim) (fun _ h => h.elim) ?_
    (h.apart.sublist List.erase_sublist) (fun x hx => h.inArena x (List.mem_of_mem_erase hx)) ?_
  · rintro x (hx | ⟨rfl, -⟩)
    · exact h.minted x (.inl (by simp [hx]))
    · exact hr
  · rintro x rfl hx
    simpa using h.counted x hx
  · rintro x rfl hx
    exact absurd hx hnf
  · -- only the extent of the freed block leaves the sum
    have hex := h.tally_kept hb hr
    have h1 : kept s ({Tok.spent r} + f) r.id = {r.extent} := by
      simp [kept, hr.2, extentOf, hlen, BlockRef.extent]
    have h2 : kept t f r.id = 0 := by
      simp [kept, t, hr.2, hz, hnf]
    rw [h1, h2, zero_add] at hex
    rw [← coe_erase, h.extents, hex]
    simp only [rawExtents_add, rawExtents_singleton, Tok.extents, zero_add]
    rw [add_left_comm, singleton_add, erase_cons_head]
  · intro hl ns
    rw [hacc]
    simpa [Tok.owed] using h.ledger hl ns

/-! ### The index -/

/-- What a staged block brings to its publication: its extent and its charge. -/
def stake (a : Audit) (k : Key) (offset len : ℕ) : Own := rawOf offset len + owe a k.ns len

private theorem rawExtents_stake (offset len : ℕ) :
    rawExtents (stake a k offset len) = extentOf offset len := by
  unfold stake rawOf owe extentOf
  split <;> split <;> simp [Tok.extents]

private theorem owed_stake (hl : a.ledger) (offset len ns : ℕ) :
    owed (stake a k offset len) ns = if k.ns = ns then (len : ℤ) else 0 := by
  unfold stake rawOf owe
  by_cases hz : len = 0
  · simp [hz]
  · simp [hz, hl, Tok.owed]

private theorem count_stake (offset len : ℕ) (hr : ∀ e, x ≠ .raw e)
    (hd : ∀ ns n, x ≠ .debt ns n) : (stake a k offset len).count x = 0 := by
  unfold stake rawOf owe
  split <;> split <;> simp [hr, hd]

section Publish

/-- The state once a new block is under a key that had none. -/
private def published (s : Store) (k : Key) (offset len xxh3 : ℕ) : Store :=
  { s with
    index := update s.index k (some ⟨s.next, k, offset, len, xxh3⟩)
    cells := update s.cells s.next
      { emptyCell with ref := ⟨s.next, k, offset, len, xxh3⟩, refcount := 1 }
    next := s.next + 1 }

private theorem published_old (hi : i ≠ s.next) :
    (published s k offset len xxh3).cells i = s.cells i := update_of_ne hi _ _

private theorem published_new : (published s k offset len xxh3).cells s.next =
    { emptyCell with ref := ⟨s.next, k, offset, len, xxh3⟩, refcount := 1 } := update_self _ _ _

private theorem published_index {k' : Key} (hk : k' ≠ k) :
    (published s k offset len xxh3).index k' = s.index k' := update_of_ne hk _ _

private theorem Minted.published (h : Minted s r) : Minted (published s k offset len xxh3) r := by
  refine ⟨Nat.lt_succ_of_lt h.1, ?_⟩
  rw [published_old (Nat.ne_of_lt h.1)]
  exact h.2

private theorem Minted.ne_fresh (h : Minted s r) : r ≠ ⟨s.next, k, offset, len, xxh3⟩ := by
  rintro rfl
  exact absurd h.1 (Nat.lt_irrefl _)

private theorem minted_published (h : Minted (published s k offset len xxh3) r) :
    r = ⟨s.next, k, offset, len, xxh3⟩ ∨ Minted s r ∧ r.id ≠ s.next := by
  by_cases hid : r.id = s.next
  · left
    have href := h.2
    rw [hid, published_new] at href
    exact href.symm
  · right
    refine ⟨⟨Nat.lt_of_le_of_ne (Nat.lt_succ_iff.mp h.1) hid, ?_⟩, hid⟩
    rw [← published_old hid]
    exact h.2

private theorem published_index_iff (hnone : s.index k = none) (h : Minted s r) :
    (published s k offset len xxh3).index r.key = some r ↔ s.index r.key = some r := by
  by_cases hk : r.key = k
  · rw [hk, hnone]
    simp only [published, update_self, Option.some.injEq, reduceCtorEq, iff_false]
    exact h.ne_fresh.symm
  · rw [published_index hk]

private theorem count_stake_add (h1 : ∀ e, x ≠ .raw e) (h2 : ∀ ns n, x ≠ .debt ns n) :
    (stake a k offset len + f).count x = f.count x := by
  rw [count_add, count_stake _ _ h1 h2, zero_add]

private theorem mem_stake_add (h1 : ∀ e, x ≠ .raw e) (h2 : ∀ ns n, x ≠ .debt ns n) :
    x ∈ stake a k offset len + f ↔ x ∈ f := by
  rw [← count_pos, ← count_pos, count_stake_add h1 h2]

variable (h : Inv p a s (stake a k offset len + f)) (hnone : s.index k = none)
include h

private theorem Inv.minted_rest (hx : .known r ∈ f ∨ .hold r ∈ f ∨ .spent r ∈ f) : Minted s r := by
  apply h.minted r
  rwa [mem_stake_add (by simp) (by simp), mem_stake_add (by simp) (by simp),
    mem_stake_add (by simp) (by simp)]

private theorem Inv.inside_rest {k' : Key} (hx : .inside k' r ∈ f ∨ .moved k' r ∈ f) :
    s.index k' = some r ∧ f.count (.inside k' r) + f.count (.moved k' r) = 1 := by
  have hin := h.inside k' r (by
    rwa [mem_stake_add (by simp) (by simp), mem_stake_add (by simp) (by simp)])
  rwa [count_stake_add (by simp) (by simp), count_stake_add (by simp) (by simp)] at hin

private theorem Inv.published_extents : (s.extents : Multiset Extent) = rawExtents f +
    tally (s.next + 1) (kept (published s k offset len xxh3) f) := by
  have hkeep : ∀ i < s.next, kept (published s k offset len xxh3) f i =
      kept s (stake a k offset len + f) i := by
    intro i hi
    simp only [kept, published_old (Nat.ne_of_lt hi),
      mem_stake_add (x := .spent _) (by simp) (by simp)]
  have hlast : kept (published s k offset len xxh3) f s.next = extentOf offset len := by
    simp only [kept, published_new]
    simp
  rw [tally_succ, tally_congr hkeep, hlast, h.extents, rawExtents_add, rawExtents_stake]
  rw [add_assoc, add_comm (extentOf offset len), ← add_assoc]

include hnone

private theorem Inv.published_counted (hr : Minted (published s k offset len xxh3) r) :
    ((published s k offset len xxh3).cells r.id).refcount =
      (if (published s k offset len xxh3).index r.key = some r then 1 else 0) +
        f.count (.hold r) := by
  rcases minted_published hr with rfl | ⟨hr, hid⟩
  · have hz : f.count (.hold ⟨s.next, k, offset, len, xxh3⟩) = 0 := by
      rw [count_eq_zero]
      exact fun hm => (h.minted_rest (.inr (.inl hm))).ne_fresh rfl
    rw [hz]
    simp [published]
  · rw [published_old hid]
    simp only [published_index_iff hnone hr]
    rw [← count_stake_add (by simp) (by simp)]
    exact h.counted r hr

private theorem Inv.published_ledger (hl : a.ledger) (ns : ℕ) : s.used ns = owed f ns +
    tally (s.next + 1) (accounted (published s k offset len xxh3) f ns) := by
  have hacc : ∀ i < s.next, accounted (published s k offset len xxh3) f ns i =
      accounted s (stake a k offset len + f) ns i := by
    intro i hi
    have hm : Minted s (s.cells i).ref := by
      refine ⟨?_, ?_⟩ <;> rw [h.ids i hi]
      exact hi
    simp only [accounted, published_old (Nat.ne_of_lt hi), published_index_iff hnone hm,
      mem_stake_add (x := .moved _ _) (by simp) (by simp)]
  have hlast : accounted (published s k offset len xxh3) f ns s.next =
      if k.ns = ns then (len : ℤ) else 0 := by
    have hnm : Tok.moved k ⟨s.next, k, offset, len, xxh3⟩ ∉ f := by
      intro hm
      have hin := (h.inside_rest (.inr hm)).1
      rw [hnone] at hin
      cases hin
    simp only [accounted, published_new]
    simp [published, hnm]
  rw [tally_succ, tally_congr hacc, hlast, h.ledger hl ns, owed_add, owed_stake hl]
  omega

private theorem Inv.published (hsz : a.ledger → len = a.lenOf xxh3) :
    Inv p a (published s k offset len xxh3) f where
  ids i hi := by
    by_cases hin : i = s.next
    · rw [hin, published_new]
    · rw [published_old hin]
      exact h.ids i (Nat.lt_of_le_of_ne (Nat.lt_succ_iff.mp hi) hin)
  indexed k' r hr := by
    by_cases hk : k' = k
    · subst hk
      have hnew : some _ = some r := (update_self k' _ s.index).symm.trans hr
      cases hnew
      exact ⟨⟨Nat.lt_succ_self _, congrArg Cell.ref published_new⟩, rfl⟩
    · rw [published_index hk] at hr
      exact ⟨(h.indexed k' r hr).1.published, (h.indexed k' r hr).2⟩
  minted r hr := (h.minted_rest hr).published
  counted r hr := h.published_counted hnone hr
  spent r hr := by
    rw [published_old (Nat.ne_of_lt (h.minted_rest (.inr (.inr hr))).1)]
    have hspent := h.spent r ((mem_stake_add (by simp) (by simp)).mpr hr)
    rwa [count_stake_add (by simp) (by simp)] at hspent
  inside k' r hr := by
    obtain ⟨hin, hone⟩ := h.inside_rest hr
    have hk : k' ≠ k := by
      rintro rfl
      rw [hnone] at hin
      cases hin
    rw [published_index hk]
    exact ⟨hin, hone⟩
  locked k' := by
    refine (h.locked k').trans ?_
    simp only [mem_stake_add (x := .inside k' _) (by simp) (by simp),
      mem_stake_add (x := .moved k' _) (by simp) (by simp)]
  extents := h.published_extents
  apart := h.apart
  inArena := h.inArena
  sized hl i hi := by
    by_cases hin : i = s.next
    · rw [hin, published_new]
      exact hsz hl
    · rw [published_old hin]
      exact h.sized hl i (Nat.lt_of_le_of_ne (Nat.lt_succ_iff.mp hi) hin)
  ledger hl := h.published_ledger hnone hl

end Publish

/-- The publish of a block: the extent and the charge become the block's, and on a
lost race they stay with the thread. -/
theorem insert_holds (hsz : a.ledger → len = a.lenOf xxh3) :
    Holds p a (.insert k offset len xxh3) (stake a k offset len) fun x m' =>
      m' = if x.2 then 0 else stake a k offset len := by
  intro s f h env x s' he
  simp only [exec] at he
  split at he
  · simp at he
  split at he
  · cases he
    exact ⟨_, h, rfl⟩
  · next hnone =>
    cases he
    refine ⟨0, ?_, rfl⟩
    rw [zero_add]
    exact h.published hnone hsz

/-- A change of the key of a resident block: its index entry, its lock, its tokens and
the ledger. -/
private theorem Inv.rekey (h : Inv p a s m) (hidx : s.index k = some r) {o : Option BlockRef}
    {b : Bool} {u : ℕ → ℤ} (ho : o = some r ∨ o = none)
    (hc : ∀ y, y ≠ .inside k r → y ≠ .moved k r → y ≠ .hold r → (∀ ns n, y ≠ .debt ns n) →
      m'.count y = m.count y)
    (hraw : rawExtents m' = rawExtents m)
    (hcount : (if o = some r then 1 else 0) + m'.count (.hold r) = 1 + m.count (.hold r))
    (hin : ∀ x, .inside k x ∈ m' ∨ .moved k x ∈ m' →
      o = some x ∧ m'.count (.inside k x) + m'.count (.moved k x) = 1)
    (hlock : b = true ↔ ∃ x, .inside k x ∈ m' ∨ .moved k x ∈ m')
    (hu : a.ledger → ∀ c : ℕ → ℤ, (∀ ns, 0 ≤ c ns) →
      (∀ ns, (if o = some r ∧ k.ns = ns ∧ .moved k r ∉ m' then (r.len : ℤ) else 0) +
        (s.used ns - owed m ns) =
        (if k.ns = ns ∧ .moved k r ∉ m then (r.len : ℤ) else 0) + c ns) →
          ∀ ns, u ns = owed m' ns + c ns) :
    Inv p a
      { s with index := update s.index k o, locked := update s.locked k b, used := u } m' := by
  obtain ⟨hr, hkey⟩ := h.indexed k r hidx
  set t : Store :=
    { s with index := update s.index k o, locked := update s.locked k b, used := u } with ht
  have hb : Beside (· = r) (· = k) s t m m' := by
    refine ⟨rfl, fun _ => rfl, fun _ _ => rfl, fun k' hk => update_of_ne hk _ _, fun y hy => ?_,
      fun k' hk => update_of_ne hk _ _, fun y hy => ?_, fun k' y hy => ?_⟩
    · by_cases hk : y.key = k
      · simp only [ht, hk, update_self, hidx, Option.some.injEq, Ne.symm hy, iff_false]
        rcases ho with rfl | rfl <;> simp [Ne.symm hy]
      · simp only [ht, update_of_ne hk]
    · exact ⟨hc _ (by simp) (by simp) (by simpa using hy) (by simp),
        hc _ (by simp) (by simp) (by simp) (by simp)⟩
    · exact ⟨hc _ (by grind) (by simp) (by simp) (by simp),
        hc _ (by simp) (by grind) (by simp) (by simp)⟩
  have hkept : kept t m' = kept s m := by
    funext i
    simp only [kept, ht, mem_of_count (hc (.spent _) (by simp) (by simp) (by simp) (by simp))]
  refine h.change hb ?_ ?_ ?_ ?_ ?_ ?_ ?_ h.apart h.inArena ?_
  · rintro k' y rfl hy
    simp only [ht, update_self] at hy
    rcases ho with rfl | rfl
    · cases hy
      exact ⟨hr, hkey⟩
    · cases hy
  · rintro y (hy | ⟨rfl, -⟩)
    · exact h.minted y (.inl ((mem_of_count (hc _ (by simp) (by simp) (by simp) (by simp))).mp hy))
    · exact hr
  · rintro y rfl hy
    have := h.counted y hy
    rw [hkey, hidx, if_pos rfl] at this
    simp only [ht, hkey, update_self]
    rw [this, hcount]
  · rintro y rfl hy
    have hs := hc (.spent y) (by simp) (by simp) (by simp) (by simp)
    rw [hs]
    exact h.spent y ((mem_of_count hs).mp hy)
  · rintro k' y rfl hy
    simp only [ht, update_self]
    exact hin y hy
  · rintro k' rfl
    simp only [ht, update_self]
    exact hlock
  · rw [hraw, hkept]
    exact h.extents
  · intro hl
    refine hu hl _ (tally_accounted_nonneg _ _ · _) fun ns => ?_
    have hex := h.tally_accounted hb hr ns
    have hnew : accounted t m' ns r.id = if o = some r ∧ k.ns = ns ∧
        .moved k r ∉ m' then (r.len : ℤ) else 0 := by
      simp [accounted, ht, hr.2, hkey]
    have hwas : accounted s m ns r.id = if k.ns = ns ∧ .moved k r ∉ m then (r.len : ℤ) else 0 := by
      simp [accounted, hr.2, hkey, hidx]
    rw [← hnew, ← hwas, h.ledger hl, add_sub_cancel_left]
    exact hex

private theorem Inv.lock (h : Inv p a s f) (hk : s.locked k = false) (hi : s.index k = some r) :
    Inv p a { s with locked := update s.locked k true } ({.inside k r} + f) := by
  have hfree : ∀ x, Tok.inside k x ∉ f ∧ Tok.moved k x ∉ f := by
    intro x
    have := (h.locked k).not
    rw [hk] at this
    simp only [Bool.false_eq_true, not_false_eq_true, true_iff, not_exists, not_or] at this
    exact this x
  have : Inv p a _ ({.inside k r} + f) :=
    h.rekey (b := true) (u := s.used) hi (.inl hi) ?_ ?_ ?_ ?_ ?_ ?_
  · simpa only [update_eq_self] using this
  · intro y h1 _ _ _
    simp [h1]
  · simp [Tok.extents]
  · simp [hi]
  · intro x hx
    have hx : x = r := by simpa [hfree x] using hx
    subst hx
    refine ⟨hi, ?_⟩
    simp [count_eq_zero_of_notMem (hfree x).1, count_eq_zero_of_notMem (hfree x).2]
  · simp only [true_iff]
    exact ⟨r, by simp⟩
  · intro hl c _ hc ns
    have := hc ns
    simp only [hi, (hfree r).2, singleton_add, mem_cons, reduceCtorEq, false_or,
      not_false_eq_true, and_true, true_and] at this
    simp [Tok.owed]
    omega

theorem gate_holds (k : Key) (g : Gate) : Holds p a (.gate k g) 0 fun x m' =>
    (∀ r, x = .ok r → m' = {.inside k r} ∧ r.key = k ∧ (a.ledger → r.len = a.lenOf r.xxh3) ∧
      ∀ d, g = .demote d → r.xxh3 = d) ∧ (∀ st, x = .error st → m' = 0) := by
  intro s f h env x s' he
  rw [zero_add] at h
  simp only [exec] at he
  split at he
  · simp at he
  next hk =>
  rw [Bool.not_eq_true] at hk
  split at he
  · cases he
    exact ⟨0, by rwa [zero_add], by simp, by simp⟩
  next r hi =>
  split at he
  · next hok =>
    cases he
    obtain ⟨hm, hkey⟩ := h.indexed k r hi
    refine ⟨{.inside k r}, ?_, ?_, by simp⟩
    · cases g with
      | demote d => exact h.lock hk hi
      | _ => exact h.unpin.lock (by rwa [unpin_locked]) (by rwa [unpin_index])
    intro r' hr'
    simp only [Except.ok.injEq] at hr'
    subst hr'
    refine ⟨rfl, hkey, fun hl => ?_, fun d hd => ?_⟩
    · have := h.sized hl r.id hm.1
      rwa [hm.2] at this
    subst hd
    simp only [Gate.check, hm.2] at hok
    by_contra hne
    simp [hne] at hok
  · cases he
    exact ⟨0, by rwa [zero_add], by simp, by simp⟩

private theorem Inv.alone (h : Inv p a s (m + f)) (hx : x = .inside k r ∨ x = .moved k r)
    (hm : x ∈ m) (y : BlockRef) : Tok.inside k y ∉ f ∧ Tok.moved k y ∉ f := by
  have hin := h.inside k r (by rcases hx with rfl | rfl <;> simp [hm])
  have hone : 0 < m.count (.inside k r) + m.count (.moved k r) := by
    rcases hx with rfl | rfl
    · have := count_pos.mpr hm
      omega
    · have := count_pos.mpr hm
      omega
  rw [count_add, count_add] at hin
  constructor
  · intro hy
    have hyr := (h.inside k y (by simp [hy])).1
    rw [hin.1, Option.some.injEq] at hyr
    subst hyr
    have := count_pos.mpr hy
    omega
  · intro hy
    have hyr := (h.inside k y (by simp [hy])).1
    rw [hin.1, Option.some.injEq] at hyr
    subst hyr
    have := count_pos.mpr hy
    omega

private theorem Inv.unlink (hx : x = .inside k r ∨ x = .moved k r)
    (h : Inv p a s ({x} + f)) {n : Own} (hn : n = if x = .inside k r then owe a k.ns r.len else 0) :
    Inv p a { s with
        index := update s.index k none, locked := update s.locked k false }
      ({.hold r} + n + f) := by
  have hfree := h.alone hx (mem_singleton_self x)
  obtain ⟨hidx, -⟩ := h.inside k r (by rcases hx with rfl | rfl <;> simp)
  have hcn : ∀ {y : Tok}, (∀ ns n, y ≠ .debt ns n) → n.count y = 0 := by
    intro y hy
    rw [hn]
    split
    · exact count_owe hy
    · rfl
  have hin : ∀ y, Tok.inside k y ∉ {.hold r} + n + f ∧ Tok.moved k y ∉ {.hold r} + n + f := by
    intro y
    have h1 := hcn (y := .inside k y) (by simp)
    have h2 := hcn (y := .moved k y) (by simp)
    rw [count_eq_zero] at h1 h2
    simp [h1, h2, hfree y]
  refine h.rekey hidx (.inr rfl) ?_ ?_ ?_ ?_ ?_ ?_
  · intro y h1 h2 h3 h4
    have hyx : y ≠ x := by rcases hx with rfl | rfl <;> assumption
    simp [hyx, h3, hcn h4]
  · have h0 : rawExtents n = 0 := by
      rw [hn]
      unfold owe
      split
      · split <;> simp [Tok.extents]
      · rfl
    rcases hx with rfl | rfl <;> simp [h0, Tok.extents]
  · have := hcn (y := .hold r) (by simp)
    rcases hx with rfl | rfl <;> simp [this, add_comm]
  · intro y hy
    simp only [hin y, or_self] at hy
  · simp only [Bool.false_eq_true, hin, or_self, exists_false]
  · intro hl c _ hc ns
    have hc := hc ns
    have hwas : (if k.ns = ns ∧ .moved k r ∉ {x} + f then (r.len : ℤ) else 0) = owed n ns := by
      rw [hn]
      rcases hx with rfl | rfl
      · have : Tok.moved k r ∉ {Tok.inside k r} + f := by simp [(hfree r).2]
        simp only [this, not_false_eq_true, and_true, if_true]
        rw [owed_owe hl]
      · simp
    have hz : Tok.owed ns x = 0 := by rcases hx with rfl | rfl <;> rfl
    rw [hwas] at hc
    simp only [owed_add, owed_singleton, reduceCtorEq, false_and, if_false] at hc ⊢
    rw [hz] at hc
    simp only [Tok.owed]
    omega

theorem remove_holds (k : Key) (r : BlockRef) : Holds p a (.remove k) {.inside k r} fun _ m' =>
    m' = {.hold r} + owe a k.ns r.len := by
  intro s f h env x s' he
  cases he
  exact ⟨_, h.unlink (.inl rfl) (if_pos rfl).symm, rfl⟩

theorem remove_moved_holds (k : Key) (r : BlockRef) :
    Holds p a (.remove k) {.moved k r} fun _ m' => m' = {.hold r} := by
  intro s f h env x s' he
  cases he
  refine ⟨{.hold r}, ?_, rfl⟩
  have := h.unlink (n := 0) (.inr rfl) (by simp)
  rwa [add_zero] at this

theorem Inv.move (h : Inv p a s ({.inside k r} + f)) (hn : a.ledger → n = r.len) :
    Inv p a (s.refund k.ns n) ({.moved k r} + f) := by
  have hfree := h.alone (.inl rfl) (mem_singleton_self (Tok.inside k r))
  obtain ⟨hidx, -⟩ := h.inside k r (by simp)
  have : Inv p a _ ({.moved k r} + f) :=
    h.rekey (b := s.locked k) (u := (s.refund k.ns n).used) hidx (.inl hidx) ?_ ?_ ?_ ?_ ?_ ?_
  · rwa [update_eq_self, update_eq_self] at this
  · intro y h1 h2 _ _
    simp [h1, h2]
  · simp [Tok.extents]
  · simp [hidx]
  · intro x hx
    have hx : x = r := by simpa [hfree x] using hx
    subst hx
    refine ⟨hidx, ?_⟩
    simp [count_eq_zero_of_notMem (hfree x).1, count_eq_zero_of_notMem (hfree x).2]
  · simp only [(h.locked k).mpr ⟨r, by simp⟩, true_iff]
    exact ⟨r, by simp⟩
  · intro hl c hpos hc
    refine update_refund (fun _ => rfl) (fun ns => ?_) fun ns =>
      add_nonneg (owed_nonneg _ ns) (hpos ns)
    have := hc ns
    simp [(hfree r).2, Tok.owed] at this ⊢
    rw [hn hl]
    omega

end KVStash.Dram.Tier
