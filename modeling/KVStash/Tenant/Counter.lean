/- GID: KVStash/Tenant/Counter
   digest: Charges, refunds, seeds and transfers on one usage counter, by single atomic accesses. -/

import KVStash.Foundation.Run
import KVStash.Foundation.Table

set_option autoImplicit false

namespace KVStash.Tenant

open Foundation Foundation.Run

/-! ### The calls -/

/-- The calls on the counter of one namespace and tier. A charge comes with the limit that it loads
first, a transfer with whether its source and its destination are this tier. -/
inductive Call
  | charge (limit n : Int64)
  | refund (n : Int64)
  | seed (n : Int64)
  | transfer (src dst : Bool) (n : Int64)

inductive Pc
  -- at an addition that checks nothing, which a transfer may follow with its refund
  | add (n : Int64) (refund : Bool)
  -- Charge at the top of its loop, and with the value it loaded
  | load (limit n : Int64)
  | swap (limit n cur : Int64)
  -- Refund at its subtraction, and with the negative balance that it left
  | take (n : Int64)
  | heal (bal : Int64)
  deriving DecidableEq

/-- What a call does before its first access to the counter. -/
def Call.start : Call → Option Pc
  | .charge limit n =>
    if n ≤ 0 then none else if limit ≤ 0 then some (.add n false) else some (.load limit n)
  | .refund n => if n ≤ 0 then none else some (.take n)
  | .seed n => if n ≤ 0 then none else some (.add n false)
  | .transfer src dst n =>
    if n ≤ 0 then none else if dst then some (.add n src) else if src then some (.take n) else none

/-- What reached the counter, and what a charge was refused. -/
inductive Outcome
  | charged (n : Int64)
  | refused (n : Int64)
  | refunded (n : Int64)
  deriving DecidableEq

/-! ### The accounts -/

def bytes (n : Int64) : ℕ := n.toInt.toNat

def charged : List Outcome → ℕ
  | [] => 0
  | .charged n :: log => bytes n + charged log
  | _ :: log => charged log

def refunded : List Outcome → ℕ
  | [] => 0
  | .refunded n :: log => bytes n + refunded log
  | _ :: log => refunded log

/-- The bytes of a refund that has not reached the counter. -/
def Pc.owed : Pc → ℕ
  | .take n => bytes n
  | _ => 0

/-- The sum that a charge compares with the limit is a number of bytes that a signed word holds. -/
def Pc.fits (used : Int64) : Pc → Bool
  | .load _ n => decide (used.toInt + n.toInt < 2 ^ 63)
  | _ => true

/-- A charge or a refund in progress under a limit. -/
def Pc.Ok (limit : Int64) : Pc → Prop
  | .add _ _ | .heal _ => False
  | .load l n => l = limit ∧ 0 < n.toInt
  | .swap l n cur => l = limit ∧ 0 < n.toInt ∧ cur.toInt + n.toInt ≤ limit.toInt
  | .take n => 0 < n.toInt

/-! ### The counter -/

/-- The counter of one namespace and tier, the calls in progress by the thread that makes them, and
the outcomes so far, the latest first. -/
structure Counter where
  used : Int64
  calls : Table ℕ Pc
  log : List Outcome

namespace Counter

def new : Counter := ⟨0, ∅, []⟩

inductive Event
  | call (i : ℕ) (c : Call)
  | step (i : ℕ)

def access (s : Counter) (i : ℕ) : Pc → Counter
  | .add n refund =>
    ⟨s.used + n, if refund then s.calls.insert i (.take n) else s.calls.erase i,
      .charged n :: s.log⟩
  | .load limit n =>
    if limit < s.used + n then ⟨s.used, s.calls.erase i, .refused n :: s.log⟩
    else { s with calls := s.calls.insert i (.swap limit n s.used) }
  | .swap limit n cur =>
    if s.used = cur then ⟨cur + n, s.calls.erase i, .charged n :: s.log⟩
    else { s with calls := s.calls.insert i (.load limit n) }
  | .take n =>
    let bal := s.used + -n
    ⟨bal, if bal < 0 then s.calls.insert i (.heal bal) else s.calls.erase i, .refunded n :: s.log⟩
  | .heal bal =>
    { s with used := if s.used = bal then 0 else s.used, calls := s.calls.erase i }

def step (s : Counter) : Event → Option Counter
  | .call i c =>
    if (s.calls.lookup i).isSome then none
    else some { s with calls := c.start.elim s.calls (s.calls.insert i) }
  | .step i => (s.calls.lookup i).map (s.access i)

/-! ### Admission under a limit -/

def owed (s : Counter) : ℕ := Table.total (fun _ pc => pc.owed) s.calls

/-- Charges under one limit, and refunds that return bytes which were charged and are not yet on
their way back. The bytes in use together with those asked for are a number of bytes that a signed
word holds. -/
def Promised (limit : Int64) (s : Counter) : Event → Prop
  | .call _ (.charge l _) => l = limit
  | .call _ (.refund n) => refunded s.log + s.owed + bytes n ≤ charged s.log
  | .call _ (.seed _) | .call _ (.transfer _ _ _) => False
  | .step i => (s.calls.lookup i).all (·.fits s.used) = true

instance (limit : Int64) (s : Counter) : (e : Event) → Decidable (s.Promised limit e)
  | .call _ (.charge l _) => inferInstanceAs (Decidable (l = limit))
  | .call _ (.refund n) =>
    inferInstanceAs (Decidable (refunded s.log + s.owed + bytes n ≤ charged s.log))
  | .call _ (.seed _) | .call _ (.transfer _ _ _) => isFalse id
  | .step i => inferInstanceAs (Decidable ((s.calls.lookup i).all (·.fits s.used) = true))

structure Inv (limit : Int64) (s : Counter) : Prop where
  calls : ∀ i pc, s.calls.lookup i = some pc → pc.Ok limit
  balance : s.used.toInt = charged s.log - refunded s.log
  covered : refunded s.log + s.owed ≤ charged s.log
  le : s.used.toInt ≤ limit.toInt

section Admission

variable {limit : Int64} {s s' : Counter} {i : ℕ} {pc pc' : Pc}

private theorem toInt_add_of {a b : Int64} (hlo : -2 ^ 63 ≤ a.toInt + b.toInt)
    (hhi : a.toInt + b.toInt < 2 ^ 63) : (a + b).toInt = a.toInt + b.toInt := by
  rw [Int64.toInt_add]
  exact Int.bmod_eq_of_le (by omega) (by omega)

private theorem toInt_neg_of {n : Int64} (h : 0 < n.toInt) : (-n).toInt = -n.toInt := by
  have := n.toInt_lt
  rw [Int64.toInt_neg]
  exact Int.bmod_eq_of_le (by omega) (by omega)

private theorem bytes_eq {n : Int64} (h : 0 < n.toInt) : (bytes n : ℤ) = n.toInt :=
  Int.toNat_of_nonneg h.le

private theorem pos_of_not_le {n : Int64} (h : ¬n ≤ 0) : 0 < n.toInt := by
  rw [Int64.le_iff_toInt_le, Int64.toInt_zero, not_le] at h
  exact h

theorem Inv.nonneg (h : s.Inv limit) : 0 ≤ s.used.toInt := by
  have := h.balance
  have := h.covered
  omega

/-- One call goes on to another access, and nothing is moved. -/
private theorem Inv.goes (h : s.Inv limit) (hok : pc.Ok limit)
    (hcov : refunded s.log + Table.total (fun _ q => q.owed) (s.calls.insert i pc) ≤
      charged s.log) :
    Inv limit { s with calls := s.calls.insert i pc } where
  calls j q hq := by
    rcases Table.lookup_of_insert hq with ⟨-, rfl⟩ | hq
    · exact hok
    · exact h.calls j q hq
  balance := h.balance
  covered := hcov
  le := h.le

theorem Inv.access (h : s.Inv limit) (hi : s.calls.lookup i = some pc)
    (hp : s.Promised limit (.step i)) : (s.access i pc).Inv limit := by
  have hok := h.calls i pc hi
  have hnn := h.nonneg
  have hlimit := limit.toInt_lt
  have hle := h.le
  have hcov : _ + Table.total _ s.calls ≤ _ := h.covered
  have hbal := h.balance
  have hrest := Table.total_erase (fun _ q => Pc.owed q) hi
  have hleft : ∀ j q, (s.calls.erase i).lookup j = some q → q.Ok limit := fun j q hq =>
    h.calls j q (Table.lookup_of_erase hq)
  cases pc with
  | load l n =>
    obtain ⟨rfl, hn⟩ := hok
    have hfits : s.used.toInt + n.toInt < 2 ^ 63 := by
      rw [Promised, hi, Option.all_some] at hp
      exact of_decide_eq_true hp
    have hsum : (s.used + n).toInt = s.used.toInt + n.toInt := toInt_add_of (by omega) hfits
    rw [Counter.access]
    split
    · refine ⟨hleft, hbal, ?_, hle⟩
      show refunded s.log + Table.total _ (s.calls.erase i) ≤ charged s.log
      omega
    · rename_i hroom
      rw [Int64.lt_iff_toInt_lt, hsum, not_lt] at hroom
      refine h.goes ⟨rfl, hn, hroom⟩ ?_
      rw [Table.total_insert]
      exact hrest ▸ hcov
  | swap l n cur =>
    obtain ⟨rfl, hn, hroom⟩ := hok
    rw [Counter.access]
    split
    · rename_i hcur
      subst hcur
      have hsum : (s.used + n).toInt = s.used.toInt + n.toInt := toInt_add_of (by omega) (by omega)
      have hb := bytes_eq hn
      refine ⟨hleft, ?_, ?_, ?_⟩
      · show (s.used + n).toInt = ((bytes n + charged s.log : ℕ) : ℤ) - refunded s.log
        rw [hsum]
        omega
      · show refunded s.log + Table.total _ (s.calls.erase i) ≤ bytes n + charged s.log
        omega
      · show (s.used + n).toInt ≤ l.toInt
        omega
    · refine h.goes ⟨rfl, hn⟩ ?_
      rw [Table.total_insert]
      exact hrest ▸ hcov
  | take n =>
    have hn : 0 < n.toInt := hok
    have hb := bytes_eq hn
    have howed : bytes n + Table.total _ (s.calls.erase i) = Table.total _ s.calls := hrest
    have hneg := toInt_neg_of hn
    have hsum : (s.used + -n).toInt = s.used.toInt - n.toInt := by
      rw [toInt_add_of (by omega) (by omega)]
      omega
    have hpos : ¬s.used + -n < 0 := by
      rw [Int64.lt_iff_toInt_lt, hsum, Int64.toInt_zero]
      omega
    simp only [Counter.access, if_neg hpos]
    refine ⟨hleft, ?_, ?_, ?_⟩
    · show (s.used + -n).toInt = (charged s.log : ℤ) - (bytes n + refunded s.log : ℕ)
      omega
    · show bytes n + refunded s.log + Table.total _ (s.calls.erase i) ≤ charged s.log
      omega
    · show (s.used + -n).toInt ≤ limit.toInt
      omega
  | _ => exact hok.elim

/-- What a promised call starts with: a refund is covered before it is on its way. -/
private theorem Inv.start {c : Call} (hlimit : 0 < limit) (h : s.Inv limit)
    (hp : s.Promised limit (.call i c)) (hc : c.start = some pc) :
    pc.Ok limit ∧ refunded s.log + s.owed + pc.owed ≤ charged s.log := by
  cases c with
  | charge l n =>
    obtain rfl : l = limit := hp
    rw [Call.start] at hc
    split_ifs at hc with hn hl
    · exact absurd hlimit (Int64.not_lt.mpr hl)
    · cases hc
      exact ⟨⟨rfl, pos_of_not_le hn⟩, h.covered⟩
  | refund n =>
    rw [Call.start] at hc
    split_ifs at hc with hn
    cases hc
    exact ⟨pos_of_not_le hn, hp⟩
  | _ => exact hp.elim

theorem Inv.step (hlimit : 0 < limit) {e : Event} (h : s.Inv limit) (hp : s.Promised limit e)
    (hs : s.step e = some s') : s'.Inv limit := by
  cases e with
  | step i =>
    obtain ⟨pc, hi, rfl⟩ := Option.map_eq_some_iff.mp hs
    exact h.access hi hp
  | call i c =>
    rw [Counter.step] at hs
    split at hs
    · cases hs
    rename_i hnew
    rw [Option.not_isSome_iff_eq_none] at hnew
    obtain rfl := Option.some.inj hs
    cases hc : c.start with
    | none => exact h
    | some pc =>
      obtain ⟨hok, hcov⟩ := h.start hlimit hp hc
      refine h.goes hok ?_
      rwa [Table.total_insert_new _ hnew, Nat.add_comm pc.owed, ← Nat.add_assoc]

theorem Inv.refused (h : s.Inv limit) {n : Int64} (hs : s.step (.step i) = some s')
    (hlog : s'.log = .refused n :: s.log) :
    s.calls.lookup i = some (.load limit n) ∧ limit.toInt < s.used.toInt + n.toInt := by
  obtain ⟨pc, hi, rfl⟩ := Option.map_eq_some_iff.mp hs
  have hnn := h.nonneg
  have hok := h.calls i pc hi
  cases pc with
  | load l m =>
    obtain ⟨rfl, hm⟩ := hok
    rw [Counter.access] at hlog
    split at hlog
    · rename_i hover
      obtain rfl : m = n := Outcome.refused.inj (List.cons.inj hlog).1
      refine ⟨hi, ?_⟩
      -- a sum past the word is past the limit as well
      by_cases hfit : s.used.toInt + m.toInt < 2 ^ 63
      · rw [Int64.lt_iff_toInt_lt, toInt_add_of (by omega) hfit] at hover
        exact hover
      · have := l.toInt_lt
        omega
    · exact absurd hlog.symm (List.cons_ne_self _ _)
  | swap l m cur =>
    rw [Counter.access] at hlog
    split at hlog
    · cases (List.cons.inj hlog).1
    · exact absurd hlog.symm (List.cons_ne_self _ _)
  | take m => cases (List.cons.inj hlog).1
  | _ => exact hok.elim

end Admission

/-- Under a limit, in every interleaving of charges and refunds whose callers keep their promise:
the counter stays between zero and the limit, it is the charged bytes less the refunded ones when no
call is in progress, and a charge of `n` bytes is refused only in an instant of the call in which
they do not fit. -/
theorem quota_admission {limit : Int64} (hlimit : 0 < limit) {es : List Event} {s : Counter}
    (hrun : run step new es = some s) (hp : Along step (Promised limit) new es) :
    0 ≤ s.used.toInt ∧ s.used.toInt ≤ limit.toInt ∧
      (s.calls = ∅ → s.used.toInt = charged s.log - refunded s.log) ∧
      ∀ i n s', s.step (.step i) = some s' → s'.log = .refused n :: s.log →
        s.calls.lookup i = some (.load limit n) ∧ limit.toInt < s.used.toInt + n.toInt := by
  have hnew : new.Inv limit := by
    refine ⟨fun i pc hi => ?_, rfl, le_refl 0, ?_⟩
    · rw [new, AList.lookup_empty] at hi
      cases hi
    · exact (Int64.lt_iff_toInt_lt.mp hlimit).le
  have hinv : s.Inv limit := run_invariant (fun _ _ _ h hp hs => h.step hlimit hp hs) hnew hp hrun
  exact ⟨hinv.nonneg, hinv.le, fun _ => hinv.balance, fun i n s' hs hlog => hinv.refused hs hlog⟩

/-- Two charges that race for one limit: one of them loses its swap and is refused in the second
round. -/
def race : List Event :=
  [.call 0 (.charge 10 6), .call 1 (.charge 10 6), .step 0, .step 1, .step 0, .step 1]

theorem quota_admission_race :
    ∃ s s', run step new race = some s ∧ s.step (.step 1) = some s' ∧
      s'.log = .refused 6 :: s.log ∧ s.used.toInt ≤ (10 : Int64).toInt ∧
      (10 : Int64).toInt < s.used.toInt + (6 : Int64).toInt := by
  have hany : ∃ s ∈ run step new race, ∃ s' ∈ s.step (.step 1), s'.log = .refused 6 :: s.log := by
    decide +kernel
  obtain ⟨s, hrun, s', hstep, hlog⟩ := hany
  have hp : Along step (Promised 10) new race := by decide +kernel
  obtain ⟨-, hle, -, hrefused⟩ := quota_admission (by decide) hrun hp
  exact ⟨s, s', hrun, hstep, hlog, hle, (hrefused 1 6 s' hstep hlog).2⟩

/-- A charge of 2⁶³ - 1 bytes next to six that are in use: the sum wraps, passes for one below the
limit, and the counter is negative. -/
theorem quota_admission_wraps :
    ∃ s, run step new [.call 0 (.charge 10 6), .step 0, .step 0,
        .call 0 (.charge 10 9223372036854775807), .step 0, .step 0] = some s ∧
      s.calls = ∅ ∧ s.used.toInt < 0 ∧ s.log = [.charged 9223372036854775807, .charged 6] :=
  ⟨_, rfl, rfl, by decide, rfl⟩

/-! ### Healing -/

/-- The bytes that an access adds to the counter. -/
def addition (s : Counter) : Pc → Option Int64
  | .add n _ => some n
  | .swap _ n cur => if s.used = cur then some n else none
  | _ => none

/-- No addition leaves the balance negative: none lands in the debt that a refund has still to heal,
and none carries past the word. -/
def Lands (s : Counter) : Event → Prop
  | .call _ _ => True
  | .step i => ∀ n ∈ (s.calls.lookup i).bind s.addition, 0 ≤ s.used + n

instance (s : Counter) : (e : Event) → Decidable (s.Lands e)
  | .call _ _ => isTrue trivial
  -- named, as an enumeration of all words would decide it too
  | .step i => Option.decidableForallMem ((s.calls.lookup i).bind s.addition)

/-- The refund that left a negative balance is about to heal this very balance. -/
def Healing (s : Counter) : Prop := s.used < 0 → ∃ i, s.calls.lookup i = some (.heal s.used)

section Healing

variable {s s' : Counter} {i : ℕ} {pc : Pc}

theorem Healing.of_nonneg (h : 0 ≤ s.used) : s.Healing :=
    fun hneg => absurd hneg (Int64.not_lt.mpr h)

/-- A call other than the one that heals goes on or returns. -/
private theorem Healing.keep (h : s.Healing) (hi : s.calls.lookup i ≠ some (.heal s.used))
    (hcalls : ∀ j, j ≠ i → s'.calls.lookup j = s.calls.lookup j) (hused : s'.used = s.used) :
    s'.Healing := by
  intro hneg
  rw [hused] at hneg ⊢
  obtain ⟨j, hj⟩ := h hneg
  have hne : j ≠ i := fun heq => hi (heq ▸ hj)
  exact ⟨j, (hcalls j hne).trans hj⟩

theorem Healing.access (h : s.Healing) (hi : s.calls.lookup i = some pc) (hl : s.Lands (.step i)) :
    (s.access i pc).Healing := by
  have hadd : ∀ n, s.addition pc = some n → 0 ≤ s.used + n := by
    intro n hn
    refine hl n ?_
    rw [hi]
    exact hn
  cases pc with
  | add n refund => exact .of_nonneg (hadd n rfl)
  | load limit n =>
    have hother : s.calls.lookup i ≠ some (.heal s.used) := by rw [hi]; simp
    rw [Counter.access]
    split
    · exact h.keep hother (fun _ hj => AList.lookup_erase_ne hj) rfl
    · exact h.keep hother (fun _ hj => AList.lookup_insert_ne hj) rfl
  | swap limit n cur =>
    have hother : s.calls.lookup i ≠ some (.heal s.used) := by rw [hi]; simp
    rw [Counter.access]
    split
    · rename_i hcur
      have hnn := hadd n (if_pos hcur)
      subst hcur
      exact .of_nonneg hnn
    · exact h.keep hother (fun _ hj => AList.lookup_insert_ne hj) rfl
  | take n =>
    by_cases hneg : s.used + -n < 0
    · simp only [Counter.access, if_pos hneg]
      exact fun _ => ⟨i, AList.lookup_insert _⟩
    · exact .of_nonneg (Int64.not_lt.mp hneg)
  | heal bal =>
    rw [Counter.access]
    by_cases hbal : s.used = bal
    · rw [if_pos hbal]
      exact .of_nonneg (Int64.le_refl 0)
    -- another access moved the balance, so another refund has to heal it
    rw [if_neg hbal]
    refine h.keep ?_ (fun _ hj => AList.lookup_erase_ne hj) rfl
    rw [hi]
    exact fun heq => hbal (Pc.heal.inj (Option.some.inj heq)).symm

theorem Healing.step (h : s.Healing) {e : Event} (hl : s.Lands e) (hs : s.step e = some s') :
    s'.Healing := by
  cases e with
  | call i c =>
    rw [Counter.step] at hs
    split at hs
    · cases hs
    rename_i hnew
    rw [Option.not_isSome_iff_eq_none] at hnew
    obtain rfl := Option.some.inj hs
    cases hc : c.start with
    | none => exact h
    | some pc => exact h.keep (by rw [hnew]; simp) (fun _ hj => AList.lookup_insert_ne hj) rfl
  | step i =>
    obtain ⟨pc, hi, rfl⟩ := Option.map_eq_some_iff.mp hs
    exact h.access hi hl

end Healing

/-- In every interleaving whose additions land as they should, no negative balance is left when no
call is in progress. -/
theorem balance_heals {es : List Event} {s : Counter} (hrun : run step new es = some s)
    (hl : Along step Lands new es) (hquiet : s.calls = ∅) : 0 ≤ s.used := by
  have hnew : new.Healing := .of_nonneg (Int64.le_refl 0)
  have hheal : s.Healing := run_invariant (fun _ _ _ h hl hs => h.step hl hs) hnew hl hrun
  by_contra hneg
  obtain ⟨i, hi⟩ := hheal (Int64.not_le.mp hneg)
  rw [hquiet, AList.lookup_empty] at hi
  cases hi

/-- Two racing refunds of bytes never charged and a seed after them: the first heal is too late and
the second one heals for both. -/
theorem balance_heals_race :
    ∃ s, run step new [.call 0 (.refund 5), .call 1 (.refund 3), .step 0, .step 1, .step 0,
      .step 1, .call 0 (.seed 2), .step 0] = some s ∧ s.calls = ∅ ∧ 0 ≤ s.used := by
  refine ⟨_, rfl, rfl, ?_⟩
  have hrun : run step new [.call 0 (.refund 5), .call 1 (.refund 3), .step 0, .step 1, .step 0,
      .step 1, .call 0 (.seed 2), .step 0] = some _ := rfl
  exact balance_heals hrun (by decide +kernel) rfl

/-- A seed between the subtraction of a refund and its heal: both have returned, and the balance is
below zero. -/
theorem balance_unhealed :
    ∃ s, run step new [.call 0 (.refund 5), .call 1 (.seed 2), .step 0, .step 1, .step 0] =
      some s ∧ s.calls = ∅ ∧ s.used = -3 :=
  ⟨_, rfl, rfl, rfl⟩

end Counter

end KVStash.Tenant
