/- GID: KVStash/Foundation/Fifo
   digest: Intrusive first-in first-out queues threaded through one heap of links, as lists. -/

import KVStash.Foundation.LinkedSegment

set_option autoImplicit false

namespace KVStash.Foundation

open LinkedSegment List

variable {N : Type} [DecidableEq N]

/-- The two links of every node. -/
structure Links (N : Type) where
  prev : N → Option N
  next : N → Option N

namespace Links

def setPrev (h : Links N) (n : N) (p : Option N) : Links N :=
  { h with prev := fun m => if n = m then p else h.prev m }

def setNext (h : Links N) (n : N) (p : Option N) : Links N :=
  { h with next := fun m => if n = m then p else h.next m }

def set (h : Links N) (n : N) (p q : Option N) : Links N := (h.setPrev n p).setNext n q

end Links

/-- A queue: its ends and its length. -/
structure Fifo (N : Type) where
  head : Option N
  tail : Option N
  count : ℕ

namespace Fifo

def empty : Fifo N := ⟨none, none, 0⟩

def pushTail (h : Links N) (q : Fifo N) (e : N) : Links N × Fifo N :=
  let h := h.set e q.tail none
  match q.tail with
  | some t => (h.setNext t (some e), ⟨q.head, some e, q.count + 1⟩)
  | none => (h, ⟨some e, some e, q.count + 1⟩)

/-- The oldest node; `none` is an empty queue, which has none to take. -/
def popHead (h : Links N) (q : Fifo N) : Option (N × Links N × Fifo N) :=
  q.head.map fun e =>
    match h.next e with
    | some x => (e, (h.setPrev x none).set e none none, ⟨some x, q.tail, q.count - 1⟩)
    | none => (e, h.set e none none, ⟨none, none, q.count - 1⟩)

def unlink (h : Links N) (q : Fifo N) (e : N) : Links N × Fifo N :=
  let hp := match h.prev e with
    | some p => (h.setNext p (h.next e), q.head)
    | none => (h, h.next e)
  let hn := match hp.1.next e with
    | some x => (hp.1.setPrev x (hp.1.prev e), q.tail)
    | none => (hp.1, hp.1.prev e)
  (hn.1.set e none none, ⟨hp.2, hn.2, q.count - 1⟩)

/-- The queue holds the nodes of a list, the oldest first. -/
structure Holds (h : Links N) (q : Fifo N) (l : List N) : Prop where
  linked : Linked h.next h.prev none l none
  nodup : l.Nodup
  head : q.head = first l none
  tail : q.tail = final none l
  count : q.count = l.length

/-- Two heaps with the same links outside a set of nodes. -/
def SameOutside (P : N → Prop) (h h' : Links N) : Prop :=
  ∀ n, ¬P n → h'.prev n = h.prev n ∧ h'.next n = h.next n

section Holds

variable {h h' : Links N} {q : Fifo N} {l r : List N} {e : N}

omit [DecidableEq N] in
theorem holds_empty (h : Links N) : Holds h (empty : Fifo N) [] :=
  ⟨trivial, nodup_nil, rfl, rfl, rfl⟩

omit [DecidableEq N] in
theorem Holds.frame {P : N → Prop} (hq : Holds h q l) (hsame : SameOutside P h h')
    (hout : ∀ n ∈ l, ¬P n) : Holds h' q l where
  linked := hq.linked.congr (fun n hn => (hsame n (hout n hn)).2) fun n hn =>
    (hsame n (hout n hn)).1
  nodup := hq.nodup
  head := hq.head
  tail := hq.tail
  count := hq.count

omit [DecidableEq N] in
private theorem final_some (a : N) (l : List N) : ∃ t, final (some a) l = some t := by
  induction l generalizing a with
  | nil => exact ⟨a, rfl⟩
  | cons b l ih => exact ih b

theorem Holds.pushTail (hq : Holds h q l) (he : e ∉ l) :
    Holds (Fifo.pushTail h q e).1 (Fifo.pushTail h q e).2 (l ++ [e]) ∧
      SameOutside (fun n => n ∈ l ∨ n = e) h (Fifo.pushTail h q e).1 := by
  have hprev : ∀ n, (Fifo.pushTail h q e).1.prev n = if e = n then final none l else h.prev n := by
    intro n
    unfold Fifo.pushTail
    rw [← hq.tail]
    cases q.tail <;> rfl
  have hnext : ∀ n, (Fifo.pushTail h q e).1.next n =
      if final none l = some n then some e else if e = n then none else h.next n := by
    intro n
    unfold Fifo.pushTail
    rw [← hq.tail]
    cases q.tail with
    | none => rw [if_neg (by simp)]; rfl
    | some t => simp only [Option.some.injEq]; rfl
  have hne : ∀ n ∈ l, e ≠ n := fun n hn heq => he (heq ▸ hn)
  refine ⟨⟨?_, ?_, ?_, ?_, ?_⟩, ?_⟩
  · refine Linked.insert (l := l) (r := []) (by rw [append_nil]; exact hq.linked)
      (by rw [append_nil]; exact hq.nodup) ?_ ?_ ?_ ?_
    · rw [hprev, if_pos rfl]
    · rw [hnext, if_pos rfl, if_neg fun hf => he (mem_of_final_none hf)]
      rfl
    · intro n hn
      rw [append_nil] at hn
      rw [hnext, if_neg (hne n hn)]
    · intro n hn
      rw [append_nil] at hn
      rw [hprev, if_neg (hne n hn), first_nil, if_neg (by simp)]
  · rw [nodup_append]
    refine ⟨hq.nodup, nodup_singleton e, fun a ha b hb => ?_⟩
    rw [mem_singleton.mp hb]
    exact fun heq => he (heq ▸ ha)
  · unfold Fifo.pushTail
    rw [hq.tail, first_append]
    cases l with
    | nil => rfl
    | cons a l =>
      have hhead : q.head = some a := hq.head
      rw [final_cons]
      obtain ⟨t, ht⟩ := final_some a l
      rw [ht]
      exact hhead
  · unfold Fifo.pushTail
    rw [final_concat]
    cases q.tail <;> rfl
  · unfold Fifo.pushTail
    rw [length_append, length_singleton, ← hq.count]
    cases q.tail <;> rfl
  · intro n hn
    rw [not_or] at hn
    have hen : e ≠ n := Ne.symm hn.2
    rw [hprev, hnext, if_neg hen, if_neg (fun hf => hn.1 (mem_of_final_none hf)), if_neg hen]
    exact ⟨rfl, rfl⟩

private theorem holds_delete {h' : Links N} {q' : Fifo N} (hq : Holds h q (l ++ e :: r))
    (hprev : ∀ n, n ≠ e → h'.prev n = if first r none = some n then final none l else h.prev n)
    (hnext : ∀ n, n ≠ e → h'.next n = if final none l = some n then first r none else h.next n)
    (hhead : q'.head = first (l ++ r) none) (htail : q'.tail = final none (l ++ r))
    (hcount : q'.count = q.count - 1) :
    Holds h' q' (l ++ r) ∧ SameOutside (· ∈ l ++ e :: r) h h' := by
  have hsub : (l ++ r).Sublist (l ++ e :: r) := List.Sublist.append_left (sublist_cons_self e r) l
  have hne : ∀ n ∈ l ++ r, n ≠ e := by
    rintro n hn rfl
    obtain ⟨-, hr, hlr⟩ := nodup_append.mp hq.nodup
    rcases mem_append.mp hn with hn | hn
    · exact hlr n hn n mem_cons_self rfl
    · exact (nodup_cons.mp hr).1 hn
  refine ⟨⟨?_, hq.nodup.sublist hsub, hhead, htail, ?_⟩, ?_⟩
  · exact hq.linked.delete hq.nodup (fun n hn => hnext n (hne n hn)) fun n hn => hprev n (hne n hn)
  · rw [hcount, hq.count, length_append, length_append, length_cons]
    omega
  intro n hn
  have hnl : n ∉ l := fun hm => hn (mem_append_left _ hm)
  have hnr : n ∉ r := fun hm => hn (mem_append_right _ (mem_cons_of_mem e hm))
  have hnotE : n ≠ e := by
    rintro rfl
    exact hn (mem_append_right _ mem_cons_self)
  rw [hprev n hnotE, hnext n hnotE, if_neg (fun hf => hnr (mem_of_first_none hf)),
    if_neg (fun hf => hnl (mem_of_final_none hf))]
  exact ⟨rfl, rfl⟩

theorem Holds.popHead (hq : Holds h q (e :: r)) :
    ∃ h' q', Fifo.popHead h q = some (e, h', q') ∧ Holds h' q' r ∧ SameOutside
      (· ∈ e :: r) h h' := by
  have hhead : q.head = some e := hq.head
  have hnext : h.next e = first r none := hq.linked.2.1
  unfold Fifo.popHead
  rw [hhead, Option.map_some, hnext]
  cases r with
  | nil =>
    refine ⟨_, _, rfl, holds_delete (l := []) hq ?_ ?_ rfl rfl rfl⟩
    · intro n hn
      rw [first_nil, if_neg (by simp)]
      exact if_neg (Ne.symm hn)
    · intro n hn
      rw [final_nil, if_neg (by simp)]
      exact if_neg (Ne.symm hn)
  | cons x r =>
    have htail : q.tail = final none ([] ++ x :: r) := hq.tail
    refine ⟨_, _, rfl, holds_delete (l := []) hq ?_ ?_ rfl htail rfl⟩
    · intro n hn
      show (if e = n then none else if x = n then none else h.prev n) = _
      rw [if_neg (Ne.symm hn), first_cons]
      simp only [Option.some.injEq]
      rfl
    · intro n hn
      rw [final_nil, if_neg (by simp)]
      exact if_neg (Ne.symm hn)

theorem Holds.unlink (hq : Holds h q (l ++ e :: r)) :
    Holds (Fifo.unlink h q e).1 (Fifo.unlink h q e).2 (l ++ r) ∧
      SameOutside (· ∈ l ++ e :: r) h (Fifo.unlink h q e).1 := by
  obtain ⟨-, hlr⟩ := linked_append.mp hq.linked
  have hp : h.prev e = final none l := hlr.1
  have hn : h.next e = first r none := hlr.2.1
  have hout : ∀ n, final none l = some n → n ≠ e := by
    rintro n hf rfl
    exact (nodup_append.mp hq.nodup).2.2 n (mem_of_final_none hf) n mem_cons_self rfl
  have hhead : q.head = first l (some e) := by
    rw [hq.head, first_append]
    rfl
  have htail : q.tail = final (some e) r := by
    rw [hq.tail, final_append]
    rfl
  have hends : (if final none l = none then first r none else q.head) = first (l ++ r) none ∧
      (if first r none = none then final none l else q.tail) = final none (l ++ r) := by
    rw [hhead, htail, first_append, final_append]
    constructor
    · cases l with
      | nil => rfl
      | cons a l =>
        obtain ⟨t, ht⟩ := final_some a l
        rw [final_cons, ht]
        rfl
    · cases r <;> rfl
  have hlinks : ∀ n, n ≠ e →
      (Fifo.unlink h q e).1.prev n = (if first r none = some n then final none l else h.prev n) ∧
        (Fifo.unlink h q e).1.next n = if final none l = some n then first r none
          else h.next n := by
    intro n hne
    have hen : e ≠ n := Ne.symm hne
    cases hf : final none l with
    | none =>
      cases hr : first r none
        <;> simp [Fifo.unlink, Links.set, Links.setPrev, Links.setNext, hp, hn, hf, hr, hen]
    | some p =>
      -- the node before `e` is another one, so `e` still points to the node behind it
      have hpe := hout p hf
      cases hr : first r none
        <;> simp [Fifo.unlink, Links.set, Links.setPrev, Links.setNext, hp, hn, hf, hr, hen, hpe]
  have hq' : (Fifo.unlink h q e).2 = ⟨if final none l = none then first r none else q.head,
      if first r none = none then final none l else q.tail, q.count - 1⟩ := by
    cases hf : final none l with
    | none =>
      cases hr : first r none <;> simp [Fifo.unlink, hp, hn, hf, hr]
    | some p =>
      have hpe := hout p hf
      cases hr : first r none <;> simp [Fifo.unlink, Links.setNext, hp, hn, hf, hr, hpe]
  refine holds_delete hq (fun n hne => (hlinks n hne).1) (fun n hne => (hlinks n hne).2) ?_ ?_ ?_
  · rw [hq']
    exact hends.1
  · rw [hq']
    exact hends.2
  · rw [hq']

end Holds

end Fifo

end KVStash.Foundation
