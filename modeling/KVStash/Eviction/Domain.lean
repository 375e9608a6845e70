/- GID: KVStash/Eviction/Domain
   digest: One tenant's domain of the S3-FIFO policy: its table, its two queues, and the sections
     that run under one lock. -/

import KVStash.Eviction.Policy
import KVStash.Foundation.Fifo

set_option autoImplicit false

namespace KVStash.Eviction

/-- The least capacity of a ring once a fingerprint lands in it. -/
def ghostFloor : ℕ := 1024

def ghostSetEntryBytes : Int64 := 48

/-- A bounded ring of fingerprints with its membership set. No ring is an empty one; in any other
the next position to overwrite is inside, and no more fingerprints are live than it has
positions. -/
structure GhostRing where
  ring : List UInt64
  set : Finset UInt64
  head : ℕ
  n : ℕ
  head_lt : ring ≠ [] → head < ring.length
  n_le : n ≤ ring.length

namespace GhostRing

def empty : GhostRing := ⟨[], ∅, 0, 0, fun h => absurd rfl h, le_rfl⟩

def contains (g : GhostRing) (fp : UInt64) : Bool := fp ∈ g.set

def capacity (g : GhostRing) : ℕ := g.ring.length

def bytes (g : GhostRing) :
    Int64 := Int64.ofNat g.ring.length * 8 + Int64.ofNat g.n * ghostSetEntryBytes

/-- The live fingerprints from the `start`-th oldest on. The position is taken modulo the length, so
it is inside every ring. -/
def window (g : GhostRing) (start count : ℕ) : List UInt64 :=
  (List.range count).map fun i => g.ring.getD ((g.head + start + i) % g.ring.length) 0

def rebuilt (live : List UInt64) (set : Finset UInt64) (newCap : ℕ) : GhostRing where
  ring := live ++ List.replicate (newCap - live.length) 0
  set := set
  head := 0
  n := live.length
  head_lt := List.length_pos_iff.mpr
  n_le := by
    rw [List.length_append]
    exact Nat.le_add_right _ _

def materialised (g : GhostRing) : GhostRing :=
  if g.ring = [] then rebuilt [] ∅ ghostFloor else g

theorem materialised_ne (g : GhostRing) : g.materialised.ring ≠ [] := by
  unfold materialised
  by_cases h : g.ring = []
  · rw [if_pos h]
    exact List.cons_ne_nil _ _
  · rw [if_neg h]
    exact h

def push (g : GhostRing) (fp : UInt64) : GhostRing :=
  let g' := g.materialised
  have hne : 0 < g'.ring.length := List.length_pos_iff.mpr g.materialised_ne
  if g'.contains fp then g'
  else if hfull : g'.n = g'.ring.length then
    { ring := g'.ring.set g'.head fp
      set := insert fp (g'.set.erase (g'.ring.getD g'.head 0))
      head := (g'.head + 1) % g'.ring.length
      n := g'.n
      head_lt := fun _ => by rw [List.length_set]; exact Nat.mod_lt _ hne
      n_le := by rw [List.length_set]; exact g'.n_le }
  else
    { ring := g'.ring.set ((g'.head + g'.n) % g'.ring.length) fp
      set := insert fp g'.set
      head := g'.head
      n := g'.n + 1
      head_lt := fun _ => by rw [List.length_set]; exact g'.head_lt g.materialised_ne
      n_le := by rw [List.length_set]; exact Nat.lt_of_le_of_ne g'.n_le hfull }

/-- A larger ring with the same fingerprints. -/
def grow (g : GhostRing) (newCap : ℕ) : GhostRing :=
  if newCap ≤ g.ring.length then g else rebuilt (g.window 0 g.n) g.set newCap

/-- A smaller ring with the newest fingerprints, never below the floor. -/
def shrink (g : GhostRing) (newCap : ℕ) : GhostRing :=
  let newCap := max newCap ghostFloor
  if g.ring = [] ∨ g.ring.length ≤ newCap then g
  else
    let keep := min g.n newCap
    let live := g.window (g.n - keep) keep
    rebuilt live live.toFinset newCap

end GhostRing

open Foundation

/-! ### Entries and domains -/

/-- Where an entry is; one that is published and not yet queued is in neither queue. -/
inductive Where
  | unqueued | small | main | dead
  deriving DecidableEq

structure Entry where
  key : Key
  size : Int64
  place : Where
  freq : ℕ

/-- A domain with the entries that were made for it, by the order of their making. -/
structure Domain where
  entry : ℕ → Entry
  fresh : ℕ
  table : Shards (Fin 16) Key ℕ
  links : Links ℕ
  small : Fifo ℕ
  main : Fifo ℕ
  smallBytes : Int64
  mainBytes : Int64
  mainCount : ℕ
  mainHi : ℕ
  lastDecay : Int64
  ghost : GhostRing

/-- What the domains of one policy share. A ceiling that is not positive keeps every ghost at its
floor. -/
structure Settings where
  seed : UInt64
  ghostMax : ℤ

namespace Settings

def fingerprint (p : Settings) (k : Key) : UInt64 :=
  UInt64.ofBitVec (k.hash.extractLsb' 0 64) ^^^ p.seed ^^^ (k.ns.toUInt64 * mix)

def shardIdx (p : Settings) (k : Key) : Fin 16 := shardOf p.seed k

end Settings

def climb (want c : ℕ) : ℕ := if 0 < c ∧ c < want then climb want (2 * c) else c
termination_by want - c

namespace Domain

variable (p : Settings)

def new : Domain where
  entry _ := ⟨⟨0, 0⟩, 0, .unqueued, 0⟩
  fresh := 0
  table := Shards.empty
  links := ⟨fun _ => none, fun _ => none⟩
  small := Fifo.empty
  main := Fifo.empty
  smallBytes := 0
  mainBytes := 0
  mainCount := 0
  mainHi := 0
  lastDecay := 0
  ghost := GhostRing.empty

/-! ### The ghost -/

def maybeGrowGhost (d : Domain) : Domain :=
  if p.ghostMax ≤ 0 then d
  else
    let want := min d.mainHi p.ghostMax.toNat
    if want ≤ d.ghost.capacity then d
    else { d with ghost := d.ghost.grow (min (climb want ghostFloor) p.ghostMax.toNat) }

def ghostDecayEpoch : Int64 := 60000000000

def maybeDecay (d : Domain) (now : Int64) : Domain :=
  if now = 0 then d
  else if d.lastDecay = 0 then { d with lastDecay := now }
  else if now - d.lastDecay < ghostDecayEpoch then d
  else
    let mainHi := if d.mainCount < d.mainHi
      then d.mainHi - (d.mainHi - d.mainCount) / 2 else d.mainHi
    let want := climb mainHi ghostFloor
    let want := if 0 < p.ghostMax ∧ p.ghostMax < want then p.ghostMax.toNat else want
    { d with lastDecay := now, mainHi := mainHi, ghost := d.ghost.shrink want }

/-! ### The table -/

def get (d : Domain) (k : Key) : Option ℕ := d.table.get p.shardIdx k

/-- The publication of a new entry; `none` when the key is already in the table. -/
def publish (d : Domain) (k : Key) (size : Int64) : Option (Domain × ℕ) :=
  match d.get p k with
  | some _ => none
  | none => some ({ d with
      entry := fun m => if d.fresh = m then ⟨k, size, .unqueued, 0⟩ else d.entry m
      fresh := d.fresh + 1
      table := d.table.put p.shardIdx k d.fresh }, d.fresh)

def tableDelete (d : Domain) (k : Key) : Domain := { d with table := d.table.drop p.shardIdx k }

/-! ### The queues -/

def setPlace (d : Domain) (e : ℕ) (w : Where) : Domain :=
  { d with entry := fun m => if e = m then { d.entry m with place := w } else d.entry m }

def setFreq (d : Domain) (e : ℕ) (f : ℕ) : Domain :=
  { d with entry := fun m => if e = m then { d.entry m with freq := f } else d.entry m }

def pushSmall (d : Domain) (e : ℕ) : Domain :=
  { d with links := (d.small.pushTail d.links e).1, small := (d.small.pushTail d.links e).2 }

def pushMain (d : Domain) (e : ℕ) : Domain :=
  { d with links := (d.main.pushTail d.links e).1, main := (d.main.pushTail d.links e).2 }

def toSmall (d : Domain) (e : ℕ) : Domain :=
  let d := (d.setPlace e .small).pushSmall e
  { d with smallBytes := d.smallBytes + (d.entry e).size }

def toMain (d : Domain) (e : ℕ) : Domain :=
  let d := (d.setPlace e .main).pushMain e
  let d := { d with mainBytes := d.mainBytes + (d.entry e).size, mainCount := d.mainCount + 1 }
  if d.mainHi < d.mainCount then maybeGrowGhost p { d with mainHi := d.mainCount } else d

/-- The queue step of an admission. An entry that a removal has already marked dead is dropped. -/
def enqueue (d : Domain) (e : ℕ) (now : Int64) : Domain :=
  let d := d.maybeDecay p now
  if (d.entry e).place = .dead then d
  else if d.ghost.contains (p.fingerprint (d.entry e).key) then d.toMain p e
  else d.toSmall e

def dequeue (d : Domain) (e : ℕ) : Domain :=
  let size := (d.entry e).size
  let d := match (d.entry e).place with
    | .small => { d with
        links := (d.small.unlink d.links e).1, small := (d.small.unlink d.links e).2
        smallBytes := d.smallBytes - size }
    | .main => { d with
        links := (d.main.unlink d.links e).1, main := (d.main.unlink d.links e).2
        mainBytes := d.mainBytes - size, mainCount := d.mainCount - 1 }
    | .unqueued | .dead => d
  d.setPlace e .dead

/-! ### The scan for victims -/

/-- What one visit of the scan comes to: nothing is queued, an entry has moved, or one has left the
queues and its table entry is still to be deleted. -/
inductive Visit
  | dry
  | moved (d : Domain)
  | expel (d : Domain) (e : ℕ)

/-- The queue that the next visit takes from: small while it holds more than a tenth of the bytes,
and never an empty one. -/
def fromSmall (d : Domain) : Bool :=
  let small : Bool := (d.smallBytes + d.mainBytes) / 10 < d.smallBytes
  let small := if small ∧ d.small.count = 0 then false else small
  if ¬small ∧ d.main.count = 0 then true else small

def visitSmall (d : Domain) : Option Visit :=
  (d.small.popHead d.links).map fun x =>
    let e := x.1
    let d :=
      { d with links := x.2.1, small := x.2.2, smallBytes := d.smallBytes - (d.entry e).size }
    if 1 < (d.entry e).freq then .moved (d.toMain p e)
    else
      let d := { d with ghost := d.ghost.push (p.fingerprint (d.entry e).key) }
      .expel (d.setPlace e .dead) e

def visitMain (d : Domain) : Option Visit :=
  (d.main.popHead d.links).map fun x =>
    let e := x.1
    let d := { d with links := x.2.1, main := x.2.2 }
    if 0 < (d.entry e).freq then .moved ((d.setFreq e ((d.entry e).freq - 1)).pushMain e)
    else
      let d := { d with mainBytes := d.mainBytes - (d.entry e).size, mainCount := d.mainCount - 1 }
      .expel (d.setPlace e .dead) e

/-- One visit; a pop from an empty queue panics. -/
def visit (d : Domain) : Option Visit :=
  if d.small.count = 0 ∧ d.main.count = 0 then some .dry
  else if d.fromSmall then d.visitSmall p else d.visitMain

def budget (d : Domain) : ℕ := 6 * (d.small.count + d.main.count) + 8

def candidate (d : Domain) (e : ℕ) : Candidate := ⟨(d.entry e).key, (d.entry e).size⟩

end Domain

end KVStash.Eviction
