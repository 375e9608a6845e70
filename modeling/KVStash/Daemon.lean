/- GID: KVStash/Daemon
   digest: Runs of the daemon over persistent volume directories, and what the next run finds of
     them. -/

import KVStash.Config
import KVStash.Nvme.Restart
import KVStash.Wire.Body
import Mathlib.Data.List.TakeWhile

set_option autoImplicit false

namespace KVStash

open Foundation Foundation.Bytes Foundation.Run Nvme Wire AppendReq Lifetime Option List

/-! ### The volumes of a configuration -/

namespace Config

/-- What `OpenVolume` takes from the configuration; `none` is its refusal. -/
def volumeParams (c : Config) : Option Params :=
  let maxBlobLen := if c.maxBlobLen = 0 then 33554432 else c.maxBlobLen
  if h : minSegmentBytes maxBlobLen ≤ c.nvmeSegmentBytes.toNat ∧
      c.nvmeSegmentBytes.toNat % recordAlign = 0 ∧ c.nvmeSegmentBytes.toNat < 2 ^ 32 - 1 then
    some
      { segmentBytes := c.nvmeSegmentBytes.toNat
        maxBlobLen := maxBlobLen
        syncEveryBytes := if c.nvmeSyncEveryBytes ≤ 0 then 8388608 else c.nvmeSyncEveryBytes.toNat
        ckptEverySegs := c.nvmeCkptEverySegments.toNat
        readWorkers := if c.nvmeReadWorkers ≤ 0 then 16 else c.nvmeReadWorkers.toNat
        min_le := h.1
        aligned := h.2.1
        lt := h.2.2 }
  else none

variable {std : Std} {c : Config}

private theorem nvmeErrors_of_validate (h : validate std c = []) : nvmeErrors std c = [] := by
  simp only [validate, append_eq_nil_iff] at h
  exact h.2

private theorem nodup_of_pathErrors {paths seen : List String}
    (h : pathErrors std paths seen = []) :
    (paths.map std.clean).Nodup ∧ ∀ p ∈ paths.map std.clean, p ∉ seen := by
  induction paths generalizing seen with
  | nil => simp
  | cons p ps ih =>
    simp only [pathErrors, append_eq_nil_iff, check_eq_nil, Bool.not_eq_true',
      contains_eq_mem, decide_eq_false_iff_not] at h
    obtain ⟨hnodup, hout⟩ := ih h.2
    refine ⟨nodup_cons.mpr ⟨fun hp => hout _ hp mem_cons_self, hnodup⟩, ?_⟩
    intro q hq
    rcases mem_cons.mp hq with rfl | hq
    · exact h.1.2
    · exact fun hseen => hout q hq (mem_cons_of_mem _ hseen)

theorem nodup_of_validate (h : validate std c = []) : (c.nvmePaths.map std.clean).Nodup := by
  have hn := nvmeErrors_of_validate h
  by_cases hne : c.nvmePaths = []
  · rw [hne]
    exact nodup_nil
  · rw [nvmeErrors, if_neg hne] at hn
    simp only [append_eq_nil_iff] at hn
    exact (nodup_of_pathErrors hn.1.1.1.1.1.1.1.1.1).1

end Config

namespace Daemon

/-! ### The store after recovery -/

/-- `volumeFor`: the first eight bytes of the key, as a number, modulo the number of volumes. -/
def volumeFor (n : ℕ) (key : BlockKey) : ℕ := leAt (encodeKey key) 0 8 % n

structure NvmeRef where
  loc : Loc
  len : UInt32
  xxh3 : UInt64
  deriving DecidableEq, Repr

structure Store where
  params : Params
  vols : List Lifetime
  idx : UInt32 × BlockKey → Option NvmeRef

def putRecovered (idx : UInt32 × BlockKey → Option NvmeRef) (e : RecoveredEntry) :
    UInt32 × BlockKey → Option NvmeRef :=
  Function.update idx (e.ns, e.key) (some ⟨e.loc, e.loc.len, e.xxh3⟩)

def newTiered (p : Params) (vols : List Lifetime) (recovered : List (List RecoveredEntry)) :
    Store where
  params := p
  vols := vols
  idx := recovered.foldl (fun idx ents => ents.foldl putRecovered idx) fun _ => none

/-- The loop over the keys; the count stops at the first miss, the bitmap goes on. -/
def existsLoop (hit : BlockKey → Bool) (withBitmap : Bool) :
    List BlockKey → Bool → ℕ → List Status → ℕ × List Status
  | [], _, n, perKey => (n, perKey)
  | key :: keys, counting, n, perKey =>
    let perKey :=
  if withBitmap then perKey ++ [if hit key then Status.ok else Status.notFound] else perKey
    if hit key && counting then existsLoop hit withBitmap keys true (n + 1) perKey
    else existsLoop hit withBitmap keys false n perKey

namespace Store

def existsPrefix (t : Store) (ns : UInt32) (keys : List BlockKey) (withBitmap : Bool) :
    ℕ × List Status :=
  existsLoop (fun key => (t.idx (ns, key)).isSome) withBitmap keys true 0 []

/-- The answer to an EXISTS says that the key at place `i` is present: the counted keys reach past
it, or its own status says so. -/
def Reports (answer : ℕ × List Status) (i : ℕ) : Prop :=
  i < answer.1 ∨ answer.2[i]? = some Status.ok

/-- A GET: the index names the place in a volume, the key names the volume. -/
def get (dg : Digests) (t : Store) (ns : UInt32) (key : BlockKey) : Option (List UInt8) :=
  (t.idx (ns, key)).bind fun ref => (t.vols[volumeFor t.vols.length key]?).bind fun v =>
    v.read dg t.params ref.loc ns key ref.xxh3

end Store

private theorem existsLoop_eq (hit : BlockKey → Bool) (withBitmap : Bool) (keys : List BlockKey)
    (counting : Bool) (n : ℕ) (perKey : List Status) :
    existsLoop hit withBitmap keys counting n perKey =
      (n + if counting then (keys.takeWhile hit).length else 0,
        perKey ++ if withBitmap then keys.map fun k => if hit k then Status.ok else Status.notFound
          else []) := by
  induction keys generalizing counting n perKey with
  | nil => simp [existsLoop]
  | cons k keys ih =>
    rw [existsLoop, ih, ih]
    cases withBitmap <;> cases hk : hit k <;> cases counting <;>
      simp [hk, Nat.add_assoc, Nat.add_comm 1]

variable {i n : ℕ} {keys paths : List String} {v v' : Lifetime}

theorem Store.idx_of_reports {t : Store} {ns : UInt32} {keys : List BlockKey} {withBitmap : Bool}
    {key : BlockKey} (hkey : keys[i]? = some key)
    (h : Reports (t.existsPrefix ns keys withBitmap) i) : ∃ ref, t.idx (ns, key) = some ref := by
  rw [← isSome_iff_exists]
  rw [Store.existsPrefix, existsLoop_eq] at h
  rcases h with h | h
  · simp only [if_true, Nat.zero_add] at h
    obtain ⟨rest, hrest⟩ := takeWhile_prefix (l := keys) fun key => (t.idx (ns, key)).isSome
    rw [← hrest, getElem?_append_left h] at hkey
    exact mem_takeWhile_imp (p := fun key => (t.idx (ns, key)).isSome) (mem_of_getElem? hkey)
  cases withBitmap with
  | false => simp at h
  | true =>
    simp only [if_true, nil_append, getElem?_map, hkey, map_some, some.injEq] at h
    by_contra hmiss
    rw [if_neg hmiss] at h
    exact absurd h (by decide)

theorem Store.recovered_of_idx {p : Params} {vols : List Lifetime}
    {recovered : List (List RecoveredEntry)} {ns : UInt32} {key : BlockKey} {ref : NvmeRef}
    (h : (newTiered p vols recovered).idx (ns, key) = some ref) :
    ∃ (i : ℕ) (ents : List RecoveredEntry), recovered[i]? = some ents ∧
      ∃ e ∈ ents, e.ns = ns ∧ e.key = key ∧ ref = ⟨e.loc, e.loc.len, e.xxh3⟩ := by
  have hput : ∀ (l : List RecoveredEntry) (idx : UInt32 × BlockKey → Option NvmeRef),
      l.foldl putRecovered idx (ns, key) = some ref → idx (ns, key) = some ref ∨
        ∃ e ∈ l, e.ns = ns ∧ e.key = key ∧ ref = ⟨e.loc, e.loc.len, e.xxh3⟩ := by
    intro l
    induction l with
    | nil => exact fun idx h => .inl h
    | cons e l ih =>
      intro idx h
      rcases ih _ h with h | ⟨e', he', hsame⟩
      · by_cases hk : (ns, key) = (e.ns, e.key)
        · obtain ⟨rfl, rfl⟩ := Prod.mk.inj hk
          rw [putRecovered, Function.update_self] at h
          exact .inr ⟨e, mem_cons_self, rfl, rfl, (some.inj h).symm⟩
        · rw [putRecovered, Function.update_of_ne hk] at h
          exact .inl h
      · exact .inr ⟨e', mem_cons_of_mem _ he', hsame⟩
  rw [newTiered, ← foldl_flatten] at h
  rcases hput _ _ h with h | ⟨e, he, hsame⟩
  · cases h
  · obtain ⟨ents, hents, he⟩ := mem_flatten.mp he
    obtain ⟨i, hi⟩ := mem_iff_getElem?.mp hents
    exact ⟨i, ents, hi, e, he, hsame⟩

/-! ### Runs of the daemon -/

def appends : Lifetime.Op → List AppendReq
  | .flush rs => rs
  | _ => []

structure Running where
  vols : List Lifetime
  appended : List AppendReq

/-- One operation on one of the volumes. The demoter hands each block with its digest to the volume
of its key. -/
def Running.step (dg : Digests) (p : Params) (n : ℕ) (s : Running) :
    ℕ × Lifetime.Op → Option Running
  | (i, op) =>
    if ∀ r ∈ appends op, volumeFor n r.key = i ∧ dg.xxh3 r.data = r.xxh3 then
      (s.vols[i]?).bind fun v => (v.exec dg p op).map fun v' =>
        ⟨s.vols.set i v', s.appended ++ appends op⟩
    else none

/-- One run of the daemon: its configuration, the segments whose seal succeeds during recovery, how
many volumes it has opened when it ends, and what it does with them. -/
structure DaemonRun where
  cfg : Config
  sealOk : ℕ → UInt32 → Bool
  opened : ℕ
  steps : List (ℕ × Lifetime.Op)

/-- What outlives a run: the directories by their normal form, the list of the last run, and the
records appended so far. -/
structure World where
  disk : String → Dir
  paths : List String
  appended : List AppendReq

namespace World

def empty : World := ⟨fun _ => .blank, [], []⟩

variable (std : Config.Std) (dg : Digests)

/-- The daemon comes up: an accepted configuration whose list is the last one, perhaps extended at
its end; every volume opened and its entries merged into the index. -/
def start (w : World) (cfg : Config) (sealOk : ℕ → UInt32 → Bool) : Option Store :=
  if cfg.validate std = [] ∧ w.paths <+: cfg.nvmePaths then
    cfg.volumeParams.map fun p =>
      newTiered p
        (cfg.nvmePaths.mapIdx fun i path => openVolume dg p (sealOk i) (w.disk (std.clean path)))
        (cfg.nvmePaths.mapIdx fun i path =>
          (recoverDir dg p (sealOk i) (w.disk (std.clean path))).entries)
  else none

/-- One run: it opens some or all of its volumes, works on them and ends. -/
def step (w : World) (r : DaemonRun) : Option World :=
  (w.start std dg r.cfg r.sealOk).bind fun t =>
    (run (Running.step dg t.params t.vols.length) ⟨t.vols.take r.opened, w.appended⟩ r.steps).map
      fun s =>
      { disk := fun path =>
          (((r.cfg.nvmePaths.map std.clean).zip s.vols).lookup path).elim (w.disk path) dir
        paths := r.cfg.nvmePaths
        appended := s.appended }

end World

/-! ### What a run keeps -/

def own (dg : Digests) (appended : List AppendReq) (n i : ℕ) (r : AppendReq) : Prop :=
  r ∈ appended ∧ volumeFor n r.key = i ∧ r.Admitted dg

/-- The operation appends no block of the namespace whose id spells the magic of a record, and no
number of the volume wraps. -/
def Running.Calm (s : Running) (e : ℕ × Lifetime.Op) : Prop :=
  ∀ v, s.vols[e.1]? = some v → e.2.Allowed (fun r => r.ns.toNat ≠ recordMagic) v

def Running.Sound (dg : Digests) (p : Params) (n : ℕ) (s : Running) : Prop :=
  ∀ (i : ℕ) v, s.vols[i]? = some v → v.Sound (own dg s.appended n i) dg p

section Running

variable {dg : Digests} {p : Params} {n : ℕ} {s s' : Running} {e : ℕ × Lifetime.Op}

private theorem allowed_of_appends {P Q : AppendReq → Prop} {op : Lifetime.Op}
    (h : op.Allowed P v) (hown : ∀ r ∈ appends op, P r → Q r) : op.Allowed Q v := by
  cases op with
  | flush rs => exact fun r hr => hown r hr (h r hr)
  | _ => exact h

private theorem fits_of_exec {op : Lifetime.Op} (hx : v.exec dg p op = some v') :
    ∀ r ∈ appends op, r.Fits anyLen := by
  cases op with
  | flush rs => exact fun r hr => (fits_of_flush hx r hr).any
  | _ => exact fun r hr => nomatch hr

private theorem own_append {A B : List AppendReq} (r : AppendReq) (h : own dg A n i r) :
    own dg (A ++ B) n i r := ⟨mem_append_left _ h.1, h.2⟩

theorem Running.Sound.step (h : s.Sound dg p n) (hc : s.Calm e)
    (hs : Running.step dg p n s e = some s') : s'.Sound dg p n := by
  obtain ⟨i, op⟩ := e
  rw [Running.step] at hs
  split at hs
  · rename_i hroute
    obtain ⟨v, hv, hs⟩ := bind_eq_some_iff.mp hs
    obtain ⟨v', hx, rfl⟩ := map_eq_some_iff.mp hs
    intro j u hu
    rw [getElem?_set] at hu
    split at hu
    · rename_i hij
      subst hij
      split at hu
      · obtain rfl := some.inj hu
        refine ((h i v hv).mono own_append).exec ?_ hx
        refine allowed_of_appends (hc v hv) fun r hr hplain => ?_
        obtain ⟨hplace, hsum⟩ := hroute r hr
        exact ⟨mem_append_right _ hr, hplace, fits_of_exec hx r hr, hsum, hplain⟩
      · cases hu
    · exact (h j u hu).mono own_append
  · cases hs

theorem Running.appended_step (hs : Running.step dg p n s e = some s') :
    s.appended ⊆ s'.appended := by
  obtain ⟨i, op⟩ := e
  rw [Running.step] at hs
  split at hs
  · obtain ⟨v, -, hs⟩ := bind_eq_some_iff.mp hs
    obtain ⟨v', -, rfl⟩ := map_eq_some_iff.mp hs
    exact subset_append_left _ _
  · cases hs

end Running

namespace World

/-- Every record appended so far keeps its volume under the list of the next run. -/
def KeepsPlaces (w : World) (cfg : Config) : Prop :=
  ∀ r ∈ w.appended, volumeFor cfg.nvmePaths.length r.key = volumeFor w.paths.length r.key

/-- A run that keeps the places of the records before it, and in which no number wraps and no block
of the namespace whose id spells the magic of a record is appended. -/
structure Calm (std : Config.Std) (dg : Digests) (w : World) (r : DaemonRun) : Prop where
  places : w.KeepsPlaces r.cfg
  ids : ∀ t, w.start std dg r.cfg r.sealOk = some t → ∀ v ∈ t.vols, v.nextID ≠ 0
  steps : ∀ t, w.start std dg r.cfg r.sealOk = some t →
    Along (Running.step dg t.params t.vols.length) Running.Calm ⟨t.vols.take r.opened,
      w.appended⟩ r.steps

/-- Every directory holds records of its own place in the list, and a directory outside the list
holds nothing. -/
structure Sound (std : Config.Std) (dg : Digests) (w : World) : Prop where
  dirs : ∀ (i : ℕ) path, w.paths[i]? = some path →
    (w.disk (std.clean path)).Sound (own dg w.appended w.paths.length i) dg
  blank : ∀ path, path ∉ w.paths.map std.clean → w.disk path = empty.disk path

section Step

variable {std : Config.Std} {dg : Digests} {w w' : World} {cfg : Config}
  {sealOk : ℕ → UInt32 → Bool} {t : Store}

private theorem sound_blank (own : AppendReq → Prop) (path : String) :
    (empty.disk path).Sound own dg :=
  Dir.sound_of_no_file own dg rfl fun _ hck => nomatch hck

theorem start_eq_some (h : w.start std dg cfg sealOk = some t) :
    cfg.validate std = [] ∧ w.paths <+: cfg.nvmePaths ∧ ∃ p, t = newTiered p
      (cfg.nvmePaths.mapIdx fun i path => openVolume dg p (sealOk i) (w.disk (std.clean path)))
      (cfg.nvmePaths.mapIdx fun i path =>
        (recoverDir dg p (sealOk i) (w.disk (std.clean path))).entries) := by
  rw [start] at h
  split at h
  · rename_i hguard
    obtain ⟨p, -, rfl⟩ := map_eq_some_iff.mp h
    exact ⟨hguard.1, hguard.2, p, rfl⟩
  · cases h

theorem Sound.next (h : w.Sound std dg) (hvalid : cfg.validate std = [])
    (hpre : w.paths <+: cfg.nvmePaths) (hplaces : w.KeepsPlaces cfg) {path : String}
    (hi : cfg.nvmePaths[i]? = some path) :
    (w.disk (std.clean path)).Sound (own dg w.appended cfg.nvmePaths.length i) dg := by
  obtain ⟨rest, hrest⟩ := hpre
  by_cases hlt : i < w.paths.length
  · rw [← hrest, getElem?_append_left hlt] at hi
    refine (h.dirs i path hi).mono fun r hr => ⟨hr.1, ?_, hr.2.2⟩
    rw [hplaces r hr.1]
    exact hr.2.1
  -- a directory that the list did not have is new
  have hnew : std.clean path ∉ w.paths.map std.clean := by
    intro hmem
    obtain ⟨j, hj⟩ := mem_iff_getElem?.mp hmem
    have hjlt : j < w.paths.length := by
      have hjlt := (List.getElem?_eq_some_iff.mp hj).1
      rwa [length_map] at hjlt
    have hnodup := Config.nodup_of_validate hvalid
    have hj' : (cfg.nvmePaths.map std.clean)[j]? = some (std.clean path) := by
      rw [← hrest, map_append, getElem?_append_left (by rwa [length_map])]
      exact hj
    have hi' : (cfg.nvmePaths.map std.clean)[i]? = some (std.clean path) := by
      rw [getElem?_map, hi, map_some]
    have hjn := (List.getElem?_eq_some_iff.mp hj').1
    have hij := (getElem?_inj hjn hnodup).mp (hj'.trans hi'.symm)
    omega
  rw [h.blank _ hnew]
  exact sound_blank _ _

private theorem lookup_zip {V : Type} (hn : keys.Nodup) (vals : List V) {k : String}
    (hi : keys[i]? = some k) : (keys.zip vals).lookup k = vals[i]? := by
  induction keys generalizing vals i with
  | nil => cases hi
  | cons a keys ih =>
    obtain ⟨ha, hn⟩ := nodup_cons.mp hn
    cases vals with
    | nil => rfl
    | cons v vals =>
      cases i with
      | zero =>
        obtain rfl := some.inj hi
        rw [zip_cons_cons, lookup_cons_self]
        rfl
      | succ i =>
        have hne : (k == a) = false := by
          rw [beq_eq_false_iff_ne]
          rintro rfl
          exact ha (mem_of_getElem? hi)
        rw [zip_cons_cons, lookup_cons, hne]
        exact ih hn vals hi

private theorem lookup_zip_of_notMem {V : Type} (vals : List V) {k : String}
    (hk : k ∉ keys) : (keys.zip vals).lookup k = none := by
  rw [lookup_eq_none_iff]
  intro x hx
  rw [bne_iff_ne]
  rintro rfl
  exact hk (of_mem_zip hx).1

theorem admitted_of_own {A : List AppendReq} : ∀ r, own dg A n i r → r.Admitted dg :=
  fun _ h => h.2.2

theorem Sound.start (h : w.Sound std dg) (hplaces : w.KeepsPlaces cfg)
    (ht : w.start std dg cfg sealOk = some t) (hids : ∀ v ∈ t.vols, v.nextID ≠ 0)
    (hv : t.vols[i]? = some v) : v.Sound (own dg w.appended t.vols.length i) dg t.params := by
  have hroom := hids v (mem_of_getElem? hv)
  obtain ⟨hvalid, hpre, p, rfl⟩ := start_eq_some ht
  simp only [newTiered, length_mapIdx] at hv ⊢
  rw [getElem?_mapIdx] at hv
  obtain ⟨path, hpath, rfl⟩ := map_eq_some_iff.mp hv
  have hdir := h.next hvalid hpre hplaces hpath
  refine (hdir.recovered admitted_of_own (sealOk i)).openActive rfl ?_
  by_contra hwrap
  apply hroom
  rw [← UInt32.toNat_inj]
  have hlt := (recovered dg p (sealOk i) (w.disk (std.clean path))).nextID.toNat_lt
  have hone : (1 : UInt32).toNat = 1 := rfl
  show ((recovered dg p (sealOk i) (w.disk (std.clean path))).nextID + 1).toNat = 0
  rw [UInt32.toNat_add, hone]
  omega

theorem Sound.step (h : w.Sound std dg) {r : DaemonRun} (hc : w.Calm std dg r)
    (hs : w.step std dg r = some w') : w'.Sound std dg := by
  obtain ⟨t, ht, hs⟩ := bind_eq_some_iff.mp hs
  obtain ⟨s, hrun, rfl⟩ := map_eq_some_iff.mp hs
  have hlen : t.vols.length = r.cfg.nvmePaths.length := by
    obtain ⟨-, -, p, rfl⟩ := start_eq_some ht
    exact length_mapIdx
  obtain ⟨hvalid, hpre, -⟩ := start_eq_some ht
  have hup : Running.Sound dg t.params t.vols.length ⟨t.vols.take r.opened, w.appended⟩ := by
    intro i v hv
    have hv' : t.vols[i]? = some v := by
      obtain ⟨rest, hrest⟩ := take_prefix r.opened t.vols
      rw [← hrest, List.getElem?_append_left (List.getElem?_eq_some_iff.mp hv).1]
      exact hv
    exact h.start hc.places ht (hc.ids t ht) hv'
  have hend : Running.Sound dg t.params t.vols.length s :=
    run_invariant (fun _ _ _ hs hcalm hstep => hs.step hcalm hstep) hup (hc.steps t ht) hrun
  have hgrown : w.appended ⊆ s.appended :=
    run_invariant (I := fun s => w.appended ⊆ s.appended)
      (fun _ _ _ hs _ hstep => List.Subset.trans hs (Running.appended_step hstep))
        (List.Subset.refl _) (hc.steps t ht) hrun
  rw [hlen] at hend
  refine ⟨fun i path hi => ?_, fun path hout => ?_⟩
  · have hi' : (r.cfg.nvmePaths.map std.clean)[i]? = some (std.clean path) := by
      rw [getElem?_map, hi, map_some]
    dsimp only
    rw [lookup_zip (Config.nodup_of_validate hvalid) s.vols hi']
    cases hv : s.vols[i]? with
    | none => exact (h.next hvalid hpre hc.places hi).mono fun q hq => ⟨hgrown hq.1, hq.2⟩
    | some v => exact (hend i v hv).dir admitted_of_own
  · dsimp only at hout ⊢
    rw [lookup_zip_of_notMem s.vols hout]
    exact h.blank path fun hmem => hout ((hpre.map std.clean).subset hmem)

end Step

end World

/-! ### A list of one volume that grows to two -/

def plainStd : Config.Std := ⟨fun _ => none, id⟩

def onPaths (paths : List String) : Config :=
  { Config.default with nvmePaths := paths, nvmeMaxBytes := 1099511627776 }

/-- A block of one byte. -/
def oneByte (dg : Digests) (key : BlockKey) : AppendReq := ⟨7, key, dg.xxh3 [1], [1], 0⟩

def oneRecord (dg : Digests) (key : BlockKey) : DaemonRun where
  cfg := onPaths ["/a"]
  sealOk := fun _ _ => true
  opened := 1
  steps := [(0, .flush [oneByte dg key])]

/-- The daemon comes up on a second volume after it ran with the first alone. -/
def extended (key : BlockKey) : Option (World × Store) :=
  (run (World.step plainStd .zero) World.empty [oneRecord .zero key]).bind fun w =>
    (w.start plainStd .zero (onPaths ["/a", "/b"]) (fun _ _ => true)).map fun t => (w, t)

private theorem extended_eq_some {key : BlockKey} {w : World} {t : Store}
    (h : extended key = some (w, t)) :
    run (World.step plainStd .zero) World.empty [oneRecord .zero key] = some w ∧
      w.start plainStd .zero (onPaths ["/a", "/b"]) (fun _ _ => true) = some t := by
  obtain ⟨w', hrun, h⟩ := bind_eq_some_iff.mp h
  obtain ⟨t', hstart, h⟩ := map_eq_some_iff.mp h
  cases h
  exact ⟨hrun, hstart⟩

private theorem oneRecord_calm (key : BlockKey) :
    Along (World.step plainStd .zero) (World.Calm plainStd .zero) World.empty
      [oneRecord .zero key] := by
  have hids : (World.empty.start plainStd .zero (onPaths ["/a"]) (fun _ _ => true)).map
      (fun t => t.vols.map nextID) = some [1] := by
    decide +kernel
  refine ⟨⟨?_, ?_, ?_⟩, fun _ _ => trivial⟩
  · intro r hr
    cases hr
  · intro t ht v hv
    rw [show World.empty.start plainStd .zero (onPaths ["/a"]) (fun _ _ => true) = _ from ht,
      map_some] at hids
    have hmem : v.nextID ∈ t.vols.map nextID := mem_map_of_mem hv
    rw [Option.some.inj hids] at hmem
    rw [List.mem_singleton.mp hmem]
    decide
  · intro t ht
    refine ⟨fun v _ r hr => ?_, fun _ _ => trivial⟩
    obtain rfl := List.mem_singleton.mp hr
    exact show (7 : UInt32).toNat ≠ recordMagic by decide

open World in
/-- In every sequence of calm runs after which a next list keeps the places of all records, a key
that an EXISTS reports right after recovery leads to the volume that holds its record: a GET gives
the bytes that were appended for it. -/
theorem recovered_keys_readable {std : Config.Std} {dg : Digests}
    {runs : List DaemonRun} {w : World} (hrun : run (World.step std dg) World.empty runs = some w)
    (hcalm : Along (World.step std dg) (World.Calm std dg) World.empty runs)
    {cfg : Config} {sealOk : ℕ → UInt32 → Bool} {t : Store} (hplaces : w.KeepsPlaces cfg)
    (ht : w.start std dg cfg sealOk = some t) (ns : UInt32) (keys : List BlockKey)
    (withBitmap : Bool) {i : ℕ} {key : BlockKey} (hkey : keys[i]? = some key)
    (hrep : Store.Reports (t.existsPrefix ns keys withBitmap) i) :
    ∃ v ref, t.vols[volumeFor t.vols.length key]? = some v ∧ t.idx (ns, key) = some ref ∧
      ∃ r ∈ w.appended, r.ns = ns ∧ r.key = key ∧
        v.read dg t.params ref.loc ns key ref.xxh3 = some r.data ∧
          t.get dg ns key = some r.data := by
  have hsound : w.Sound std dg := by
    refine run_invariant (fun _ _ _ hs hc hstep => hs.step hc hstep) ⟨?_, fun _ _ => rfl⟩ hcalm hrun
    intro i path hi
    cases hi
  obtain ⟨ref, href⟩ := Store.idx_of_reports hkey hrep
  obtain ⟨hvalid, hpre, p, hstore⟩ := start_eq_some ht
  have hparams : t.params = p := congrArg Store.params hstore
  have hvols : t.vols = cfg.nvmePaths.mapIdx fun i path =>
      openVolume dg p (sealOk i) (w.disk (std.clean path)) := congrArg Store.vols hstore
  have href' := href
  rw [hstore] at href'
  obtain ⟨j, ents, hents, e, he, rfl, rfl, rfl⟩ := Store.recovered_of_idx href'
  rw [getElem?_mapIdx] at hents
  obtain ⟨path, hpath, rfl⟩ := map_eq_some_iff.mp hents
  obtain ⟨r, ⟨hr, hplace, -⟩, hns, hk, hread⟩ :=
    (hsound.next hvalid hpre hplaces hpath).read admitted_of_own he
  -- the place of the record in the list is the volume of its key
  have hvol : t.vols[volumeFor t.vols.length e.key]? =
      some (openVolume dg p (sealOk j) (w.disk (std.clean path))) := by
    rw [hvols, length_mapIdx, ← hk, hplace, getElem?_mapIdx, hpath, map_some]
  rw [← hparams] at hvol hread
  refine ⟨_, _, hvol, href, r, hr, hns, hk, hread, ?_⟩
  rw [Store.get, href, bind_some, hvol, bind_some]
  exact hread

/-- A record whose place is the same in a list that has grown by a second volume. -/
theorem one_record_readable :
    ∃ w t, run (World.step plainStd .zero) World.empty [oneRecord .zero 10] = some w ∧
      w.start plainStd .zero (onPaths ["/a", "/b"]) (fun _ _ => true) = some t ∧
      Store.Reports (t.existsPrefix 7 [10] true) 0 ∧ t.get .zero 7 10 = some [1] := by
  have heval :
      (extended 10).map (fun s => (s.1.paths, s.1.appended, s.2.existsPrefix 7 [10] true)) =
      some (["/a"], [oneByte .zero 10], 1, [.ok]) := by
    decide +kernel
  obtain ⟨⟨w, t⟩, hext, h⟩ := map_eq_some_iff.mp heval
  obtain ⟨hrun, hstart⟩ := extended_eq_some hext
  simp only [Prod.mk.injEq] at h
  obtain ⟨hpaths, happended, hanswer⟩ := h
  have hplaces : w.KeepsPlaces (onPaths ["/a", "/b"]) := by
    intro r hr
    rw [happended] at hr
    obtain rfl := List.mem_singleton.mp hr
    rw [hpaths]
    decide
  have hrep : Store.Reports (t.existsPrefix 7 [10] true) 0 := by
    rw [hanswer]
    exact .inl Nat.one_pos
  refine ⟨w, t, hrun, hstart, hrep, ?_⟩
  obtain ⟨-, -, -, -, r, hr, -, -, -, hget⟩ :=
    recovered_keys_readable hrun (oneRecord_calm 10) hplaces hstart
    7 [10] true (i := 0) rfl hrep
  rw [happended] at hr
  obtain rfl := List.mem_singleton.mp hr
  exact hget

/-- One whose place is not: an EXISTS reports it, and a GET goes to the second volume and finds
nothing. -/
theorem extended_list_loses_key :
    ∃ w t, run (World.step plainStd .zero) World.empty [oneRecord .zero 11] = some w ∧
      w.start plainStd .zero (onPaths ["/a", "/b"]) (fun _ _ => true) = some t ∧
      Store.Reports (t.existsPrefix 7 [11] true) 0 ∧ volumeFor 1 11 = 0 ∧ volumeFor 2 11 = 1 ∧
      t.get .zero 7 11 = none := by
  have heval : (extended 11).map (fun s => (s.2.existsPrefix 7 [11] true, s.2.get .zero 7 11)) =
      some ((1, [.ok]), none) := by
    decide +kernel
  obtain ⟨⟨w, t⟩, hext, h⟩ := map_eq_some_iff.mp heval
  obtain ⟨hrun, hstart⟩ := extended_eq_some hext
  obtain ⟨hanswer, hget⟩ := Prod.mk.inj h
  refine ⟨w, t, hrun, hstart, ?_, by decide, by decide, hget⟩
  rw [hanswer]
  exact .inl Nat.one_pos

end Daemon

end KVStash
