/- GID: KVStash/Connector/PageKeys
   digest: The wire keys of SGLang pages: equal exactly for the same object of the same deployment.
     -/

import KVStash.Foundation.Delimited

set_option autoImplicit false

namespace KVStash.Connector.PageKeys

open Foundation.Delimited

/-- The fields of the storage configuration that the keys depend on. -/
structure Config where
  modelName : String
  tpRank : ℤ
  tpSize : ℤ
  ppRank : ℤ
  ppSize : ℤ
  isMla : Bool
  cpRank : ℤ
  cpSize : ℤ
  splitHeads : Bool
  tpLcmSize : ℤ

inductive Part
  | k
  | v
  | pg
  deriving DecidableEq

def Part.tag : Part → String
  | .k => "_k"
  | .v => "_v"
  | .pg => "_pg"

namespace Config

variable (c : Config)

def model : String := if c.modelName = "" then "unknown-model" else c.modelName

def kindPart : String :=
  if c.isMla then c.model ++ "|pp" ++ c.ppSize.repr ++ "|mla"
  else c.model ++ "|tp" ++ c.tpSize.repr ++ "|pp" ++ c.ppSize.repr ++ "|mha"

def cpPart : String := if 1 < c.cpSize then c.kindPart ++ "|cp" ++ c.cpSize.repr else c.kindPart

/-- The fingerprint of `scheme_from_config`. -/
def fingerprint : String := if c.splitHeads then c.cpPart ++ "|hs" ++ c.tpLcmSize.repr else c.cpPart

def cpTag : String := if 1 < c.cpSize then "_cp" ++ c.cpRank.repr else ""

/-- The suffixes of `physical_suffixes` and `page_suffix`. -/
def suffix (part : Part) : String :=
  if c.isMla then "_" ++ c.ppRank.repr ++ c.cpTag ++ part.tag
  else "_" ++ c.tpRank.repr ++ "_" ++ c.ppRank.repr ++ c.cpTag ++ part.tag

end Config

/-- A physical object of a deployment. A latent page has no value part. The two texts are encoded
with their lengths, which raises for longer ones. -/
structure Object where
  config : Config
  key : String
  part : Part
  latent : config.isMla = true → part ≠ .v
  short : config.fingerprint.utf8ByteSize < 2 ^ 32 ∧
    (key ++ config.suffix part).utf8ByteSize < 2 ^ 32

/-- The bytes of `kvblockd-cek-v1` and a zero. -/
def cekDomain : List UInt8 :=
  [107, 118, 98, 108, 111, 99, 107, 100, 45, 99, 101, 107, 45, 118, 49, 0]

namespace Object

variable (o : Object)

def wireFields : List Text :=
  [⟨"sglang-hicache-v1", by decide⟩, ⟨o.config.fingerprint, o.short.1⟩,
    ⟨o.key ++ o.config.suffix o.part, o.short.2⟩]

def wireBlob : List UInt8 := cekDomain ++ o.wireFields.flatMap lps

def wireKey (blake3 : List UInt8 → List UInt8) : List UInt8 := blake3 o.wireBlob

end Object

/-- The same deployment. -/
structure Config.Same (c d : Config) : Prop where
  model : c.modelName = d.modelName
  isMla : c.isMla = d.isMla
  ppSize : c.ppSize = d.ppSize
  cpSize : max 1 c.cpSize = max 1 d.cpSize
  splitHeads : c.splitHeads = d.splitHeads
  tpLcmSize : c.splitHeads = true → c.tpLcmSize = d.tpLcmSize
  tpSize : c.isMla = false → c.tpSize = d.tpSize

/-- The same object of it. -/
structure Object.Same (o p : Object) : Prop where
  config : o.config.Same p.config
  ppRank : o.config.ppRank = p.config.ppRank
  cpRank : 1 < o.config.cpSize → o.config.cpRank = p.config.cpRank
  part : o.part = p.part
  key : o.key = p.key
  tpRank : o.config.isMla = false → o.config.tpRank = p.config.tpRank

/-! ### Fields behind separators -/

section Fields

variable {s : Char} {x y tag : List Char} {m n : ℤ}

theorem number_inj (hdigit : s.isDigit = false) (hsign : s ≠ '-') (htag : s ∉ tag)
    (h : x ++ s :: (tag ++ m.repr.toList) = y ++ s :: (tag ++ n.repr.toList)) : x = y ∧ m = n := by
  have hfree : ∀ k : ℤ, s ∉ tag ++ k.repr.toList :=
    fun k => by simp [htag, notMem_repr hdigit hsign k]
  obtain ⟨hx, htail⟩ := sep_inj h (hfree m) (hfree n)
  exact ⟨hx, repr_inj (List.append_cancel_left htail)⟩

/-- A field that may be absent, behind a field that starts with another letter. -/
theorem optional_inj {p q : Prop} [Decidable p] [Decidable q] {u v a b : List Char}
    (h : (if p then x ++ s :: u ++ s :: a else x ++ s :: u) = if q then y ++ s :: v ++ s :: b
      else y ++ s :: v)
    (hu : s ∉ u) (hv : s ∉ v) (ha : s ∉ a) (hb : s ∉ b) (hub : u.head? ≠ b.head?)
    (hva : v.head? ≠ a.head?) : (p ↔ q) ∧ x ++ s :: u = y ++ s :: v ∧ (p → a = b) := by
  split_ifs at h with hp hq hq
  · obtain ⟨hfront, htail⟩ := sep_inj h ha hb
    exact ⟨iff_of_true hp hq, hfront, fun _ => htail⟩
  · exact absurd (congrArg List.head? (sep_inj h ha hv).2.symm) hva
  · exact absurd (congrArg List.head? (sep_inj h hu hb).2) hub
  · exact ⟨iff_of_false hp hq, h, fun hp' => absurd hp' hp⟩

end Fields

namespace Config

variable {c d : Config}

/-- What stands in front of the kind of a deployment. -/
def front (c : Config) : List Char :=
  (if c.isMla then c.model.toList else c.model.toList ++
    '|' :: (['t', 'p'] ++ c.tpSize.repr.toList)) ++
    '|' :: (['p', 'p'] ++ c.ppSize.repr.toList)

def kind (c : Config) : List Char := if c.isMla then ['m', 'l', 'a'] else ['m', 'h', 'a']

def cpField (c : Config) : List Char := ['c', 'p'] ++ c.cpSize.repr.toList

def hsField (c : Config) : List Char := ['h', 's'] ++ c.tpLcmSize.repr.toList

/-- The last field but for that of the split heads, and what stands in front of it. -/
def last (c : Config) : List Char × List Char :=
  if 1 < c.cpSize then (c.front ++ '|' :: c.kind, c.cpField) else (c.front, c.kind)

theorem fingerprint_toList : c.fingerprint.toList =
    if c.splitHeads then c.last.1 ++ '|' :: c.last.2 ++ '|' :: c.hsField
      else c.last.1 ++ '|' :: c.last.2 := by
  unfold fingerprint cpPart kindPart last front kind cpField hsField
  cases c.isMla <;> cases c.splitHeads <;> by_cases hcp : 1 < c.cpSize <;> simp [hcp]

theorem bar_notMem (tag : List Char) (htag : '|' ∉ tag) (n : ℤ) : '|' ∉ tag ++ n.repr.toList := by
  simp [htag, notMem_repr (c := '|') rfl (by decide) n]

theorem last_free : '|' ∉ c.last.2 ∧ c.last.2.head? ≠ some 'h' := by
  unfold last kind cpField
  have hbar := bar_notMem ['c', 'p'] (by decide) c.cpSize
  split
  · exact ⟨hbar, by simp⟩
  · cases c.isMla <;> simp

theorem kind_free : '|' ∉ c.kind ∧ c.kind.head? ≠ some 'c' := by
  unfold kind
  cases c.isMla <;> simp

theorem last_inj (h : c.last.1 ++ '|' :: c.last.2 = d.last.1 ++ '|' :: d.last.2) :
    c.front = d.front ∧ c.kind = d.kind ∧ max 1 c.cpSize = max 1 d.cpSize := by
  have hlast : ∀ e : Config, e.last.1 ++ '|' :: e.last.2 =
      if 1 < e.cpSize then e.front ++ '|' :: e.kind ++ '|' :: e.cpField
        else e.front ++ '|' :: e.kind := by
    intro e
    unfold last
    split <;> rfl
  rw [hlast, hlast] at h
  obtain ⟨hcp, hfront, hsize⟩ := optional_inj h kind_free.1 kind_free.1 (bar_notMem _ (by decide) _)
    (bar_notMem _ (by decide) _) kind_free.2 kind_free.2
  obtain ⟨hfront, hkind⟩ := sep_inj hfront kind_free.1 kind_free.1
  refine ⟨hfront, hkind, ?_⟩
  by_cases hc : 1 < c.cpSize
  · rw [repr_inj (List.append_cancel_left (hsize hc))]
  · rw [max_eq_left (not_lt.mp hc), max_eq_left (not_lt.mp fun hd => hc (hcp.mpr hd))]

theorem model_of_ne (hc : c.modelName ≠ "") : c.model = c.modelName := if_neg hc

theorem Same.wide (h : c.Same d) :
    (1 < c.cpSize ↔ 1 < d.cpSize) ∧ (1 < c.cpSize → c.cpSize = d.cpSize) := by
  have := h.cpSize
  omega

theorem Same.fingerprint (h : c.Same d) : c.fingerprint = d.fingerprint := by
  have hmodel : c.model = d.model := by rw [Config.model, Config.model, h.model]
  have hkind : c.kindPart = d.kindPart := by
    unfold kindPart
    rw [hmodel, h.ppSize, ← h.isMla]
    split_ifs with hm
    · rfl
    · rw [h.tpSize (Bool.eq_false_iff.mpr hm)]
  have hcp : c.cpPart = d.cpPart := by
    unfold cpPart
    by_cases hc : 1 < c.cpSize
    · rw [if_pos hc, if_pos (h.wide.1.mp hc), hkind, h.wide.2 hc]
    · rw [if_neg hc, if_neg (mt h.wide.1.mpr hc), hkind]
  unfold Config.fingerprint
  rw [hcp, ← h.splitHeads]
  split_ifs with hs
  · rw [h.tpLcmSize hs]
  · rfl

theorem same_of_fingerprint (hc : c.modelName ≠ "") (hd : d.modelName ≠ "")
    (h : c.fingerprint = d.fingerprint) : c.Same d := by
  rw [← String.toList_inj, fingerprint_toList, fingerprint_toList] at h
  obtain ⟨hsplit, hlast, hlcm⟩ :=
    optional_inj h last_free.1 last_free.1 (bar_notMem _ (by decide) _)
    (bar_notMem _ (by decide) _) last_free.2 last_free.2
  obtain ⟨hfront, hkind, hcp⟩ := last_inj hlast
  have hmla : c.isMla = d.isMla := by
    unfold kind at hkind
    cases hcm : c.isMla <;> cases hdm : d.isMla <;> simp_all
  obtain ⟨hmodel, hpp⟩ := number_inj (s := '|') rfl (by decide) (by decide) hfront
  have hlcm' : c.splitHeads = true → c.tpLcmSize = d.tpLcmSize := fun hs =>
    repr_inj (List.append_cancel_left (hlcm hs))
  rw [model_of_ne hc, model_of_ne hd, ← hmla] at hmodel
  cases hm : c.isMla with
  | true =>
    rw [hm, if_pos rfl, if_pos rfl] at hmodel
    exact ⟨String.toList_inj.mp hmodel, hmla, hpp, hcp, Bool.eq_iff_iff.mpr hsplit, hlcm',
      fun hf => nomatch hm.symm.trans hf⟩
  | false =>
    rw [hm, if_neg Bool.false_ne_true, if_neg Bool.false_ne_true] at hmodel
    obtain ⟨hmodel, htp⟩ := number_inj (s := '|') rfl (by decide) (by decide) hmodel
    exact ⟨String.toList_inj.mp hmodel, hmla, hpp, hcp, Bool.eq_iff_iff.mpr hsplit,
      hlcm', fun _ => htp⟩

end Config

namespace Object

variable {o p : Object}

/-- The key, with the rank of the shard where there is one. -/
def shard (o : Object) : List Char :=
  if o.config.isMla then o.key.toList else o.key.toList ++
    '_' :: ([] ++ o.config.tpRank.repr.toList)

def stage (o : Object) : List Char := o.shard ++ '_' :: ([] ++ o.config.ppRank.repr.toList)

theorem full_toList (o : Object) : (o.key ++ o.config.suffix o.part).toList =
    (if 1 < o.config.cpSize then o.stage ++ '_' :: (['c', 'p'] ++ o.config.cpRank.repr.toList)
      else o.stage) ++
      '_' :: o.part.tag.toList.tail := by
  unfold Config.suffix Config.cpTag stage shard
  cases o.config.isMla <;> by_cases hcp : 1 < o.config.cpSize <;> cases o.part
    <;> simp [hcp, Part.tag]

theorem tag_free (part : Part) : '_' ∉ part.tag.toList.tail := by
  cases part <;> decide

theorem tag_inj {part part' : Part} (h : part.tag.toList.tail = part'.tag.toList.tail) :
    part = part' := by
  cases part <;> cases part' <;> first | rfl | exact absurd h (by decide)

theorem same_of_full (hc : o.config.Same p.config)
    (h : o.key ++ o.config.suffix o.part = p.key ++ p.config.suffix p.part) : o.Same p := by
  have hl := congrArg String.toList h
  rw [full_toList, full_toList] at hl
  obtain ⟨hl, hpart⟩ := sep_inj hl (tag_free _) (tag_free _)
  have hrank : ∀ {x y : List Char} {m n : ℤ},
      x ++ '_' :: ([] ++ m.repr.toList) = y ++ '_' :: ([] ++ n.repr.toList) →
      x = y ∧ m = n := number_inj (s := '_') rfl (by decide) (by decide)
  have hstage : o.stage = p.stage ∧ (1 < o.config.cpSize → o.config.cpRank = p.config.cpRank) := by
    by_cases hcp : 1 < o.config.cpSize
    · rw [if_pos hcp, if_pos (hc.wide.1.mp hcp)] at hl
      obtain ⟨hl, hcpRank⟩ := number_inj (s := '_') rfl (by decide) (by decide) hl
      exact ⟨hl, fun _ => hcpRank⟩
    · rw [if_neg hcp, if_neg (mt hc.wide.1.mpr hcp)] at hl
      exact ⟨hl, fun hcp' => absurd hcp' hcp⟩
  obtain ⟨hshard, hpp⟩ := hrank hstage.1
  unfold shard at hshard
  rw [← hc.isMla] at hshard
  cases hm : o.config.isMla with
  | true =>
    rw [hm, if_pos rfl, if_pos rfl] at hshard
    exact ⟨hc, hpp, hstage.2, tag_inj hpart, String.toList_inj.mp hshard,
      fun hf => nomatch hm.symm.trans hf⟩
  | false =>
    rw [hm, if_neg Bool.false_ne_true, if_neg Bool.false_ne_true] at hshard
    exact ⟨hc, hpp, hstage.2, tag_inj hpart, String.toList_inj.mp (hrank hshard).1,
      fun _ => (hrank hshard).2⟩

theorem Same.full (h : o.Same p) :
    o.key ++ o.config.suffix o.part = p.key ++ p.config.suffix p.part := by
  obtain ⟨hc, hpp, hcp, hpart, hkey, htp⟩ := h
  have htag : o.config.cpTag = p.config.cpTag := by
    unfold Config.cpTag
    by_cases hw : 1 < o.config.cpSize
    · rw [if_pos hw, if_pos (hc.wide.1.mp hw), hcp hw]
    · rw [if_neg hw, if_neg (mt hc.wide.1.mpr hw)]
  unfold Config.suffix
  rw [hkey, hpart, hpp, htag, ← hc.isMla]
  split_ifs with hm
  · rfl
  · rw [htp (Bool.eq_false_iff.mpr hm)]

end Object

/-- Two objects have one wire key exactly if they are the same object of the same deployment, where
BLAKE3 tells their inputs apart. -/
theorem wireKey_eq_iff {blake3 : List UInt8 → List UInt8} {o p : Object}
    (ho : o.config.modelName ≠ "") (hp : p.config.modelName ≠ "")
    (hinj : blake3 o.wireBlob = blake3 p.wireBlob → o.wireBlob = p.wireBlob) :
    o.wireKey blake3 = p.wireKey blake3 ↔ o.Same p := by
  constructor
  · intro h
    have hfields := flatMap_lps_inj (List.append_cancel_left (hinj h))
    obtain ⟨-, hrest⟩ := List.cons.inj hfields
    obtain ⟨hfp, hrest⟩ := List.cons.inj hrest
    exact Object.same_of_full (Config.same_of_fingerprint ho hp (congrArg Subtype.val hfp))
      (congrArg Subtype.val (List.cons.inj hrest).1)
  · intro h
    have hfields : o.wireFields = p.wireFields := by
      simp only [Object.wireFields, h.config.fingerprint, h.full]
    rw [Object.wireKey, Object.wireKey, Object.wireBlob, Object.wireBlob, hfields]

/-- The first rank of a model with a separator in its name. -/
def ranked (tpSize : ℤ) : Config := ⟨"m|tp2", 0, tpSize, 0, 1, false, 0, 1, false, 0⟩

theorem wireKey_eq_iff_widths : ∃ o p :
    Object, o.config = ranked 2 ∧ p.config = ranked 4 ∧ o.key = p.key ∧
    o.wireKey id ≠ p.wireKey id := by
  refine ⟨⟨ranked 2, "page", .k, by decide, by decide +kernel⟩,
    ⟨ranked 4, "page", .k, by decide, by decide +kernel⟩, rfl, rfl, rfl, fun h => ?_⟩
  have hsame := (wireKey_eq_iff (by decide) (by decide) id).mp h
  exact absurd (hsame.config.tpSize rfl) (by decide)

end KVStash.Connector.PageKeys
