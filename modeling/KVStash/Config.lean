/- GID: KVStash/Config
   digest: The daemon configuration, its defaults and every check of its validation. -/

import KVStash.Wire.Header

set_option autoImplicit false

namespace KVStash

open Wire

structure Config where
  listenAddr : String
  adminAddr : String
  metricsAddr : String
  pprofAddr : String
  s3CompatAddr : String
  maxConns : ℤ
  maxBatchKeys : UInt32
  maxFrameLen : UInt32
  maxBlobLen : UInt32
  initialCredit : UInt32
  streamTimeoutMS : UInt32
  leaseDefaultMS : UInt32
  leaseMaxMS : UInt32
  sockSndBuf : ℤ
  sockRcvBuf : ℤ
  writeChunkBytes : ℤ
  dramArenaBytes : ℤ
  pinnedBytesCap : ℤ
  evictionPolicy : String
  evictionWatermarkPct : ℤ
  evictionBatchPct : ℤ
  evictionGhostEntries : ℤ
  nvmePaths : List String
  nvmeMaxBytes : ℤ
  nvmeSegmentBytes : ℤ
  nvmeReadWorkers : ℤ
  nvmeDemoteWatermarkPct : ℤ
  nvmeDemoteBatchPct : ℤ
  nvmeSyncEveryBytes : ℤ
  s3Bucket : String
  s3NodeID : String
  nvmeCkptEverySegments : ℤ

namespace Config

def default : Config where
  listenAddr := ":9440"
  adminAddr := "127.0.0.1:9441"
  metricsAddr := "127.0.0.1:9442"
  pprofAddr := ""
  s3CompatAddr := ""
  maxConns := 1024
  maxBatchKeys := defaultMaxBatchKeys
  maxFrameLen := defaultMaxFrameLen
  maxBlobLen := defaultMaxBlobLen
  initialCredit := defaultInitialCredit
  streamTimeoutMS := defaultStreamTimeoutMS
  leaseDefaultMS := defaultLeaseMS
  leaseMaxMS := maxLeaseMS
  sockSndBuf := 16777216
  sockRcvBuf := 16777216
  writeChunkBytes := 1048576
  dramArenaBytes := 1073741824
  pinnedBytesCap := 134217728
  evictionPolicy := "s3fifo"
  evictionWatermarkPct := 95
  evictionBatchPct := 5
  evictionGhostEntries := 0
  nvmePaths := []
  nvmeMaxBytes := 0
  nvmeSegmentBytes := 268435456
  nvmeReadWorkers := 16
  nvmeDemoteWatermarkPct := 90
  nvmeDemoteBatchPct := 5
  nvmeSyncEveryBytes := 8388608
  s3Bucket := ""
  s3NodeID := ""
  nvmeCkptEverySegments := 8

/-- What validation takes from the standard library: the error of an address that is not `host:port`
with a port in range, and the normal form of a path. -/
structure Std where
  listenAddrError : String → Option String
  clean : String → String

def check (cond : Bool) (error : String) : List String := if cond then [] else [error]

theorem check_eq_nil {cond : Bool} {error : String} : check cond error = [] ↔ cond = true := by
  cases cond <;> simp [check]

def addrErrors (std : Std) (c : Config) : List String :=
  check (c.listenAddr != "") "listen_addr: the data-plane address must be set" ++
  [("listen_addr", c.listenAddr), ("admin_addr", c.adminAddr), ("metrics_addr", c.metricsAddr),
    ("pprof_addr", c.pprofAddr), ("s3compat_addr", c.s3CompatAddr)].flatMap fun (name, addr) =>
      if addr = "" then []
      else match std.listenAddrError addr with
        | none => []
        | some e => [name ++ " " ++ addr.quote ++ ": " ++ e]

/-- The ceilings and floors of what a connection may negotiate, and the lease and stream times. -/
def limitErrors (c : Config) : List String :=
  check (1 ≤ c.maxConns) ("max_conns " ++ toString c.maxConns ++ ": must be >= 1") ++
  check (floorMaxBatchKeys ≤ c.maxBatchKeys)
    ("max_batch_keys " ++ toString c.maxBatchKeys ++ ": below the §4 floor " ++
      toString floorMaxBatchKeys) ++
  check (c.maxBatchKeys ≤ capMaxBatchKeys)
    ("max_batch_keys " ++ toString c.maxBatchKeys ++ ": above the ceiling " ++
      toString capMaxBatchKeys) ++
  check (floorMaxFrameLen ≤ c.maxFrameLen)
    ("max_frame_len " ++ toString c.maxFrameLen ++ ": below the §4 floor " ++
      toString floorMaxFrameLen) ++
  check (c.maxFrameLen ≤ capMaxFrameLen)
    ("max_frame_len " ++ toString c.maxFrameLen ++ ": above the ceiling " ++
      toString capMaxFrameLen ++
      " (max_conns × frames this large is an operator-armed OOM)") ++
  check (floorMaxBlobLen ≤ c.maxBlobLen)
    ("max_blob_len " ++ toString c.maxBlobLen ++ ": below the §4 floor " ++
      toString floorMaxBlobLen) ++
  check (floorInitialCredit ≤ c.initialCredit)
    ("initial_credit " ++ toString c.initialCredit ++ ": below the §4 floor " ++
      toString floorInitialCredit) ++
  check (c.initialCredit ≤ capInitialCredit)
    ("initial_credit " ++ toString c.initialCredit ++ ": above the ceiling " ++
      toString capInitialCredit) ++
  check (c.maxBlobLen ≤ c.maxFrameLen)
    ("max_blob_len " ++ toString c.maxBlobLen ++ " exceeds max_frame_len " ++
      toString c.maxFrameLen) ++
  check (5000 ≤ c.streamTimeoutMS)
    ("stream_timeout_ms " ++ toString c.streamTimeoutMS ++ ": §5 says not negotiable below 5s") ++
  check (1 ≤ c.leaseDefaultMS && c.leaseDefaultMS ≤ c.leaseMaxMS)
    ("lease_default_ms " ++ toString c.leaseDefaultMS ++ ": must be in [1, lease_max_ms " ++
      toString c.leaseMaxMS ++ "]") ++
  check (c.leaseMaxMS ≤ Wire.maxLeaseMS)
    ("lease_max_ms " ++ toString c.leaseMaxMS ++ ": exceeds the protocol clamp " ++
      toString Wire.maxLeaseMS)

def socketErrors (c : Config) : List String :=
  check (0 ≤ c.sockSndBuf)
    ("sock_sndbuf " ++ toString c.sockSndBuf ++ ": must be >= 0 (0 = OS default)") ++
  check (0 ≤ c.sockRcvBuf)
    ("sock_rcvbuf " ++ toString c.sockRcvBuf ++ ": must be >= 0 (0 = OS default)") ++
  check (0 ≤ c.writeChunkBytes)
    ("write_chunk_bytes " ++ toString c.writeChunkBytes ++ ": must be >= 0 (0 = unchunked)")

def dramErrors (c : Config) : List String :=
  check (0 < c.dramArenaBytes)
    ("dram_arena_bytes " ++ toString c.dramArenaBytes ++ ": must be > 0") ++
  check (c.dramArenaBytes < 17592186044416)
    ("dram_arena_bytes " ++ toString c.dramArenaBytes ++
      ": must be below 16 TiB (the allocator's uint32 granule addressing)") ++
  check ((c.maxBlobLen.toNat : ℤ) ≤ c.dramArenaBytes)
    ("dram_arena_bytes " ++ toString c.dramArenaBytes ++
      ": must hold at least one max_blob_len (" ++
      toString c.maxBlobLen ++ ") block") ++
  check (0 ≤ c.pinnedBytesCap && c.pinnedBytesCap ≤ c.dramArenaBytes)
    ("pinned_bytes_cap " ++ toString c.pinnedBytesCap ++ ": must be in [0, dram_arena_bytes " ++
      toString c.dramArenaBytes ++ "]") ++
  check (["s3fifo", "sampled-lru", "none"].contains c.evictionPolicy)
    ("eviction_policy " ++ c.evictionPolicy.quote ++ ": want s3fifo, sampled-lru, or none") ++
  check (50 ≤ c.evictionWatermarkPct && c.evictionWatermarkPct ≤ 99)
    ("eviction_watermark_pct " ++ toString c.evictionWatermarkPct ++ ": must be in [50, 99]") ++
  check (1 ≤ c.evictionBatchPct && c.evictionBatchPct < c.evictionWatermarkPct)
    ("eviction_batch_pct " ++ toString c.evictionBatchPct ++
      ": must be in [1, eviction_watermark_pct " ++
      toString c.evictionWatermarkPct ++ ")") ++
  check (0 ≤ c.evictionGhostEntries)
    ("eviction_ghost_entries " ++ toString c.evictionGhostEntries ++ ": must be >= 0 (0 = auto)")

def s3Errors (c : Config) : List String :=
  if c.s3Bucket = "" then []
  else
    check (0 < c.nvmePaths.length)
      "s3_bucket set but nvme_paths empty — the cold tier spills SEALED NVMe segments" ++
    check (c.nvmePaths.length ≤ 1)
      ("s3_bucket set with " ++ toString c.nvmePaths.length ++
        " nvme_paths — the cold tier supports a single volume (segment object keys carry no " ++
        "volume dimension; multi-volume spill would collide)") ++
    check
      (c.s3NodeID != "") "s3_bucket set but s3_node_id empty — object keys must be node-namespaced"

def pathErrors (std : Std) : List String → List String → List String
  | [], _ => []
  | p :: ps, seen =>
    check (p != "") "nvme_paths: empty path entry" ++
    check (!seen.contains (std.clean p))
      ("nvme_paths: duplicate path " ++ p.quote ++ " (normalized " ++ (std.clean p).quote ++ ")") ++
    pathErrors std ps (std.clean p :: seen)

/-- The separator makes a parent a proper one: `/ab` is not inside `/a`. -/
def nested (inner outer : String) : Bool := (outer ++ "/").toList.isPrefixOf inner.toList

def nestedErrors (cleaned : List String) : List String :=
  cleaned.zipIdx.flatMap fun (inner, i) => cleaned.zipIdx.flatMap fun (outer, j) =>
    check (i == j || !nested inner outer)
      ("nvme_paths: " ++ inner.quote ++ " is nested inside " ++ outer.quote ++
        " — volumes must not overlap")

def nvmeErrors (std : Std) (c : Config) : List String :=
  if c.nvmePaths = [] then []
  else
    let minSeg := Nvme.minSegmentBytes c.maxBlobLen
    let segments := 2 * c.nvmeSegmentBytes * c.nvmePaths.length
    pathErrors std c.nvmePaths [] ++
    nestedErrors (c.nvmePaths.map std.clean) ++
    check ((minSeg : ℤ) ≤ c.nvmeSegmentBytes && c.nvmeSegmentBytes % 4096 == 0 &&
      c.nvmeSegmentBytes < 4294967295)
      ("nvme_segment_bytes " ++ toString c.nvmeSegmentBytes ++ ": must be a 4096-multiple in [" ++
        toString minSeg ++ " (one max_blob_len record + footer), 4 GiB)") ++
    check (segments < c.nvmeMaxBytes)
      ("nvme_max_bytes " ++ toString c.nvmeMaxBytes ++ ": must exceed 2 segments per volume (" ++
        toString segments ++ ") — reclaim needs headroom") ++
    check (1 ≤ c.nvmeReadWorkers && c.nvmeReadWorkers ≤ 1024)
      ("nvme_read_workers " ++ toString c.nvmeReadWorkers ++ ": must be in [1, 1024]") ++
    check (50 ≤ c.nvmeDemoteWatermarkPct && c.nvmeDemoteWatermarkPct < c.evictionWatermarkPct)
      ("nvme_demote_watermark_pct " ++ toString c.nvmeDemoteWatermarkPct ++
        ": must be in [50, eviction_watermark_pct " ++ toString c.evictionWatermarkPct ++
        ") — demotion runs below eviction") ++
    check (1 ≤ c.nvmeDemoteBatchPct && c.nvmeDemoteBatchPct < c.nvmeDemoteWatermarkPct)
      ("nvme_demote_batch_pct " ++ toString c.nvmeDemoteBatchPct ++
        ": must be in [1, nvme_demote_watermark_pct " ++
        toString c.nvmeDemoteWatermarkPct ++ ")") ++
    check (0 < c.nvmeSyncEveryBytes)
      ("nvme_sync_every_bytes " ++ toString c.nvmeSyncEveryBytes ++
        ": must be > 0 (the group-commit ledger)") ++
    check (0 ≤ c.nvmeCkptEverySegments)
      ("nvme_ckpt_every_segments " ++ toString c.nvmeCkptEverySegments ++
        ": must be >= 0 (0 = never)") ++
    check (c.evictionPolicy != "none")
      "nvme_paths set with eviction_policy \"none\": the demoter needs a policy to nominate victims"

/-- The errors of a configuration, in the order of its checks; none is an accepted one. -/
def validate (std : Std) (c : Config) : List String :=
  addrErrors std c ++ limitErrors c ++ socketErrors c ++ dramErrors c ++ s3Errors c ++
    nvmeErrors std c

def wireLimits (c : Config) : Limits where
  maxBatchKeys := c.maxBatchKeys
  maxFrameLen := c.maxFrameLen
  maxBlobLen := c.maxBlobLen
  initialCredit := c.initialCredit

theorem wireLimits_validated {std : Std} {c : Config} (h : validate std c = []) :
    c.wireLimits.Validated := by
  simp only [validate, List.append_eq_nil_iff] at h
  obtain ⟨⟨⟨⟨⟨-, hlim⟩, -⟩, -⟩, -⟩, -⟩ := h
  simp only [limitErrors, List.append_eq_nil_iff, check_eq_nil, decide_eq_true_eq] at hlim
  obtain ⟨⟨⟨⟨⟨⟨⟨⟨⟨⟨⟨-, hk⟩, hK⟩, hf⟩, hF⟩, hb⟩, hc⟩, hC⟩, hle⟩, -⟩, -⟩, -⟩ := hlim
  exact ⟨hk, hK, hf, hF, hb, hc, hC, hle⟩

/-- The defaults pass every check, where the three default addresses are well formed. -/
theorem validate_default {std : Std} (haddr : ∀ a ∈ [":9440", "127.0.0.1:9441", "127.0.0.1:9442"],
    std.listenAddrError a = none) : validate std default = [] := by
  have hdata : std.listenAddrError default.listenAddr = none := haddr _ (by simp [default])
  have hadmin : std.listenAddrError default.adminAddr = none := haddr _ (by simp [default])
  have hmetrics : std.listenAddrError default.metricsAddr = none := haddr _ (by simp [default])
  have ha : addrErrors std default = [] := by
    have hpprof : default.pprofAddr = "" := rfl
    have hs3 : default.s3CompatAddr = "" := rfl
    have hset : check (default.listenAddr != "") "listen_addr: the data-plane address must be set" =
        [] := by decide
    simp only [addrErrors, List.flatMap_cons, hdata, hadmin, hmetrics, hpprof, hs3, hset,
      if_true, ite_self, List.flatMap_nil, List.append_nil]
  have hl : limitErrors default = [] := by decide
  have hs : socketErrors default = [] := by decide
  have hd : dramErrors default = [] := by decide
  have h3 : s3Errors default = [] := by decide
  have hn : nvmeErrors std default = [] := if_pos rfl
  rw [validate, ha, hl, hs, hd, h3, hn]
  rfl

end Config

end KVStash
