import KVStash.Dram.Probe
import KVStash.Dram.OffsetAlloc.Pool
import KVStash.Tiered.Ledger
import KVStash.Tiered.ObjectGC
import KVStash.Tiered.Reclaim
import KVStash.Tiered.LeasePromise
import KVStash.Tiered.HardPin
import KVStash.Tiered.DeleteComplete
import KVStash.Tiered.ProtectionVerbs
import KVStash.Tiered.Sequential
import KVStash.Tiered.Breaker
import KVStash.Tiered.AtRest
import KVStash.Tiered.Spiller
import KVStash.Nvme.Checked
import KVStash.Nvme.Committed
import KVStash.Wire.Strict
import KVStash.Daemon
import KVStash.Server.Staging
import KVStash.Server.PutCommit
import KVStash.Server.Range
import KVStash.Transport.Conservation
import KVStash.Client.Handshakes
import KVStash.Client.RoundTrip
import KVStash.Client.ConnPool
import KVStash.PyClient.Refinement
import KVStash.Eviction.Concurrent.Quiescent
import KVStash.Eviction.Budget
import KVStash.Eviction.Ghost
import KVStash.Tenant.Convergence
import KVStash.Tenant.Counter
import KVStash.Tenant.TokenHash
import KVStash.Connector.ChainIdentity
import KVStash.Connector.PageKeys
import KVStash.Connector.Retrieve
