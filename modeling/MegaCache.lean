import MegaCache.Auth.Manager
import MegaCache.Cluster.LeaseAccounts
import MegaCache.Cluster.Placement
import MegaCache.Cluster.Transfer
import MegaCache.Controlplane.AuditCuts
import MegaCache.Controlplane.Metering
import MegaCache.Controlplane.Outcomes
import MegaCache.Controlplane.PendingDeletions
import MegaCache.Controlplane.TenantRuntime
import MegaCache.Engine.Copies
import MegaCache.Engine.Counts
import MegaCache.Engine.JournalOrder
import MegaCache.Events.Adapters
import MegaCache.Events.Framing
import MegaCache.Events.Storable
import MegaCache.Intelligence.Guardrail
import MegaCache.Origin.Addresses
import MegaCache.Origin.EncodedPaths
import MegaCache.Origin.Loaded
import MegaCache.Origin.Ownership
import MegaCache.Origin.RefreshQueue
import MegaCache.Origin.Slots
import MegaCache.Origin.Staleness
import MegaCache.Protocols.Agreement
import MegaCache.Protocols.Confinement
import MegaCache.Resp.Framing
import MegaCache.Resp.NodeWaiters
import MegaCache.Sdk.Freshness
import MegaCache.Sdk.NodeCoherence
