import SparkDeck.PromptGate.Slots
import SparkDeck.Usage.NoLoss
import SparkDeck.Usage.Converge
import SparkDeck.Usage.Erased
import SparkDeck.Admission.Exact
import SparkDeck.Cluster.Conserved
import SparkDeck.Cluster.FailoverSafety
import SparkDeck.CrashRetry.Budget
import SparkDeck.Vnas.Update
import SparkDeck.Vnas.SlotExclusive
import SparkDeck.Vnas.Restart
import SparkDeck.Vnas.Atomic
import SparkDeck.Proxy.NoLeak
import SparkDeck.Download.Job
import SparkDeck.Transfer.Rollback
import SparkDeck.FileStream.Confined
import SparkDeck.Fan.Agree
import SparkDeck.Lifecycle.Serial
import SparkDeck.Onboarding.Orderly
import SparkDeck.Update.Truthful
import SparkDeck.Update.Held
import SparkDeck.Jobs.Settled
import SparkDeck.Benchmark.Slot
import SparkDeck.Recreate.Transactional
import SparkDeck.Relaunch.Kept
import SparkDeck.Groups.Coherent
import SparkDeck.Strata.Reclaimed
import SparkDeck.Responses.Agree
import SparkDeck.Ports.Exclusive
import SparkDeck.Hooks.Exclusive
import SparkDeck.Startup.Backoff
import SparkDeck.Ownership.Kept
import SparkDeck.Bandwidth.Budget
import SparkDeck.Pins.Closed
import SparkDeck.Affinity.Follows
import SparkDeck.Balance.Fair
import SparkDeck.NodeStatus.Settled
import SparkDeck.LiveHistory.Prompts
import SparkDeck.LiveHistory.Tokens
import SparkDeck.LiveHistory.Timeline
import SparkDeck.Throttle.TokenBucket
import SparkDeck.EnvFile.Controls
import SparkDeck.Registry.Reference
import SparkDeck.Speed.Window
import SparkDeck.Responses.LastFrame
import SparkDeck.Pairing.Vault
import SparkDeck.Contamination.Symmetric
import SparkDeck.Routing.Fair
import SparkDeck.PullProxy.Direct
import SparkDeck.EventLog.Announced
import SparkDeck.Occupancy.Occupied
import SparkDeck.Consent.Cohorts
import SparkDeck.Hub.OneWriter
import SparkDeck.Responses.Replay
import SparkDeck.EventStream.Lifecycle
import SparkDeck.Fan.Daemon
import SparkDeck.StateCache.Fresh
import SparkDeck.Pricing.Owner
import SparkDeck.PromptGate.Detector
