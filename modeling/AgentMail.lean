import AgentMail.Archive.Theorems.Basic
import AgentMail.BuildSlots.Theorems.Branch
import AgentMail.BuildSlots.Theorems.Conflict
import AgentMail.Cache.Theorems.Answers
import AgentMail.Clock.Theorems.Basic
import AgentMail.Coalesce.Theorems.Basic
import AgentMail.Coalescer.Theorems.Run
import AgentMail.CommitTree.Theorems.Commit
import AgentMail.Contacts.Theorems.Send
import AgentMail.Deadlock.Theorems.Engine
import AgentMail.EventRing.Theorems.Poll
import AgentMail.Experience.Theorems.Labeling
import AgentMail.Experience.Theorems.Lifecycle
import AgentMail.Fairness.Theorems.Burden
import AgentMail.FileLock.Theorems.Heal
import AgentMail.Fusion.Theorems.Candidates
import AgentMail.Fusion.Theorems.Order
import AgentMail.Fusion.Theorems.Preparation
import AgentMail.Guard.Theorems.Basic
import AgentMail.Guard.Theorems.Install
import AgentMail.Guard.Theorems.NameStatus
import AgentMail.Guard.Theorems.ReleasedTs
import AgentMail.Identity.Theorems.Remote
import AgentMail.Inbox.Theorems.Cache
import AgentMail.Inbox.Theorems.Stats
import AgentMail.Liveness.Theorems.States
import AgentMail.LockOrder.Theorems.Basic
import AgentMail.Metrics.Theorems.Histogram
import AgentMail.Migrate.Theorems.Run
import AgentMail.Migrate.Theorems.Timestamp
import AgentMail.OpenIndex.Theorems.Basic
import AgentMail.Pattern.Theorems.Cache
import AgentMail.Pattern.Theorems.Exact
import AgentMail.Pattern.Theorems.Panic
import AgentMail.Reconstruct.Theorems.Salvage
import AgentMail.Reservation.Theorems.Admission
import AgentMail.Reservation.Theorems.ChunkedRelease
import AgentMail.Reservation.Theorems.Cleanup
import AgentMail.Reservation.Theorems.Transaction
import AgentMail.Retention.Theorems.Wildcard
import AgentMail.Retry.Theorems.Basic
import AgentMail.RiskBudget.Theorems.Laws
import AgentMail.S3Fifo.Theorems.History
import AgentMail.Schema.Theorems.Dedup
import AgentMail.Search.Theorems.Assistance
import AgentMail.Search.Theorems.CacheKey
import AgentMail.Search.Theorems.Levenshtein
import AgentMail.Search.Theorems.Pagination
import AgentMail.Search.Theorems.Sanitize
import AgentMail.SearchCache.Theorems.Fresh
import AgentMail.Share.Theorems.Scope
import AgentMail.Share.Theorems.Snapshot
import AgentMail.Share.Theorems.Walk
import AgentMail.Touch.Theorems.Basic
import AgentMail.Updater.Theorems.Flush
import AgentMail.WriteBehind.Theorems.Run
