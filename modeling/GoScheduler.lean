import GoScheduler.Store.Lifecycle
import GoScheduler.Iam.Memberships
import GoScheduler.Iam.RefreshSessions
import GoScheduler.Notification.Publication
import GoScheduler.Store.Idempotency
import GoScheduler.Core.JobService
import GoScheduler.Store.Cancellation
import GoScheduler.Store.JobVersions
import GoScheduler.Executor.CancelledRuns
import GoScheduler.Store.DependencyUpdate
import GoScheduler.Store.ClaimProgress
import GoScheduler.Store.QueueBound
import GoScheduler.Store.Partitions
import GoScheduler.Schedule.Misfire
import GoScheduler.Schedule.Progress
import GoScheduler.Core.ConsistentHash
import GoScheduler.Core.RouteFairness
import GoScheduler.Store.Broadcast
import GoScheduler.Store.RunLogBatches
import GoScheduler.Executor.Output
import GoScheduler.Executor.Slots
import GoScheduler.Executor.Probes
import GoScheduler.Executor.History
import GoScheduler.Executor.FailedDispatch
import GoScheduler.Notification.RetryDelay
import GoScheduler.ErrorTexts
import GoScheduler.Api.LoginLimiter
import GoScheduler.Core.ExecutorPool
import GoScheduler.Notification.History
import GoScheduler.Executor.SurvivingRuns
import GoScheduler.Core.Workers
