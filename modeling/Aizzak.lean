import Aizzak.WorkflowStreams
import Aizzak.MediaJobRuns
import Aizzak.FirstLogins
import Aizzak.Withdrawals
import Aizzak.LastAdministrator
import Aizzak.LastOwner
import Aizzak.ConnectionLifecycle
import Aizzak.TokenRenewals
import Aizzak.CorpusClaims
import Aizzak.BackupPruning
import Aizzak.TaskScheduler
import Aizzak.TransitRewrap
import Aizzak.UsageSummaries
import Aizzak.CorpusDeletions
import Aizzak.MemoryItems
import Aizzak.TokenCharges
import Aizzak.PeriodResets
import Aizzak.QuotaAdmission
import Aizzak.QuotaDecisions
import Aizzak.SlotSettlement
import Aizzak.MultipartUploads
import Aizzak.ReplacementConvergence
import Aizzak.EntityLanes
import Aizzak.PendingReclaims
import Aizzak.DeliveryBudget
import Aizzak.StreamTrimming
import Aizzak.ReplayRuns
import Aizzak.NotificationFanout
import Aizzak.OutboxOrder
import Aizzak.ProviderPermits
import Aizzak.RateLimiter
import Aizzak.ConnectionCap
import Aizzak.TableFailures
import Aizzak.SummarySections
import Aizzak.EmbeddingCache
import Aizzak.ConsumerReads
import Aizzak.CorpusVectors
import Aizzak.IdempotentCreate
import Aizzak.BatchCoalescing
import Aizzak.PlcKeys
import Aizzak.TerminalKeys
import Aizzak.AddedLabels
import Aizzak.ProfileConfidence
import Aizzak.ProfileFingerprints
import Aizzak.ProfileVersions
import Aizzak.ContextRetrieval
import Aizzak.TallyStorage
import Aizzak.DocumentLifecycle
import Aizzak.SummaryDeliveryRuns
import Aizzak.WorkspacePurge
import Aizzak.IngestionFencing
import Aizzak.UninterruptedRun
import Aizzak.IngestionEndings
import Aizzak.EmptiedSpaces
import Aizzak.SocketRuns
import Aizzak.ChunkNumbering
import Aizzak.SemanticBatches
import Aizzak.SummaryLadder
import Aizzak.ClarificationReplies
import Aizzak.NearDuplicates
import Aizzak.StopWords
import Aizzak.MarginalRelevance
import Aizzak.FusionLaws
import Aizzak.CollectionNames
import Aizzak.LocalFallback
import Aizzak.OpenQuestions
import Aizzak.RunningBands
import Aizzak.SheetTables
import Aizzak.HostSizing
import Aizzak.ToolRouting
import Aizzak.WorkspaceListings
