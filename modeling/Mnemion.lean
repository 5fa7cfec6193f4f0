import Mnemion.Outcome
import Mnemion.Machine
import Mnemion.ByteLines
import Mnemion.JournalFormat
import Mnemion.JournalIndex
import Mnemion.JournalTree
import Mnemion.JournalRollover
import Mnemion.JournalSeries
import Mnemion.JournalAppend
import Mnemion.JournalGit
import Mnemion.JournalFolding
import Mnemion.JournalRepresents
import Mnemion.JournalHistory
import Mnemion.JournalProjection
import Mnemion.JournalInventory
import Mnemion.JournalComplete
import Mnemion.Table
import Mnemion.CaptureFence
import Mnemion.ConnectorSync
import Mnemion.HostProtocol
import Mnemion.HostTables
import Mnemion.HostStore
import Mnemion.HostOperations
import Mnemion.HostAuthority
import Mnemion.ConversationCapture
import Mnemion.ConversationFold
import Mnemion.ConversationLoop
import Mnemion.ConversationResume
import Mnemion.DiscreteLaplace
import Mnemion.TelemetryWire
import Mnemion.AggregateWindow
import Mnemion.Base64
import Mnemion.KeepassContainer
import Mnemion.XmlText
import Mnemion.KeepassDocument
import Mnemion.KeepassOrder
import Mnemion.KeepassReading
import Mnemion.KeepassStream
import Mnemion.KeepassReturn
import Mnemion.KeepassRoundTrip
import Mnemion.TelemetryPolicy
import Mnemion.TelemetryDelivery
import Mnemion.TelemetryRuns
import Mnemion.TelemetryBudget
import Mnemion.History
import Mnemion.TelemetryConsent
import Mnemion.BackupProtection
import Mnemion.BackupCleanup
import Mnemion.VaultTables
import Mnemion.VaultService
import Mnemion.VaultChanges
import Mnemion.VaultAudit
import Mnemion.WritebackTables
import Mnemion.WritebackDelivery
import Mnemion.WritebackPublication
import Mnemion.WritebackJournal
import Mnemion.BackfillRun
import Mnemion.BackfillCoverage
import Mnemion.RecoveryOrigins
import Mnemion.RecoveryLedger
import Mnemion.RecoveryHistory
import Mnemion.RecoveryRestore
import Mnemion.Paging
import Mnemion.UploadReview
import Mnemion.UploadBatches
import Mnemion.UploadStaging
import Mnemion.UploadRecords
import Mnemion.UploadContents
import Mnemion.UploadInventory
import Mnemion.UploadEquality
import Mnemion.UploadChunks
import Mnemion.JournalOrder
import Mnemion.IndexDispatch
import Mnemion.JournalProtection
import Mnemion.JournalEvolution
import Mnemion.JournalVisits
import Mnemion.JsonText
import Mnemion.PythonStrings
import Mnemion.JournalNotes
import Mnemion.JournalViews
import Mnemion.JournalRefresh
import Mnemion.ConnectorService
import Mnemion.ConnectorHistory
import Mnemion.ConnectorRuns
import Mnemion.ConnectorWithhold
import Mnemion.ConnectorExposure
import Mnemion.ConnectorHoldings
import Mnemion.ConnectorLocalWork
import Mnemion.ConnectorAdvance
import Mnemion.ConnectorSweep
import Mnemion.ConnectorReceipts
import Mnemion.ConnectorClient
import Mnemion.HostWorker
import Mnemion.PassageSpan
import Mnemion.PassageTime
import Mnemion.PassageChronology
import Mnemion.PassageAges
import Mnemion.CaptureObservations
import Mnemion.JournalSpool
import Mnemion.Postcondition
import Mnemion.CaptureAccounting
import Mnemion.CaptureFairness
import Mnemion.CaptureDelivery
import Mnemion.JournalCache
import Mnemion.JournalConvergence
import Mnemion.JournalContinuity
import Mnemion.JournalConflicts
import Mnemion.PassageSegments
import Mnemion.Bisect
import Mnemion.EmbeddingSpans
import Mnemion.AggregateQuantiles
import Mnemion.InferenceGate
import Mnemion.InferenceTurns
import Mnemion.InferenceFairness
import Mnemion.CapturePause
import Mnemion.PortablePaths
import Mnemion.VaultPaths
import Mnemion.VaultRenames
import Mnemion.TelemetryCatalog
import Mnemion.TelemetrySummary
import Mnemion.TelemetryAgreement
import Mnemion.EnvelopeRadius
import Mnemion.PythonValue
import Mnemion.AggregateDocument
import Mnemion.AggregateLaws
import Mnemion.AggregatePublish
import Mnemion.SourceChunks
