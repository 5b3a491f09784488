import Syzy.FinMap
import Syzy.ExceptFold
import Syzy.LWW
import Syzy.Identity
import Syzy.SeqSet
import Syzy.Interval
import Syzy.RowState
import Syzy.Cache
import Syzy.Frontier
import Syzy.Changeset
import Syzy.Catalog
import Syzy.AppDB
import Syzy.Counter
import Syzy.Unique
import Syzy.BlobPatch
import Syzy.BlobReconcile
import Syzy.BlobDiff
import Syzy.Apply
import Syzy.Node
import Syzy.Schedule
import Syzy.RowGroup
import Syzy.Statement
import Syzy.Publish
import Syzy.CellRow
import Syzy.CellGroup
import Syzy.CounterSum
import Syzy.CounterRun
import Syzy.Snapshot
import Syzy.Recover
import Syzy.Machine
import Syzy.Replica
import Syzy.Books
import Syzy.ExactlyOnce
import Syzy.HLC
import Syzy.Registry
import Syzy.Reservation
import Syzy.Derivation
import Syzy.ByteMem
import Syzy.Journal
import Syzy.JournalRecovery
import Syzy.Sealer
import Syzy.RowChange
import Syzy.RowEvents
import Syzy.RowView
import Syzy.Touch
import Syzy.TouchFold
import Syzy.Sink
import Syzy.Evidence
import Syzy.Capture
import Syzy.Coordinated
import Syzy.ClaimsTrack
import Syzy.CausalLength
import Syzy.Presence
import Syzy.CausalRun
import Syzy.SelfLog
import Syzy.SelfLogRun
import Syzy.SelfCapture
import Syzy.SelfRecovery
import Syzy.Cas
import Syzy.Lease
import Syzy.Head
import Syzy.JournalSegments
import Syzy.JournalRoundTrip
import Syzy.Fleet
import Syzy.FleetIsolation
import Syzy.LayeredStamp
import Syzy.LazyMount
import Syzy.LazyMountRun
import Syzy.PagedImage
import Syzy.XorSum
import Syzy.WalReader
import Syzy.Ltx
import Syzy.Tailer
import Syzy.TailerPass
import Syzy.PhysicalRestore
import Syzy.RestoreChain
import Syzy.PageStream
import Syzy.StreamFidelity
import Syzy.WalLog
import Syzy.TailedLog
import Syzy.TailedLogRun
import Syzy.Reanchor
import Syzy.ReanchorRun
import Syzy.KeyedRows
import Syzy.SchemaCatalog
import Syzy.SchemaRows
import Syzy.CaptureTable
import Syzy.ColumnHistory
import Syzy.Naming
import Syzy.SchemaApply
import Syzy.SchemaIdentity
import Syzy.SchemaCatchup
import Syzy.CatchupRun
import Syzy.KeyRepair
import Syzy.KeyTuple
import Syzy.PgFold
import Syzy.PgSelfLog
import Syzy.PgCounter
import Syzy.PgAdopt
import Syzy.PgWinner
import Syzy.MeshConn
import Syzy.MeshTopics
import Syzy.JournalRetention
import Syzy.CounterRetry
import Syzy.IntervalLWW
import Syzy.StampFloor
import Syzy.GapPlan
import Syzy.EpochFetch
import Syzy.Reaper
import Syzy.LocalBlobClock
import Syzy.SchemaLog
