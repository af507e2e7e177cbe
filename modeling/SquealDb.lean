import SquealDb.Lib.Run
import SquealDb.Lib.VersionChain
import SquealDb.Lib.Bytes
import SquealDb.Lib.OrderCode
import SquealDb.Lib.Varint
import SquealDb.Lib.ByteReader
import SquealDb.Lib.Buffer
import SquealDb.Lib.Bisect
import SquealDb.Lib.Attempt
import SquealDb.Lib.Spans
import SquealDb.Lib.SortedMap
import SquealDb.Lib.Binary64
import SquealDb.Lib.Fallible
import SquealDb.Lib.RowStream
import SquealDb.Lib.Segments
import SquealDb.Lib.Overlay
import SquealDb.Lib.Script
import SquealDb.Lib.Json
import SquealDb.Lib.Rounds
import SquealDb.Lib.Wildcard
import SquealDb.Lib.ParentPointers
import SquealDb.Lib.Orderly
import SquealDb.Lib.Combinator
import SquealDb.Lib.Utf8Slice
import SquealDb.Codec.ValueItem
import SquealDb.Codec.KeyCode
import SquealDb.Codec.Wire
import SquealDb.Codec.IdRef
import SquealDb.Codec.KeyOrder
import SquealDb.Codec.KeyRoundTrip
import SquealDb.Codec.TupleCodec
import SquealDb.Codec.LentId
import SquealDb.Codec.TupleDecode
import SquealDb.Codec.KeyPrefix
import SquealDb.Codec.ValueBytes
import SquealDb.Codec.KeyRange
import SquealDb.Codec.RowReader
import SquealDb.Codec.LogRecord
import SquealDb.Codec.LogScan
import SquealDb.Page.Slotted
import SquealDb.Page.SlottedLayout
import SquealDb.Page.SlottedSteps
import SquealDb.Page.SlottedOps
import SquealDb.Page.SlottedBounds
import SquealDb.Page.SlottedReload
import SquealDb.Page.SlottedSearch
import SquealDb.Page.SlottedMap
import SquealDb.Page.Space
import SquealDb.Page.Refusal
import SquealDb.Page.Accounting
import SquealDb.Cache.PageCache
import SquealDb.Cache.Coherence
import SquealDb.Tree.Blink
import SquealDb.Tree.Splits
import SquealDb.Tree.Descent
import SquealDb.Tree.DescentInv
import SquealDb.Tree.DescentSteps
import SquealDb.Tree.Lookup
import SquealDb.Tree.LeafChain
import SquealDb.Tree.TreeKey
import SquealDb.Tree.KeyRange
import SquealDb.Tree.RangeScan
import SquealDb.Tree.ScannedRanges
import SquealDb.Tree.Contents
import SquealDb.Store.Record
import SquealDb.Store.Txn
import SquealDb.Store.TxnVisibility
import SquealDb.Store.TxnRun
import SquealDb.Store.Version
import SquealDb.Store.Db
import SquealDb.Store.History
import SquealDb.Store.Decision
import SquealDb.Store.Invariant
import SquealDb.Store.Writing
import SquealDb.Store.Maintenance
import SquealDb.Store.Ending
import SquealDb.Store.Interleaving
import SquealDb.Store.RowStep
import SquealDb.Store.SnapshotReads
import SquealDb.Store.AbortUndo
import SquealDb.Store.Recovery
import SquealDb.Store.Replay
import SquealDb.Store.RecoveredRows
import SquealDb.Store.Threads
import SquealDb.Store.WritesInv
import SquealDb.Store.LateWrites
import SquealDb.Store.Generator
import SquealDb.Store.Sequences
import SquealDb.Store.TreeWrite
import SquealDb.Store.FailedWrites
import SquealDb.Store.FailedCommit
import SquealDb.Store.Retention
import SquealDb.Store.LogQueue
import SquealDb.Store.CommitSync
import SquealDb.Store.Reclaim
import SquealDb.Store.Issued
import SquealDb.Store.Founding
import SquealDb.Store.Sessions
import SquealDb.Store.Views
import SquealDb.Store.Calls
import SquealDb.Store.Server
import SquealDb.Store.Keeping
import SquealDb.Store.PurgeRedo
import SquealDb.Store.Snapshots
import SquealDb.Sql.Numeric
import SquealDb.Sql.Operators
import SquealDb.Sql.Expr
import SquealDb.Sql.Rows
import SquealDb.Sql.Group
import SquealDb.Sql.Equality
import SquealDb.Sql.SqlOrder
import SquealDb.Sql.Sarg
import SquealDb.Sql.Allowed
import SquealDb.Sql.Partition
import SquealDb.Sql.Routing
import SquealDb.Sql.Points
import SquealDb.Sql.Pruning
import SquealDb.Sql.Totals
import SquealDb.Sql.GroupTotals
import SquealDb.Sql.BatchTotal
import SquealDb.Sql.OnlyTotals
import SquealDb.Sql.RowOrder
import SquealDb.Sql.Sort
import SquealDb.Sql.SortRuns
import SquealDb.Sql.SortRounds
import SquealDb.Sql.SortResult
import SquealDb.Sql.DataType
import SquealDb.Sql.Like
import SquealDb.Sql.SetOps
import SquealDb.Sql.SortOrder
import SquealDb.Sql.Fold
import SquealDb.Sql.IntegerExpr
import SquealDb.Sql.IntegerArithmetic
import SquealDb.SqlParser.Lexer
import SquealDb.SqlParser.HandLexer
import SquealDb.Table.Packed
import SquealDb.Table.Versions
import SquealDb.Table.Rows
import SquealDb.Table.RowReading
import SquealDb.Table.RowForms
import SquealDb.Table.RowHistory
import SquealDb.Table.Readers
import SquealDb.Table.Batch
import SquealDb.Table.BatchColumns
import SquealDb.Table.BatchRows
import SquealDb.Table.Statements
import SquealDb.Table.FailedStatements
import SquealDb.Table.Entries
import SquealDb.Table.Consistent
import SquealDb.Table.IndexAgreement
import SquealDb.Table.UniqueRows
import SquealDb.Conn.TableLock
import SquealDb.Conn.HeldStill
import SquealDb.Conn.Transactions
import SquealDb.Conn.Deadlock
import SquealDb.Doc.Multikey
import SquealDb.Doc.Value
import SquealDb.Doc.Order
import SquealDb.Doc.Keys
import SquealDb.Doc.Collection
import SquealDb.Doc.IndexAgreement
import SquealDb.Doc.ExtendedJson
import SquealDb.Doc.JsonRoundTrip
import SquealDb.Doc.Runs
import SquealDb.Doc.IndexRuns
import SquealDb.Doc.Filter
import SquealDb.Doc.Update
import SquealDb.Doc.FieldNames
import SquealDb.Doc.WellFormed
import SquealDb.Doc.StoredDocuments
import SquealDb.Doc.Query
import SquealDb.Doc.Client
import SquealDb.Doc.AllOrNothing
import SquealDb.Doc.EncodedOrder
import SquealDb.Doc.UniqueDocuments
