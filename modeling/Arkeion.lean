import Arkeion.AnchorSound
import Arkeion.Lib.Sha2
import Arkeion.BuiltAudit
import Arkeion.AuditEnds
import Arkeion.GroupCommit
import Arkeion.ErrorAtomicity
import Arkeion.AppendCursor
import Arkeion.MergeResult
import Arkeion.VacuumResult
import Arkeion.DiffExact
import Arkeion.MergeBase
import Arkeion.PrefixWalk
import Arkeion.SplitFits
import Arkeion.KeyOrder
import Arkeion.Ownership
import Arkeion.NodeCodec
import Arkeion.TableScanSpec
import Arkeion.Sql.Window
import Arkeion.Sql.Plan
import Arkeion.Sql.Select
import Arkeion.Sql.StreamExact
import Arkeion.Sql.Resolve
import Arkeion.SchemaCodec
import Arkeion.LzssSpec
import Arkeion.RangeCoderSpec
import Arkeion.Densa
import Arkeion.EccSpec
import Arkeion.EccPages
import Arkeion.PageDirectory
import Arkeion.RecordWalk
import Arkeion.RecordAgree
import Arkeion.Lib.MapProgram
import Arkeion.TreeProgram
import Arkeion.Fts.Index
import Arkeion.Lib.BulkInsert
import Arkeion.Fts.Backfill
import Arkeion.TableWrite
import Arkeion.ForeignKeys
import Arkeion.SearchEntries
import Arkeion.TableRows
import Arkeion.Proto.Message
import Arkeion.Proto.RoundTrip
import Arkeion.Proto.Hostile
import Arkeion.Lib.LeastSet
import Arkeion.Sql.Recursive
import Arkeion.Sql.Order
import Arkeion.Lib.DepthGuard
import Arkeion.Sql.Trigger
import Arkeion.Sql.TriggerEnds
import Arkeion.Lib.Ranking
import Arkeion.Sql.WindowRank
import Arkeion.Sql.WindowExact
import Arkeion.Lib.Firsts
import Arkeion.Sql.Distinct
import Arkeion.Sql.DistinctGroups
import Arkeion.Lib.Grouping
import Arkeion.Lib.FoldOrder
import Arkeion.Sql.AggregateOrder
import Arkeion.Sql.GroupedOrder
import Arkeion.Sql.GroupOrders
import Arkeion.VarintSpec
import Arkeion.PageCache
import Arkeion.Lib.Decimal
import Arkeion.Lib.Calendar
import Arkeion.Sql.Datetime
import Arkeion.Lib.Utf8
import Arkeion.Sql.DatetimeSpec
import Arkeion.Sql.DatetimeText
import Arkeion.Fts.Tokenizer
import Arkeion.Fts.Excerpt
import Arkeion.TimeTravel
import Arkeion.Sql.Json
import Arkeion.Sql.JsonFunctions
import Arkeion.Sql.Parser
import Arkeion.Sql.Quote
import Arkeion.Sql.AstMeasure
import Arkeion.Lib.Credits
import Arkeion.Sql.GrammarSize
import Arkeion.Sql.StatementSize
import Arkeion.Fts.QueryParser
import Arkeion.Sql.Nesting
import Arkeion.Lib.SlidingWindow
import Arkeion.Fts.MinWindow
import Arkeion.Sql.OrderNeutral
import Arkeion.SchemaHistory
import Arkeion.ColumnList
import Arkeion.ColumnEvolution
import Arkeion.Sql.DatetimeChecked
import Arkeion.Sql.Functions
import Arkeion.Sql.FunctionPanics
import Arkeion.Sql.EvalPanics
import Arkeion.Sql.WindowPanics
import Arkeion.UpsertExact
import Arkeion.Fts.Upkeep
import Arkeion.Fts.Search
import Arkeion.Fts.Postings
import Arkeion.Fts.SearchExact
import Arkeion.TableSteps
import Arkeion.Database
import Arkeion.Referential
import Arkeion.BulkLoad
