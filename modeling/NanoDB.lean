import NanoDB.CTypes
import NanoDB.DoublyLinkedList
import NanoDB.Library.ChainedTable
import NanoDB.HashMap
import NanoDB.Schema
import NanoDB.Library.Buffer
import NanoDB.Row
import NanoDB.Page
import NanoDB.DiskManager
import NanoDB.BufferPool
import NanoDB.PoolInvariant
import NanoDB.Library.Recency
import NanoDB.PoolRecency
import NanoDB.PageKeys
import NanoDB.PoolCoherence
import NanoDB.PoolAccess
import NanoDB.Token
import NanoDB.Lexer
import NanoDB.Library.OperatorPrecedence
import NanoDB.Parser
import NanoDB.WhereClause
import NanoDB.Evaluator
import NanoDB.ShuntingYard
import NanoDB.Library.ParenthesisBalance
import NanoDB.WhereAcceptance
import NanoDB.Executor
import NanoDB.Engine
import NanoDB.RecordScan
import NanoDB.ExecutorRefinement
import NanoDB.SweepRefinement
import NanoDB.EngineRuns
import NanoDB.InsertRows
import NanoDB.FlushVisibility
import NanoDB.ScanAgreement
import NanoDB.AVLTree
import NanoDB.AVLBalance
import NanoDB.AVLMap
import NanoDB.Library.HeapOrder
import NanoDB.PriorityQueue
import NanoDB.QueryQueue
import NanoDB.FieldCompare
import NanoDB.RowRoundTrip
import NanoDB.LexerRoundTrip
import NanoDB.PageSafety
import NanoDB.WriteFailures
import NanoDB.JoinExecutor
import NanoDB.LeftoverValues
import NanoDB.AVLIndex
import NanoDB.IndexScan
import NanoDB.IndexAgreement
import NanoDB.JoinOrder
import NanoDB.SignedLiterals
import NanoDB.Negation
import NanoDB.ColumnList
import NanoDB.ValueList
import NanoDB.WrittenPages
import NanoDB.DirtyMarks
import NanoDB.PageEffects
import NanoDB.Library.LimitedOutput
import NanoDB.PinnedPage
import NanoDB.JoinPairs
import NanoDB.JoinResult
import NanoDB.BoolComparison
import NanoDB.IndexCompleteness
import NanoDB.ListRuns
import NanoDB.Reencoding
import NanoDB.SlottedPage
import NanoDB.Library.SpanningForest
import NanoDB.SpanningTree
import NanoDB.JoinWhere
import NanoDB.DefinedArithmetic
import NanoDB.DataGenerator
import NanoDB.GeneratedFiles
import NanoDB.CheckedLexer
import NanoDB.CheckedParser
import NanoDB.SafeParsing
import NanoDB.CheckedUnionFind
import NanoDB.Library.RowBag
import NanoDB.PageRows
import NanoDB.RelationalRefinement
import NanoDB.Sessions
import NanoDB.SqlRuns
import NanoDB.SqlSessions
import NanoDB.CrashSafety
import NanoDB.FileBounds
import NanoDB.Startup
import NanoDB.PoolMisses
import NanoDB.Library.SharedStore
import NanoDB.Readers
import NanoDB.Workload
import NanoDB.Console
import NanoDB.FreeSlots
import NanoDB.IndexBenchmark
import NanoDB.StatementLaws
