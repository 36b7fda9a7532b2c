import CodeSage.Lib.Steps
import CodeSage.Lib.KeyMap
import CodeSage.Lib.Tally
import CodeSage.Lib.Assoc
import CodeSage.Lib.Checked
import CodeSage.Lib.Vec
import CodeSage.Lib.Tarjan
import CodeSage.Lib.Reach
import CodeSage.Lib.Bfs
import CodeSage.Lib.Utf8
import CodeSage.Lib.Text
import CodeSage.Protocol.Control
import CodeSage.Protocol.Cancellation
import CodeSage.Protocol.Symbol
import CodeSage.Lib.Split
import CodeSage.Protocol.Handle
import CodeSage.Protocol.HandleCorrect
import CodeSage.Mcp.WorkState
import CodeSage.Mcp.Coordinator
import CodeSage.Mcp.Books
import CodeSage.Mcp.Effects
import CodeSage.Mcp.Eligible
import CodeSage.Mcp.Invariant
import CodeSage.Mcp.Admissions
import CodeSage.Mcp.Wakeups
import CodeSage.Mcp.Overview
import CodeSage.Mcp.OverviewBooks
import CodeSage.Mcp.OverviewFresh
import CodeSage.Mcp.Framing
import CodeSage.Mcp.FramingCorrect
import CodeSage.Graph.Scc
import CodeSage.Graph.SccSearch
import CodeSage.Graph.SccCorrect
import CodeSage.Graph.CallPath
import CodeSage.Graph.CallPathCorrect
import CodeSage.Lib.Banding
import CodeSage.Parser.Fingerprint
import CodeSage.Graph.Similar
import CodeSage.Graph.SimilarCorrect
import CodeSage.Graph.SimilarOrder
import CodeSage.Lib.Table
import CodeSage.Git.Store
import CodeSage.Git.Indexer
import CodeSage.Git.Content
import CodeSage.Git.Passes
import CodeSage.Git.Compose
import CodeSage.Git.Rekey
import CodeSage.Git.RekeySql
import CodeSage.Git.RekeySubstitution
import CodeSage.Git.Linear
import CodeSage.Git.Log
import CodeSage.Git.LogCorrect
import CodeSage.Git.Renames
import CodeSage.Git.Coupling
import CodeSage.Git.Removal
import CodeSage.Embed.Chunk
import CodeSage.Embed.ChunkSplit
import CodeSage.Embed.ChunkOverlap
import CodeSage.Embed.ChunkCorrect
import CodeSage.Graph.Resolver
import CodeSage.Graph.ResolverCorrect
import CodeSage.Graph.Enclosing
import CodeSage.Lib.Script
import CodeSage.Storage.Tables
import CodeSage.Storage.Structural
import CodeSage.Storage.StructuralCorrect
import CodeSage.Storage.Overlay
import CodeSage.Storage.OverlayCorrect
import CodeSage.Storage.Sidecars
import CodeSage.Storage.SidecarsCorrect
import CodeSage.Lib.Obligation
import CodeSage.Lib.Session
import CodeSage.Lib.Prog
import CodeSage.Parser.Detect
import CodeSage.Cli.Statewatcher
import CodeSage.Cli.StatewatcherKeeps
import CodeSage.Cli.StatewatcherCorrect
import CodeSage.Cli.StartLock
import CodeSage.Cli.StartLockCorrect
import CodeSage.Cli.HookLock
import CodeSage.Cli.HookLockCorrect
import CodeSage.Cli.HookFlight
import CodeSage.Mcp.Watchers
import CodeSage.Mcp.WatchersCorrect
import CodeSage.Graph.StructuralIndex
import CodeSage.Graph.StructuralIndexCorrect
import CodeSage.Graph.StructuralIndexRuns
import CodeSage.Graph.StructuralHistory
import CodeSage.Graph.SemanticIndex
import CodeSage.Graph.SemanticAttestation
import CodeSage.Graph.SemanticConverges
import CodeSage.Graph.SemanticHistory
import CodeSage.Parser.Header
import CodeSage.Parser.HeaderCorrect
import CodeSage.Lib.Except
import CodeSage.Review.Document
import CodeSage.Review.Evidence
import CodeSage.Review.Validate
import CodeSage.Review.ValidateCorrect
import CodeSage.Review.Merge
import CodeSage.Review.MergeCorrect
import CodeSage.Review.Runs
import CodeSage.Graph.Impact
import CodeSage.Graph.ImpactFollow
import CodeSage.Graph.ImpactLevels
import CodeSage.Graph.ImpactShared
import CodeSage.Graph.ImpactCorrect
import CodeSage.Graph.WalkCache
import CodeSage.Graph.WalkCacheCorrect
import CodeSage.Lib.Outline
import CodeSage.Graph.Trace
import CodeSage.Graph.TraceCorrect
import CodeSage.Lib.Lines
import CodeSage.Graph.ChunkLines
import CodeSage.Lib.Segments
import CodeSage.Graph.ImportPaths
import CodeSage.Graph.ImportPathsCorrect
import CodeSage.Lib.Ranking
import CodeSage.Graph.Fusion
import CodeSage.Graph.MentionAnchor
import CodeSage.Graph.MentionAnchorCorrect
import CodeSage.Review.Acknowledged
import CodeSage.Lib.Adjacent
import CodeSage.Review.EvidenceCorrect
import CodeSage.Graph.TopSymbols
import CodeSage.Graph.TopSymbolsCorrect
import CodeSage.Lib.Removal
import CodeSage.Graph.CycleGuidance
import CodeSage.Graph.CycleGuidanceCorrect
import CodeSage.Parser.HashCache
import CodeSage.Parser.HashCacheCorrect
import CodeSage.Parser.WatchFilter
import CodeSage.Graph.Session
import CodeSage.Graph.SessionCorrect
import CodeSage.Lib.Batching
import CodeSage.Lib.Client
import CodeSage.Embed.BatchPlan
import CodeSage.Cli.DaemonEmbed
import CodeSage.Cli.DaemonEmbedCorrect
import CodeSage.Cli.QueryReranker
import CodeSage.Graph.EditCheck
import CodeSage.Graph.EditCheckCorrect
import CodeSage.Protocol.Python
import CodeSage.Protocol.PythonCorrect
import CodeSage.Lib.Kahn
import CodeSage.Lib.Greedy
import CodeSage.Graph.RustModules
import CodeSage.Graph.RustModulesCorrect
import CodeSage.Lib.Calendar
import CodeSage.Git.UtcDate
import CodeSage.Lib.TextOrder
import CodeSage.Graph.LedgerPrune
import CodeSage.Lib.Json
import CodeSage.Mcp.Cost
import CodeSage.Lib.JsonPointer
import CodeSage.Lib.TextMap
import CodeSage.Mcp.Trim
import CodeSage.Mcp.TrimPaths
import CodeSage.Mcp.TrimRun
import CodeSage.Mcp.TrimKept
import CodeSage.Mcp.TrimCorrect
import CodeSage.Mcp.TrimListing
import CodeSage.Parser.Lexer
import CodeSage.Parser.DirectiveExtent
import CodeSage.Graph.SessionLedger
import CodeSage.Graph.SessionLedgerCorrect
import CodeSage.Lib.Brackets
import CodeSage.Parser.LexerSpans
import CodeSage.Parser.PreprocArms
import CodeSage.Parser.PreprocArmsCorrect
import CodeSage.Lib.Overwrite
import CodeSage.Parser.ExportMacro
import CodeSage.Parser.ExportMacroCorrect
import CodeSage.Storage.Migrations
import CodeSage.Storage.MigrationsCorrect
import CodeSage.Cli.BriefGate
import CodeSage.Cli.BriefGateCorrect
