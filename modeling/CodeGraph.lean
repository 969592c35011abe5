import CodeGraph.Graph.ImpactExact
import CodeGraph.Resolution.PythonModulesResolve
import CodeGraph.Resolution.RustUseLeaves
import CodeGraph.Resolution.PythonDefHeaders
import CodeGraph.Resolution.PythonMro
import CodeGraph.Db.WalValveRuns
import CodeGraph.Resolution.JsonStringLists
import CodeGraph.Resolution.GoBuildConstraints
import CodeGraph.Db.NameSubstringContract
import CodeGraph.Resolution.StripJsonc
import CodeGraph.Resolution.AliasSelection
import CodeGraph.Db.ReferenceTail
import CodeGraph.Extraction.StoreWriterContract
import CodeGraph.Mcp.HelloHandover
import CodeGraph.Search.EditDistance
import CodeGraph.Graph.NearDuplicates
import CodeGraph.Resolution.LruCache
import CodeGraph.Mcp.ExploreSession
import CodeGraph.Graph.TypeOrder
import CodeGraph.Graph.FileCycles
import CodeGraph.Graph.FindPath
import CodeGraph.Graph.CallersMany
import CodeGraph.Kernel.TreeRoundTrip
import CodeGraph.Kernel.WireRoundTrip
import CodeGraph.Resolution.ResolverPoolContract
import CodeGraph.Resolution.WorkspaceFingerprint
import CodeGraph.Resolution.ExportPatterns
import CodeGraph.Resolution.StrippersAgree
import CodeGraph.Resolution.ParameterFlow
import CodeGraph.Extraction.ParsePoolContract
import CodeGraph.Mcp.DaemonLock
import CodeGraph.Mcp.ProxyReplies
import CodeGraph.Mcp.ProxyWriter
import CodeGraph.Mcp.QueryPoolContract
import CodeGraph.Mcp.WriterLockOwner
import CodeGraph.Sync.WatcherEdits
import CodeGraph.Utils.FileLockExclusion
import CodeGraph.Graph.SymbolNarrowing
import CodeGraph.Graph.OverridesDropped
import CodeGraph.Resolution.QueryLookups
import CodeGraph.Resolution.PathsWithin
import CodeGraph.Graph.DirectedFlowExact
import CodeGraph.Extraction.ScriptsInPlace
import CodeGraph.Db.Migrations
import CodeGraph.Sessions.Index
import CodeGraph.Resolution.ConditionalsExact
import CodeGraph.Resolution.MacroTables
import CodeGraph.Resolution.MacroOwn
import CodeGraph.Resolution.MacroExpansion
import CodeGraph.Extraction.CppScansAgree
import CodeGraph.Graph.NamedFlowWalk
import CodeGraph.Resolution.RubyAncestry
import CodeGraph.Extraction.BraceIntervals
import CodeGraph.Resolution.UnitOffsets
import CodeGraph.Utils.Mutex
import CodeGraph.Resolution.WorkspaceGlobs
import CodeGraph.Graph.CallGraph
import CodeGraph.Graph.Traversal
