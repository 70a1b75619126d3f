import Zshrs.Daemon.LockExclusion
import Zshrs.Daemon.DispatchRuns
import Zshrs.Daemon.Ipc
import Zshrs.Daemon.WireFormat
import Zshrs.Daemon.WireStream
import Zshrs.Lib.OrdMap
import Zshrs.Daemon.Registry
import Zshrs.Lib.Minting
import Zshrs.Daemon.RegistryTables
import Zshrs.Daemon.RegistryRefs
import Zshrs.Daemon.RegistryRuns
import Zshrs.Lib.Pieces
import Zshrs.Parse.Ecstr
import Zshrs.Parse.EcstrRuns
import Zshrs.Parse.EcstrReads
import Zshrs.Exec.Evalcond
import Zshrs.Parse.CondExpr
import Zshrs.Exec.CondStatus
import Zshrs.Exec.CondRuns
import Zshrs.Parse.CondFuel
import Zshrs.Exec.CondMeaning
import Zshrs.Math.State
import Zshrs.Math.Zzlex
import Zshrs.Math.Eval
import Zshrs.Lib.Lockstep
import Zshrs.Math.Cursor
import Zshrs.Math.Operands
import Zshrs.Math.Muted
import Zshrs.Math.Growth
import Zshrs.Math.Noeval
import Zshrs.Math.NoevalFrame
import Zshrs.Glob.Gmatchcmp
import Zshrs.Glob.NumericOrder
import Zshrs.Glob.NameTokens
import Zshrs.Lib.Comparators
import Zshrs.Glob.NameOrder
import Zshrs.Glob.MatchOrder
import Zshrs.Glob.SortMatches
import Zshrs.Daemon.Shard
import Zshrs.Daemon.ShardRuns
import Zshrs.Daemon.Jobs
import Zshrs.Daemon.JobsRuns
import Zshrs.Daemon.JobsLifecycle
import Zshrs.Pattern.Spelling
import Zshrs.Pattern.Nodes
import Zshrs.Pattern.Brackets
import Zshrs.Pattern.Patcompile
import Zshrs.Lib.Fuel
import Zshrs.Pattern.PatcompEnds
import Zshrs.Pattern.PatCache
import Zshrs.Pattern.CacheRuns
import Zshrs.Glob.Scanner
import Zshrs.Glob.ScanChoices
import Zshrs.Glob.ScanRuns
import Zshrs.Glob.Hasbraces
import Zshrs.Glob.Xpandbraces
import Zshrs.Daemon.Canonical
import Zshrs.Daemon.CanonicalRuns
import Zshrs.Daemon.CanonicalShard
import Zshrs.Daemon.CanonicalFields
import Zshrs.Daemon.CanonicalRestart
import Zshrs.Daemon.SnapshotRestore
import Zshrs.Lib.Bytes
import Zshrs.Lib.Utf8
import Zshrs.Terminfo.Reading
import Zshrs.Terminfo.RoundTrip
import Zshrs.Terminfo.Contained
import Zshrs.Zle.LineString
import Zshrs.Zle.LineEncode
import Zshrs.Zle.LineDecode
import Zshrs.Zle.LineRoundTrip
import Zshrs.Lib.Patches
import Zshrs.Zle.Undo
import Zshrs.Zle.UndoHistory
import Zshrs.Zle.UndoSteps
import Zshrs.Zle.UndoMerge
import Zshrs.Zle.UndoRuns
import Zshrs.Zle.Positions
import Zshrs.Zle.PositionsEdit
import Zshrs.Zle.PositionsRuns
import Zshrs.Par.Pfirst
import Zshrs.Par.Puniq
import Zshrs.Lib.Lines
import Zshrs.Par.LineChunks
import Zshrs.Lib.Binary64
import Zshrs.Par.Psort
import Zshrs.Daemon.JobsOutput
import Zshrs.Math.Conditionals
import Zshrs.Math.Evaluates
import Zshrs.Lib.FileTree
import Zshrs.Pkg.Store
import Zshrs.Pkg.Resolver
import Zshrs.Pkg.Commands
import Zshrs.Pkg.Confined
import Zshrs.Pkg.Installs
import Zshrs.Pkg.StoreRuns
import Zshrs.Pkg.Pinned
import Zshrs.Parse.EcCalls
import Zshrs.Parse.Pending
import Zshrs.Parse.Grammar
import Zshrs.Parse.Productions
import Zshrs.Parse.ParseRuns
import Zshrs.Daemon.Pubsub
import Zshrs.Glob.NumericRange
import Zshrs.Lib.TolerantSort
import Zshrs.Sort.Collations
import Zshrs.Sort.Strmetasort
import Zshrs.Lib.EditDistance
import Zshrs.Pattern.Approx
import Zshrs.Pattern.Substring
import Zshrs.Lib.Decimal
import Zshrs.Pattern.Numrange
import Zshrs.Pattern.CompiledRanges
import Zshrs.Glob.Igetmatch
import Zshrs.Glob.Selection
import Zshrs.Math.ArithCompiler
import Zshrs.Math.ScanAgrees
import Zshrs.Daemon.Base64
import Zshrs.Daemon.KeyOrder
import Zshrs.Math.IntPower
import Zshrs.Zle.Autopair
import Zshrs.Zle.AutopairUndo
import Zshrs.Daemon.SnapshotRecords
import Zshrs.Pkg.SourceForms
import Zshrs.Pkg.SourceLabels
import Zshrs.Pkg.SourceReadings
import Zshrs.Lib.Loops
import Zshrs.Tparm.Bounds
import Zshrs.Tparm.Delays
import Zshrs.Tparm.Tputs
import Zshrs.Tparm.Counting
import Zshrs.Tparm.Directives
import Zshrs.Tparm.Structured
import Zshrs.Fmt.FormatSource
import Zshrs.Glob.QualAccepts
import Zshrs.Glob.QualConjoin
import Zshrs.Daemon.ArtifactGc
import Zshrs.Parse.ZwcFile
import Zshrs.Parse.DumpRuns
