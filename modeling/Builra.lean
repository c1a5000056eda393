import Builra.Core.Success
import Builra.Core.CycleBreaking
import Builra.Core.Epochs
import Builra.Core.RequestOrder
import Builra.Core.Cleanup
import Builra.Core.BuildDBRoundTrip
import Builra.Macro.Quoting
import Builra.Macro.Sharing
import Builra.Macro.StringForm
import Builra.Macro.OperandForm
import Builra.Macro.TableRoundTrip
import Builra.BuildSystem.OwnershipRepair
import Builra.BuildSystem.ExternalCommand
import Builra.BuildSystem.DirectoryLinks
import Builra.BuildSystem.DirectorySignatures
import Builra.BuildSystem.DirectoryNodes
import Builra.Util.AsyncOperationQueue
import Builra.Targets.SpecializationReduction
import Builra.Targets.TargetPruning
import Builra.Util.FnmatchRanges
import Builra.Util.FilenamePattern
import Builra.Util.PathSuffix
import Builra.Util.PathJoin
import Builra.Util.PathAncestors
import Builra.Util.MsgPackSlice
import Builra.Util.ToolchainStyleCommandCodec
import Builra.Util.ShellCommand
import Builra.Util.ResponseFileRoundTrip
import Builra.Util.ResponseFileExpansion
import Builra.Util.HeadermapLoading
import Builra.Util.GraphAlgorithms
import Builra.Util.OrderedSetStorage
import Builra.Util.HeavyCache
import Builra.Util.NWayMerge
import Builra.Util.ProductBuildVersion
import Builra.Macro.ConfigFileIncludeTree
import Builra.Macro.ConfigFileContract
import Builra.Macro.ConditionGrammar
import Builra.BuildSystem.PathPrefix
import Builra.Ninja.CommandTask
import Builra.Basic.ShellUtility
import Builra.Ninja.Lexer
import Builra.Core.DependencyInfoParser
import Builra.Core.MakefileDepsFormat
import Builra.Analysis.CriticalPath
import Builra.Ninja.ManifestLoader
import Builra.Ninja.Parser
