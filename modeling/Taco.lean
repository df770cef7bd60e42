import Taco.Library.Strips
import Taco.Provenance.Graph
import Taco.Provenance.Linked
import Taco.Lower.SplitNest
import Taco.Lower.SplitNestVisits
import Taco.IR.Datatype
import Taco.IR.Expr
import Taco.IR.Simplify
import Taco.IR.SimplifyShape
import Taco.IR.SimplifySound
import Taco.IR.SimplifyExact
import Taco.IR.Runs
import Taco.IR.RedundantLoops
import Taco.Library.Updates
import Taco.IR.LoopUpdates
import Taco.IR.RedundantLoopsExact
import Taco.IR.CopyPropagation
import Taco.IR.CopyScopes
import Taco.IR.CopyTracking
import Taco.Library.Visits
import Taco.Scheduling.Ancestors
import Taco.Scheduling.BoundElision
import Taco.Scheduling.ClonedLoops
import Taco.Scheduling.ClonedLoopsExact
import Taco.Scheduling.DividedStrips
import Taco.Scheduling.Fuse
import Taco.Scheduling.PositionStrips
import Taco.IndexNotation.Zero
import Taco.Library.Loops
import Taco.Library.Traces
import Taco.Lower.Coiteration
import Taco.Lower.WindowedMerges
import Taco.Library.Fuel
import Taco.Library.Segments
import Taco.Lower.UngroupedInsertion
import Taco.Tensor.Content
import Taco.Tensor.Dependents
import Taco.Tensor.Eager
import Taco.Tensor.OnDemand
import Taco.Tensor.Compound
import Taco.Tensor.Evaluation
import Taco.IndexNotation.Concrete
import Taco.IndexNotation.InsertTemporaries
import Taco.IndexNotation.InsertTemporariesExact
import Taco.Tensor.CoordinateBuffer
import Taco.Workspace.AccelerationExact
import Taco.Codegen.Coroutine
import Taco.Codegen.CoroutineExact
import Taco.IndexNotation.Footprint
import Taco.IndexNotation.Parallelize
import Taco.IndexNotation.ParallelizeExact
import Taco.IndexNotation.Scheduled
import Taco.IndexNotation.ScheduledExact
import Taco.IndexNotation.TopologicalOrderExact
import Taco.IndexNotation.Accumulation
import Taco.IndexNotation.ParallelizeReduction
import Taco.IndexNotation.ParallelizeReductionExact
import Taco.Codegen.BinarySearch
import Taco.Codegen.BinarySearchExact
import Taco.Library.Rounds
import Taco.Parser.Lexer
import Taco.Parser.LexerExact
import Taco.Parser.Parser
import Taco.Parser.ParserComplete
import Taco.Parser.ParserExact
import Taco.Parser.Printer
import Taco.Parser.PrinterExact
import Taco.Parser.ScheduleParser
import Taco.Parser.ScheduleParserExact
import Taco.Packing.Contents
import Taco.Packing.PackExact
import Taco.IndexNotation.Datatype
import Taco.IndexNotation.DeclaredSets
import Taco.IndexNotation.TypedExpr
import Taco.IndexNotation.ZeroExact
import Taco.FileIO.MatrixMarket
import Taco.Library.CycleSearch
import Taco.Notation.AccessIterators
import Taco.Notation.Dimensions
import Taco.Notation.Transpose
import Taco.Tensor.ComponentEquality
import Taco.Tensor.ComponentIterator
import Taco.Scheduling.RecoverChild
import Taco.Codegen.ResumeLabels
import Taco.Codegen.UniqueNames
import Taco.FileIO.DenseFiles
import Taco.Library.Renamings
import Taco.Notation.ConcreteNotation
import Taco.Notation.Isomorphic
import Taco.Notation.IsomorphicExact
import Taco.Notation.IsomorphicRenames
import Taco.Notation.LoopAnnotations
import Taco.Library.VarSums
import Taco.Notation.ReductionNotation
import Taco.Notation.ReductionNotationExact
import Taco.IndexNotation.ReorderedLoops
import Taco.Notation.EinsumConcrete
import Taco.Library.GrowableArrays
import Taco.Lower.AppendAssembly
import Taco.Lower.AppendedSlices
import Taco.Lower.AssembledResult
import Taco.Lower.ComputedValues
