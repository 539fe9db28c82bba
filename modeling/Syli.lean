import Syli.Foundation.Runs
import Syli.Foundation.Reach
import Syli.Foundation.Ledger
import Syli.Runtime.Frames
import Syli.Collector.Ledger
import Syli.Collector.Exact
import Syli.Collector.Sound
import Syli.Collector.Safety
import Syli.Collector.Barrier
import Syli.Collector.Freed
import Syli.Collector.Deferred
import Syli.Collector.Separation
import Syli.Collector.Registry
import Syli.Collector.Release
import Syli.Collector.Progress
import Syli.Collector.FullCollection
import Syli.Foundation.Search
import Syli.Compiler.OwnershipLaw
import Syli.Compiler.CaptureOrder
import Syli.Compiler.Cyclicity
import Syli.Collector.CandidateScan
import Syli.Collector.TracingWorklists
import Syli.Collector.SliceReturns
import Syli.Collector.SafeSteps
import Syli.Collector.Candidates
import Syli.Collector.CyclicGauges
import Syli.Compiler.HeaderAgreement
import Syli.Compiler.SwitchTests
import Syli.Compiler.MatchSoundness
import Syli.Compiler.Layout
import Syli.Compiler.LexerTexts
import Syli.Compiler.LayoutRuns
import Syli.Compiler.Comments
import Syli.Compiler.ToplevelNames
import Syli.Compiler.DispatchNumbers
import Syli.Compiler.RetTypes
import Syli.Compiler.PrimitiveAgreement
import Syli.Compiler.LivePaths
import Syli.Compiler.RecordLiterals
import Syli.Compiler.Comparisons
import Syli.Compiler.TypeExpansion
import Syli.Compiler.MostGeneral
import Syli.Compiler.SlotAgreement
import Syli.Compiler.LayoutBalance
import Syli.Compiler.Indentation
import Syli.Runtime.FailedGrowth
import Syli.Runtime.StackmapRecords
import Syli.Compiler.StringLiterals
import Syli.Compiler.ArrayHeaders
import Syli.Compiler.Quoting
import Syli.Compiler.AlphaBinding
import Syli.Compiler.IntegerLiterals
import Syli.Compiler.MonoSimulation
import Syli.Compiler.InstanceTypes
import Syli.Compiler.OwnershipCalls
import Syli.Compiler.ClosureCreation
