import LowFlow.Library.Loop
import LowFlow.Library.Rose
import LowFlow.Library.Segment
import LowFlow.Memory.Arena
import LowFlow.Core.Types
import LowFlow.Library.Run
import LowFlow.Memory.Contents
import LowFlow.Memory.Lifo
import LowFlow.Memory.List
import LowFlow.Memory.StackRuns
import LowFlow.Memory.StackToList
import LowFlow.Memory.Typed
import LowFlow.Planning.ValSchedule
import LowFlow.Memory.ListRuns
import LowFlow.Memory.Reset
import LowFlow.Memory.SliceRuns
import LowFlow.Frontend.LexMemory
import LowFlow.Frontend.LexSegments
import LowFlow.Memory.GrowthSteps
import LowFlow.Memory.ListLookups
import LowFlow.Memory.ComparedText
import LowFlow.Core.Passes
import LowFlow.Memory.Conversion
import LowFlow.Frontend.ScanSeen
import LowFlow.Frontend.Lexes
import LowFlow.Frontend.Literals
import LowFlow.Memory.Chunks
import LowFlow.Frontend.Storings
import LowFlow.Memory.Overcounted
import LowFlow.Runtime.Flow
import LowFlow.Runtime.FlowRuns
import LowFlow.Runtime.NativeCalls
import LowFlow.Runtime.Expressions
import LowFlow.Memory.MovedValues
import LowFlow.Runtime.Evaluation
import LowFlow.Memory.ArenaSize
import LowFlow.Memory.ElemSearch
import LowFlow.Memory.Cursor
import LowFlow.Memory.ListArrays
import LowFlow.Memory.Alignment
import LowFlow.Memory.SliceSizes
import LowFlow.Frontend.TokenFields
import LowFlow.Frontend.Renaming
import LowFlow.Frontend.Inspected
import LowFlow.Library.Recording
import LowFlow.Planning.PassStrings
import LowFlow.Memory.IterationEnds
import LowFlow.Memory.Dealloc
import LowFlow.Memory.StackViews
import LowFlow.Planning.PipelineRuns
import LowFlow.Frontend.Printing
import LowFlow.Frontend.LexemeOrder
import LowFlow.Frontend.SyntaxAnalysis
import LowFlow.Core.Logger
import LowFlow.Planning.ScheduleDebug
import LowFlow.Main
import LowFlow.Library.Unfold
import LowFlow.Planning.ScheduleEnds
import LowFlow.Runtime.Reevaluation
