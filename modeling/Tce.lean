import Tce.PIG.LongImmediate
import Tce.PIG.DictionaryLossless
import Tce.TPEF.RoundTrip
import Tce.TPEF.SafePointerResolve
import Tce.Simulator.ResourceVectorDetector
import Tce.Scheduler.IUResource
import Tce.Simulator.FURuns
import Tce.Selector.MoveNodeSelectors
import Tce.OSAL.Correctness
import Tce.BEM.EncodingWidth
import Tce.BEM.SlotFieldEncoding
import Tce.POM.CopyCorrect
import Tce.DDG.BypassUndo
import Tce.DDG.Antidependences
import Tce.DDG.LoopLimit
import Tce.DDG.RegisterDeaths
import Tce.BEM.FieldOrder
import Tce.CFG.SplitAtCalls
import Tce.TPEF.InstructionIndex
import Tce.TPEF.StringSection
import Tce.POM.InlineImmediates
import Tce.POM.ReferenceRuns
import Tce.POM.ResourceRuns
import Tce.Scheduler.SharingSoundness
import Tce.POM.LabelMaintenance
import Tce.Simulator.FUResultBuffer
import Tce.Tools.HalfFloatConversion
import Tce.Mach.PipelineReload
import Tce.OSAL.OperationReload
import Tce.Selector.MoveNodeGroupRuns
import Tce.Simulator.ExecutionCountRuns
import Tce.Simulator.OperationLatency
import Tce.OpSet.OperationAlternatives
import Tce.OpSet.MemoryRuns
import Tce.ResourceManager.BrokerAgreement
import Tce.Scheduler.RegisterCopyChoice
import Tce.Mach.BitMatrixRuns
import Tce.Storage.RangeCheck
import Tce.Storage.DirectAccess
import Tce.Tools.SimValueRuns
import Tce.Tools.IntegerStrings
import Tce.ResourceManager.DirectorAssignment
import Tce.ResourceManager.SocketSharing
import Tce.ResourceManager.FailedAssignment
import Tce.ResourceManager.ScheduleBounds
import Tce.Scheduler.PipelineUse
import Tce.DDG.PartialSchedules
import Tce.Simulator.ControlState
