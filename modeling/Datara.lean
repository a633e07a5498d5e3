import Datara.Codegen.NativeLowering
import Datara.Optimizer.DceCorrect
import Datara.Optimizer.IfConversionCorrect
import Datara.Ownership.RegionCorrect
import Datara.Ownership.TmmExact
import Datara.Ownership.FreshCorrect
import Datara.Project.RestoreFaithful
import Datara.Runtime.ArcCorrect
import Datara.Runtime.ChaseLevCorrect
import Datara.Runtime.FiberChannelCorrect
import Datara.Runtime.RtListRefines
import Datara.Runtime.RtMapRefines
import Datara.Runtime.RtStringCorrect
import Datara.Effects.Sound
import Datara.Security.RaceGate
import Datara.Natvar.MutexFair
import Datara.Natvar.ChanDelivers
import Datara.Runtime.ParallelForExact
import Datara.Runtime.ThreadChannel
import Datara.Natvar.MtFibersTruth
import Datara.Optimizer.Devirtualize
import Datara.Optimizer.LoopInterchange
import Datara.Cimport.GateSound
import Datara.Optimizer.ArmDeltaSound
import Datara.Project.GlobExact
import Datara.Project.Semver
import Datara.Project.TarRoundTrip
import Datara.Optimizer.RangeSound
import Datara.Optimizer.MergeBlocksCorrect
import Datara.Optimizer.StrengthCorrect
import Datara.Runtime.NanBox
import Datara.Runtime.Itoa
import Datara.Runtime.Dec64
import Datara.Types.MatchExact
import Datara.Schedule.KahnWaves
import Datara.Runtime.BumpArenaExact
import Datara.Runtime.TierAllocExact
import Datara.Runtime.TimersFinal
import Datara.Runtime.CheckedArith
import Datara.Parse.BinaryClimbing
import Datara.Optimizer.Symbolic
import Datara.Runtime.HandleTable
import Datara.Runtime.Base64
import Datara.Runtime.Sha256
import Datara.Types.Refine
import Datara.Ownership.DomainRefines
import Datara.Stdlib.PriorityQueue
import Datara.Stdlib.Sort
import Datara.Codegen.WasmFraming
import Datara.Derive.Json
import Datara.Stdlib.JsonReaderExact
import Datara.Project.Incremental
import Datara.Parse.Interpolation
import Datara.Dmir.LoopNest
import Datara.Natvar.Deadlock
