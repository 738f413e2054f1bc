import Fflib.Library.Machine
import Fflib.Library.Countdown
import Fflib.Library.Exchange
import Fflib.Library.Chain
import Fflib.Ffop
import Fflib.Schedule
import Fflib.Wiring
import Fflib.Engine
import Fflib.Cascade
import Fflib.Rounds
import Fflib.Allreduce
import Fflib.AllreduceBuild
import Fflib.Mpi
import Fflib.World
import Fflib.RankInv
import Fflib.RankStep
import Fflib.WorldInv
import Fflib.Deadlock
import Fflib.Completion
import Fflib.Matching
import Fflib.Reduction
import Fflib.Collective
import Fflib.Storage
import Fflib.ReadyList
import Fflib.Arman
import Fflib.ArmanLaw
import Fflib.Progresser
import Fflib.Operator
import Fflib.OperatorHandles
import Fflib.RankOrder
import Fflib.Modes
import Fflib.Library.Tally
import Fflib.Posts
import Fflib.FirstRun
import Fflib.DepModes
import Fflib.Library.Ledger
import Fflib.Resources
import Fflib.Rejected
import Fflib.Buffer
import Fflib.TempBuffers
import Fflib.Library.BlockHeap
import Fflib.Lifecycle
import Fflib.Client
import Fflib.ArgsCheck
import Fflib.Tracker
import Fflib.ReadyWalk
import Fflib.Reposts
import Fflib.StaleWait
import Fflib.CascadeErrors
import Fflib.LateEdges
import Fflib.Library.Region
import Fflib.Relocation
import Fflib.Unmoved
import Fflib.Ownership
import Fflib.BufferErrors
import Fflib.Library.Loops
import Fflib.Kernels
import Fflib.KernelBounds
import Fflib.RoundLoop
import Fflib.WiringLaw
import Fflib.IndexBuffers
import Fflib.Capacity
import Fflib.CompFailure
import Fflib.Library.Footprints
import Fflib.Net
import Fflib.LostOps
import Fflib.OpAnswers
import Fflib.AllreduceAnswers
import Fflib.NetRequests
import Fflib.NetView
import Fflib.NetRefine
import Fflib.NetTrace
import Fflib.NetProgress
import Fflib.PingPong
import Fflib.NetLaw
import Fflib.NetAnswers
import Fflib.Contributions
import Fflib.Tracked
import Fflib.TrackedInv
import Fflib.TrackedLaw
import Fflib.TrackedAnswers
import Fflib.Library.Locks
import Fflib.ArmanLocks
import Fflib.CompLocks
