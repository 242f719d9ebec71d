import Eaf.Foundation.LabelledRun
import Eaf.Foundation.SequentialMailbox
import Eaf.Foundation.CallbackLifecycle
import Eaf.Foundation.Ledger
import Eaf.Foundation.RedBlackTree
import Eaf.Foundation.RedBlackRepair
import Eaf.Foundation.TreeSearch
import Eaf.Foundation.Cells
import Eaf.Foundation.KeyedTable
import Eaf.Foundation.Regions
import Eaf.Foundation.Iteration
import Eaf.Core.Message
import Eaf.Core.Layout
import Eaf.Core.ServiceGroup
import Eaf.Core.GroupWorker
import Eaf.Core.ApiCall
import Eaf.Core.Runtime
import Eaf.Core.Transitions
import Eaf.Core.Registration
import Eaf.Core.ContextBlock
import Eaf.Core.GroupIterators
import Eaf.Group.Protocol
import Eaf.Group.Lists
import Eaf.Group.ServiceFacts
import Eaf.Group.MessageHandling
import Eaf.Group.CallbackOrder
import Eaf.System.Effects
import Eaf.System.GroupView
import Eaf.System.Phases
import Eaf.System.Records
import Eaf.Guarantees.ListMembership
import Eaf.Guarantees.CallbackDiscipline
import Eaf.Guarantees.MessageOrder
import Eaf.System.OwnCalls
import Eaf.Guarantees.WakeUp
import Eaf.System.StartUp
import Eaf.Guarantees.WorkerPresence
import Eaf.Guarantees.Loading
import Eaf.Guarantees.StateOrder
import Eaf.Group.ExitedQueues
import Eaf.System.Sends
import Eaf.Guarantees.AcceptedMessages
import Eaf.Group.Holdings
import Eaf.System.References
import Eaf.System.StepLog
import Eaf.System.Balance
import Eaf.System.Messages
import Eaf.System.RecordOrigins
import Eaf.System.FailedSends
import Eaf.System.Emptying
import Eaf.Guarantees.ReferenceCounts
import Eaf.Guarantees.Dispatch
import Eaf.Guarantees.Capacity
import Eaf.Powerpack.Hooks
import Eaf.Guarantees.HookVeto
import Eaf.Utils.MapLow
import Eaf.Utils.Map
import Eaf.Utils.TreeLayout
import Eaf.Utils.MapInsertion
import Eaf.Utils.MapErasure
import Eaf.Utils.MapUnlink
import Eaf.Utils.MapTrees
import Eaf.Utils.MapTable
import Eaf.Utils.MapSearch
import Eaf.Utils.MapIterate
import Eaf.Foundation.LinkedSegments
import Eaf.Utils.LinkedList
import Eaf.Guarantees.Maps
import Eaf.Guarantees.MapSearch
import Eaf.Guarantees.MapIteration
import Eaf.Powerpack.MessageCall
import Eaf.Powerpack.CallSteps
import Eaf.Powerpack.CallReferences
import Eaf.Powerpack.CallTables
import Eaf.Powerpack.CallHistory
import Eaf.Powerpack.CallFacts
import Eaf.Powerpack.CallInvariant
import Eaf.Powerpack.CallProgress
import Eaf.Powerpack.CallRuns
import Eaf.Guarantees.BlockingCalls
import Eaf.Foundation.Completion
import Eaf.Core.InitCall
import Eaf.Guarantees.InitRollback
import Eaf.Powerpack.LoopThread
import Eaf.Guarantees.LoopShutdown
import Eaf.Powerpack.Monitor
import Eaf.Powerpack.MonitorLoad
import Eaf.Guarantees.MonitorCounters
import Eaf.System.Handlings
import Eaf.Powerpack.MonitoredSystem
import Eaf.Powerpack.MonitorStamps
import Eaf.Guarantees.UseTime
import Eaf.Foundation.SortedMap
import Eaf.Powerpack.Clock
import Eaf.Powerpack.ClockSums
import Eaf.Utils.MapList
import Eaf.Powerpack.Watchdog
import Eaf.Powerpack.WatchdogMaps
import Eaf.Powerpack.WatchdogSteps
import Eaf.Powerpack.WatchdogInit
import Eaf.Guarantees.WatchdogOrder
import Eaf.Guarantees.WatchdogExit
import Eaf.Guarantees.WatchdogErrors
import Eaf.Guarantees.Heartbeats
import Eaf.Guarantees.Registration
import Eaf.Guarantees.ContextBlock
import Eaf.Guarantees.Iteration
import Eaf.Powerpack.PathThreads
import Eaf.Guarantees.MessagePaths
import Eaf.Guarantees.LinkedLists
import Eaf.Powerpack.RingBuffer
import Eaf.Powerpack.RingEntries
import Eaf.Powerpack.RingQueue
import Eaf.Powerpack.RingSteps
import Eaf.Powerpack.RingTokens
import Eaf.Powerpack.RingReserve
import Eaf.Powerpack.RingOverwrite
import Eaf.Powerpack.RingEviction
import Eaf.Powerpack.RingRuns
import Eaf.Guarantees.RingBuffers
import Eaf.Guarantees.ClockTimes
import Eaf.Foundation.Gregorian
import Eaf.Powerpack.SystemTime
import Eaf.Guarantees.SystemTime
import Eaf.Foundation.FormattedText
import Eaf.Foundation.JsonText
import Eaf.Powerpack.StringApply
import Eaf.Powerpack.MonitorReport
import Eaf.Powerpack.ReportTexts
import Eaf.Powerpack.JsonReport
import Eaf.Guarantees.MonitorReports
import Eaf.Powerpack.SocketWait
import Eaf.Powerpack.SocketFacts
import Eaf.Powerpack.SocketRuns
import Eaf.Guarantees.SocketWaits
import Eaf.Guarantees.MessageFields
import Eaf.Guarantees.StringBuffers
import Eaf.Foundation.RangeBlocks
import Eaf.Powerpack.DataDump
import Eaf.Guarantees.DataDumps
import Eaf.Powerpack.Random
import Eaf.Guarantees.RandomFill
import Eaf.Core.CurrentService
import Eaf.Guarantees.CurrentService
import Eaf.Foundation.Custody
import Eaf.Powerpack.Timer
import Eaf.Powerpack.TimerFacts
import Eaf.Guarantees.Timers
import Eaf.Guarantees.TimerExit
import Eaf.System.TeardownAnswers
import Eaf.Guarantees.TeardownAnswers
import Eaf.Foundation.PolynomialHash
import Eaf.Powerpack.Hash
import Eaf.Guarantees.Hashes
import Eaf.Foundation.LinearCongruence
import Eaf.Guarantees.RandomSequence
import Eaf.Guarantees.WorkerProgress
import Eaf.System.Effort
import Eaf.Guarantees.Rest
import Eaf.Guarantees.EventualHandling
import Eaf.Foundation.CStatements
import Eaf.Foundation.Coroutine
import Eaf.Core.Fiber
import Eaf.Group.Branches
import Eaf.System.Fibers
import Eaf.Guarantees.Fibers
import Eaf.Foundation.WaitingLine
import Eaf.Guarantees.ServiceOrder
import Eaf.System.ListCalls
import Eaf.System.Links
import Eaf.Guarantees.IntrusiveLists
import Eaf.Foundation.CountingSemaphore
import Eaf.Compat.Semaphore
import Eaf.Guarantees.Semaphores
