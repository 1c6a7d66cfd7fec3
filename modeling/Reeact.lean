import Reeact.Lib.Run
import Reeact.Lib.Fair
import Reeact.Lib.Rounds
import Reeact.Lib.Packed
import Reeact.Lib.FutexLock
import Reeact.Lib.LeaderTree
import Reeact.Lib.Monitor
import Reeact.Fastsync.Barrier
import Reeact.Fastsync.BarrierTree
import Reeact.Fastsync.BarrierInv
import Reeact.Fastsync.BarrierStep
import Reeact.Fastsync.BarrierLaws
import Reeact.Fastsync.BarrierProgress
import Reeact.Fastsync.BarrierSerial
import Reeact.Fastsync.BarrierLive
import Reeact.Fastsync.BarrierReset
import Reeact.Fastsync.BarrierYield
import Reeact.Fastsync.Sync
import Reeact.Fastsync.SyncLocal
import Reeact.Fastsync.MutexView
import Reeact.Fastsync.MutexLaws
import Reeact.Fastsync.MutexMark
import Reeact.Fastsync.CondTree
import Reeact.Fastsync.CondSeq
import Reeact.Fastsync.CondView
import Reeact.Fastsync.CondLaws
import Reeact.Fastsync.CondBranch
import Reeact.Fastsync.CondInit
import Reeact.Fastsync.CondCall
import Reeact.Fastsync.CondMismatch
import Reeact.Fastsync.CondRelease
import Reeact.Fastsync.CondWord
import Reeact.Fastsync.MutexLive
import Reeact.Fastsync.SyncBound
import Reeact.Fastsync.CondLive
import Reeact.Fastsync.CondCause
import Reeact.Fastsync.CondRaces
import Reeact.Fastsync.SyncMonitor
import Reeact.Lib.Exits
import Reeact.Lib.Rows
import Reeact.Utils.Topology
import Reeact.Utils.TopologyConf
import Reeact.Utils.TopologyMarks
import Reeact.Utils.TopologyFate
import Reeact.Utils.TopologySysfs
import Reeact.Utils.TopologyPackages
import Reeact.Utils.TopologyGet
import Reeact.Utils.TopologyRoundTrip
import Reeact.Utils.TopologySources
import Reeact.Utils.TopologyLog
import Reeact.Hooks.PthreadHooks
import Reeact.Hooks.PthreadHooksLaws
import Reeact.Process
import Reeact.Hooks.PthreadHooksThreads
