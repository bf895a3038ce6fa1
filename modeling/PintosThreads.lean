import PintosThreads.CondWakeups
import PintosThreads.Bookkeeping
import PintosThreads.DispatchOrder
import PintosThreads.FreeBranch
import PintosThreads.LoadAverage
import PintosThreads.PriorityRange
import PintosThreads.ReadyQueues
import PintosThreads.SchedulerInv
import PintosThreads.Runs
import PintosThreads.AlarmClock
import PintosThreads.TimerPriorities
import PintosThreads.FormulaPriorities
import PintosThreads.IdlePriority
import PintosThreads.RecentCpu
import PintosThreads.Donation
import PintosThreads.Rebucketing
import PintosThreads.InterruptLevel
import PintosThreads.Statistics
import PintosThreads.Uncontended
import PintosThreads.CondPriority
import PintosThreads.Calibration
import PintosThreads.CommandLine
import PintosThreads.Refresh
import PintosThreads.ThreadIds
import PintosThreads.SemaCounts
import PintosThreads.Preemption
import PintosThreads.SignalAsserts
import PintosThreads.LockWaiters
import PintosThreads.Lifecycle
import PintosThreads.Overtaking
import PintosThreads.RoundRobin
import PintosThreads.LoadSamples
import PintosThreads.CpuCharge
import PintosThreads.FourthTick
import PintosThreads.Actions
import PintosThreads.Delays
import PintosThreads.Monitors
