import OperatingSystem.Paging.Schedule
import OperatingSystem.Paging.Belady
import OperatingSystem.Paging.Queue
import OperatingSystem.Paging.SecondChance
import OperatingSystem.Simulator.Basic
import OperatingSystem.Simulator.Table
import OperatingSystem.Simulator.Circular
import OperatingSystem.Simulator.Opt
import OperatingSystem.Simulator.Fifo
import OperatingSystem.Simulator.Lru
import OperatingSystem.Simulator.SecondChance
import OperatingSystem.Simulator.Run
import OperatingSystem.Simulator.Refinement
import OperatingSystem.Simulator.Comparison
import OperatingSystem.Simulator.Eviction
import OperatingSystem.Transition
import OperatingSystem.Intersection.Basic
import OperatingSystem.Intersection.Handshake
import OperatingSystem.Intersection.Invariant
import OperatingSystem.Intersection.Phases
import OperatingSystem.Intersection.Safety
import OperatingSystem.Intersection.Ticks
import OperatingSystem.Intersection.Symmetry
import OperatingSystem.Intersection.Threads
import OperatingSystem.Intersection.Wakeup
import OperatingSystem.Kernel.Stats
import OperatingSystem.Kernel.Accounting
import OperatingSystem.Kernel.Fifo
import OperatingSystem.Kernel.Setscheduler
import OperatingSystem.Libc
import OperatingSystem.Mytop.CpuTime
import OperatingSystem.Mytop.EventLoop
import OperatingSystem.Myps.Selection
import OperatingSystem.Calculator
import OperatingSystem.BubbleSort
import OperatingSystem.Procfs.Process
import OperatingSystem.Mytop.SortProc
import OperatingSystem.Procfs.Cmdline
import OperatingSystem.Procfs.Stat
import OperatingSystem.Procfs.Durations
import OperatingSystem.Mytop.PrintTop
import OperatingSystem.Simulator.Loader
import OperatingSystem.Myps.PrintPs
import OperatingSystem.Procfs.Capacity
import OperatingSystem.Crossing
import OperatingSystem.Intersection.Arrivals
import OperatingSystem.Lines
import OperatingSystem.Mylscpu.CpuInfo
import OperatingSystem.Mylscpu.Field
import OperatingSystem.Mylscpu.PrintLscpu
import OperatingSystem.Paging.Turns
import OperatingSystem.Paging.Adversary
import OperatingSystem.Simulator.Clock
import OperatingSystem.Kernel.Uclamp
import OperatingSystem.Kernel.UclampRefs
import OperatingSystem.Kernel.UclampMax
import OperatingSystem.Kernel.UclampCover
import OperatingSystem.Kernel.WakeQ
import OperatingSystem.Kernel.WakeRefine
import OperatingSystem.Forest
import OperatingSystem.Kernel.WalkTree
import OperatingSystem.Kernel.Bandwidth
import OperatingSystem.Kernel.Shares
import OperatingSystem.Kernel.GroupClamps
import OperatingSystem.Kernel.GroupEff
