import Ossim.Memphy.Carving
import Ossim.Memphy.Nodes
import Ossim.Memphy.Sequential
import Ossim.PageTable.Refinement
import Ossim.PageTable.Capacity
import Ossim.PageTable.Canonical
import Ossim.PageTable.Stats
import Ossim.Libmem.Failures
import Ossim.Libmem.WritePaths
import Ossim.Libmem.Usable
import Ossim.Libmem.Release
import Ossim.Cpu.Bounds
import Ossim.System.Transparency
import Ossim.System.Isolation
import Ossim.System.ReadBack
import Ossim.System.KernelRequests
import Ossim.System.Replacement
import Ossim.System.Delivered
import Ossim.System.CopyToUser
import Ossim.System.CachePools
import Ossim.Locking.Traces
import Ossim.Sched.Policy
import Ossim.Sched.Priority
import Ossim.Os.Abandoned
import Ossim.Os.Stuck
import Ossim.Os.Tables
import Ossim.Os.Leaks
import Ossim.Os.Quantum
import Ossim.Loader.Printing
import Ossim.Sched.Waiting
import Ossim.Os.Scheduling
import Ossim.Os.Completion
import Ossim.Os.Independent
import Ossim.Os.Ample
import Ossim.Os.Schedules
import Ossim.Config.Startup
import Ossim.Config.Accepted
import Ossim.Config.Started
