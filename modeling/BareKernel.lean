import BareKernel.Links.Bytes
import BareKernel.Links.Chain
import BareKernel.Links.Cells
import BareKernel.Links.Circular
import BareKernel.Links.Counting
import BareKernel.Links.Entries
import BareKernel.Links.Intervals
import BareKernel.Links.Labels
import BareKernel.Links.Numeral
import BareKernel.Links.Prefix
import BareKernel.Links.Raster
import BareKernel.Links.Ring
import BareKernel.Links.Runs
import BareKernel.Links.Streams
import BareKernel.Links.Tokens
import BareKernel.Links.Turns
import BareKernel.Links.Words
import BareKernel.Word
import BareKernel.Memory.Group
import BareKernel.Memory.GroupShape
import BareKernel.Memory.GroupCalls
import BareKernel.Memory.GroupRuns
import BareKernel.Memory.GroupInfo
import BareKernel.Memory.GroupBytes
import BareKernel.Memory.GroupIsolation
import BareKernel.Memory.GroupStale
import BareKernel.Memory.GroupMalloc
import BareKernel.Memory.Manager
import BareKernel.Buddy.Allocator
import BareKernel.Buddy.Blocks
import BareKernel.Buddy.Calls
import BareKernel.Buddy.Runs
import BareKernel.Buddy.Laws
import BareKernel.Buddy.Coalesce
import BareKernel.Buddy.Manager
import BareKernel.Process.State
import BareKernel.Process.ReadyList
import BareKernel.Process.ReadyRing
import BareKernel.Process.RingSurgery
import BareKernel.Process.RingInv
import BareKernel.Process.Scheduler
import BareKernel.Process.Invariant
import BareKernel.Process.Table
import BareKernel.Process.Shift
import BareKernel.Process.TableEffect
import BareKernel.Process.Turns
import BareKernel.Process.TableInv
import BareKernel.Process.Requests
import BareKernel.Kernel.State
import BareKernel.Kernel.Sem
import BareKernel.Kernel.Sleep
import BareKernel.Kernel.Pipe
import BareKernel.Kernel.Process
import BareKernel.Kernel.Calls
import BareKernel.Kernel.Lock
import BareKernel.Kernel.Effect
import BareKernel.Kernel.SleepList
import BareKernel.Kernel.CallEffect
import BareKernel.Kernel.Step
import BareKernel.Kernel.TableStep
import BareKernel.Kernel.PidLaw
import BareKernel.Kernel.Foreground
import BareKernel.Kernel.Lib
import BareKernel.Kernel.Frame
import BareKernel.Kernel.Idt
import BareKernel.Kernel.Gate
import BareKernel.Kernel.Exceptions
import BareKernel.Kernel.Families
import BareKernel.Kernel.AnyRun
import BareKernel.Kernel.Context
import BareKernel.Kernel.Switch
import BareKernel.Kernel.Create
import BareKernel.Kernel.RingLaw
import BareKernel.Kernel.RoundRobin
import BareKernel.Kernel.Runnable
import BareKernel.Kernel.Inside
import BareKernel.Kernel.Standing
import BareKernel.Kernel.SemQueue
import BareKernel.Kernel.SemStep
import BareKernel.Kernel.SemLaw
import BareKernel.Kernel.SemRefine
import BareKernel.Kernel.Mutex
import BareKernel.Kernel.Keyboard
import BareKernel.Kernel.KeyboardLaw
import BareKernel.Kernel.SemCounter
import BareKernel.Kernel.SleepLaw
import BareKernel.Kernel.Descriptors
import BareKernel.Kernel.PipeTable
import BareKernel.Kernel.PipeLaw
import BareKernel.Kernel.PipeFrame
import BareKernel.Kernel.Transfer
import BareKernel.Kernel.PipeTokens
import BareKernel.Kernel.PipeFifo
import BareKernel.Kernel.PipeCreate
import BareKernel.Kernel.PipeShare
import BareKernel.Kernel.PipeAccess
import BareKernel.Userland.Phylo
import BareKernel.Userland.PhyloInv
import BareKernel.Userland.PhyloLaw
import BareKernel.Userland.PhyloWake
import BareKernel.Drivers.Video
import BareKernel.Drivers.VideoLaw
import BareKernel.Drivers.Pixels
import BareKernel.Drivers.Console
import BareKernel.Drivers.NaiveConsole
import BareKernel.Boot.Loader
import BareKernel.Kernel.Syscalls
import BareKernel.Kernel.Lookups
import BareKernel.Kernel.LookupsLaw
import BareKernel.Links.Ledger
import BareKernel.Process.Priority
import BareKernel.Process.Holdings
import BareKernel.Process.Accounts
import BareKernel.Process.Arrival
import BareKernel.Kernel.Steady
import BareKernel.Kernel.Residents
import BareKernel.Kernel.ProcessMemory
import BareKernel.Kernel.Waiting
import BareKernel.Kernel.SleepOrder
import BareKernel.Kernel.SleepFrame
import BareKernel.Kernel.Deadline
import BareKernel.Kernel.SemClose
import BareKernel.Kernel.PriorityLaw
import BareKernel.Kernel.HeldEnds
import BareKernel.Kernel.StreamEffect
import BareKernel.Userland.Shell
import BareKernel.Userland.ShellLaw
import BareKernel.Userland.Strings
import BareKernel.Userland.StringsLaw
import BareKernel.Userland.Filter
import BareKernel.Userland.Parse
import BareKernel.Userland.Dispatch
import BareKernel.Userland.LineEditor
import BareKernel.Userland.Typing
import BareKernel.Userland.TestMm
import BareKernel.Userland.TestProcesses
import BareKernel.Userland.Commands
import BareKernel.Userland.Pipeline
