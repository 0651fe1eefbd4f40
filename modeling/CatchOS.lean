import CatchOS.Machine.Memory
import CatchOS.Machine.Instruction
import CatchOS.Machine.Interrupt
import CatchOS.Lib.Transition
import CatchOS.Lib.Counting
import CatchOS.Lib.SaveRestore
import CatchOS.Lib.Dispatch
import CatchOS.Lib.Extent
import CatchOS.Lib.Chain
import CatchOS.Lib.TwoLevel
import CatchOS.Lib.FirstMax
import CatchOS.Lib.Rounds
import CatchOS.Lib.Probe
import CatchOS.Lib.Orbit
import CatchOS.Lib.ThreeWay
import CatchOS.Lib.Written
import CatchOS.Mmu.Mmap
import CatchOS.Utils.Spinlock
import CatchOS.Utils.Rwlock
import CatchOS.Utils.RwlockExclusion
import CatchOS.Utils.RwlockProgress
import CatchOS.Utils.InterruptFlag
import CatchOS.Utils.Bitmap
import CatchOS.Utils.BitmapSet
import CatchOS.Utils.BitmapSearch
import CatchOS.Tasks.TaskStruct
import CatchOS.Tasks.Sem
import CatchOS.Tasks.SemPermits
import CatchOS.Tasks.SemWakeup
import CatchOS.Tasks.TaskTable
import CatchOS.Tasks.Scheduler
import CatchOS.Tasks.SchedulerSafety
import CatchOS.Tasks.Sections
import CatchOS.Tasks.DynamicPrio
import CatchOS.Tasks.Schedule
import CatchOS.Tasks.AtomicKernel
import CatchOS.Tasks.SchedulerChoice
import CatchOS.Tasks.ProportionalShare
import CatchOS.Tasks.UseAfterFree
import CatchOS.Tasks.TaskCleanup
import CatchOS.Tasks.CpuSwitchTo
import CatchOS.Tasks.ContextSwitch
import CatchOS.Tasks.TaskFrame
import CatchOS.Tasks.TaskNewFailure
import CatchOS.Drivers.Madt
import CatchOS.Drivers.MadtContents
import CatchOS.Drivers.MadtBounds
import CatchOS.Drivers.MadtReads
import CatchOS.Tasks.SchedTimer
import CatchOS.Tasks.InterruptRouting
import CatchOS.Drivers.Pic
import CatchOS.Interrupt.InterruptHnd
import CatchOS.Interrupt.Idt
import CatchOS.Interrupt.Interrupt
import CatchOS.Tasks.Preemption
import CatchOS.Common.MultibootInfo
import CatchOS.Common.TagIsolation
import CatchOS.Common.TagWalk
import CatchOS.Mmu.Kheap
import CatchOS.Mmu.PageframeAlloc
import CatchOS.Mmu.BitmapPlaced
import CatchOS.Mmu.PageframeOwnership
import CatchOS.Mmu.PageframeSearch
import CatchOS.Mmu.BestFit
import CatchOS.Mmu.PageframeRestore
import CatchOS.Mmu.BitmapBounds
import CatchOS.Mmu.Paging
import CatchOS.Mmu.Allocators
import CatchOS.Mmu.PageWalk
import CatchOS.Mmu.GeneralMapping
import CatchOS.Mmu.OwnTables
import CatchOS.Mmu.IdentityMapping
import CatchOS.Mmu.IdentityMappingLost
import CatchOS.Mmu.BootMemory
import CatchOS.Utils.List
import CatchOS.Utils.Queue
import CatchOS.Utils.QueueBlocks
import CatchOS.Utils.String
import CatchOS.Utils.StringOrder
import CatchOS.Utils.Hashtable
import CatchOS.Utils.HashtableLookup
import CatchOS.Utils.HashtableKeys
import CatchOS.Utils.AllocationFailure
import CatchOS.Tasks.SemQueue
import CatchOS.Utils.Printf
import CatchOS.Utils.IntToStrStatic
import CatchOS.Utils.IntToStr
import CatchOS.Drivers.Acpi
import CatchOS.Drivers.AcpiMapping
import CatchOS.Drivers.AcpiFlags
import CatchOS.Power.Shutdown
import CatchOS.Power.ShutdownReads
import CatchOS.Drivers.Svga
import CatchOS.Drivers.Palette
import CatchOS.Shell.Bmp
import CatchOS.Timer.Delay
import CatchOS.Drivers.Keyboard
import CatchOS.Drivers.TextScreen
import CatchOS.Drivers.Scroll
import CatchOS.Shell.LineInput
import CatchOS.Shell.Cursor
import CatchOS.Shell.BmpHeader
import CatchOS.Shell.BmpReaders
import CatchOS.Utils.Debug
import CatchOS.Utils.PrintfBuffer
import CatchOS.Lib.Row
import CatchOS.Lib.Linked
import CatchOS.Machine.Record
import CatchOS.Mmu.Liballoc
import CatchOS.Mmu.LiballocLayout
import CatchOS.Mmu.LiballocPlace
import CatchOS.Mmu.LiballocHeap
import CatchOS.Mmu.LiballocMalloc
import CatchOS.Mmu.LiballocFree
import CatchOS.Mmu.LiballocBlocks
import CatchOS.Mmu.LiballocRealloc
import CatchOS.Mmu.LiballocPages
import CatchOS.Mmu.LiballocRuns
import CatchOS.Mmu.LiballocRefines
