import SynapseKernel.Boot.Interrupts
import SynapseKernel.Console.AiQuestion
import SynapseKernel.Console.Commands
import SynapseKernel.Console.FreeCommand
import SynapseKernel.Console.NumberPrinting
import SynapseKernel.Console.Keyboard
import SynapseKernel.Console.LineEditor
import SynapseKernel.Console.Shell
import SynapseKernel.Console.Vga
import SynapseKernel.Fs.Ramfs
import SynapseKernel.Fs.RamfsBytes
import SynapseKernel.Fs.RamfsCapacity
import SynapseKernel.Fs.RamfsDangling
import SynapseKernel.Fs.RamfsDirectory
import SynapseKernel.Fs.RamfsEmptiness
import SynapseKernel.Fs.RamfsFile
import SynapseKernel.Fs.RamfsFileUndo
import SynapseKernel.Fs.RamfsLinks
import SynapseKernel.Fs.RamfsNames
import SynapseKernel.Fs.RamfsOps
import SynapseKernel.Fs.RamfsReaddir
import SynapseKernel.Fs.RamfsRoot
import SynapseKernel.Fs.RamfsRuns
import SynapseKernel.Fs.RamfsTree
import SynapseKernel.Fs.RamfsUndo
import SynapseKernel.Fs.RamfsWrites
import SynapseKernel.Fs.StaleBytes
import SynapseKernel.Fs.Tmpfs
import SynapseKernel.Fs.TmpfsCalls
import SynapseKernel.Fs.TmpfsDescriptors
import SynapseKernel.Fs.TmpfsFile
import SynapseKernel.Fs.TmpfsMount
import SynapseKernel.Fs.TmpfsMountTable
import SynapseKernel.Fs.TmpfsNames
import SynapseKernel.Fs.TmpfsRemoval
import SynapseKernel.Fs.TmpfsSafety
import SynapseKernel.Fs.Vfs
import SynapseKernel.Lib.Backing
import SynapseKernel.Lib.Bitmap
import SynapseKernel.Lib.ByteMemory
import SynapseKernel.Lib.Chunks
import SynapseKernel.Lib.Copying
import SynapseKernel.Lib.FirstFit
import SynapseKernel.Lib.Gates
import SynapseKernel.Lib.Json
import SynapseKernel.Lib.Layout
import SynapseKernel.Lib.LineEdit
import SynapseKernel.Lib.Links
import SynapseKernel.Lib.Numeral
import SynapseKernel.Lib.Ownership
import SynapseKernel.Lib.PageEntry
import SynapseKernel.Lib.Ring
import SynapseKernel.Lib.Runs
import SynapseKernel.Lib.TallScreen
import SynapseKernel.Lib.Tiling
import SynapseKernel.Lib.Word
import SynapseKernel.Lib.Words
import SynapseKernel.Lib.X86
import SynapseKernel.Lib.X86Calls
import SynapseKernel.Loader.Elf
import SynapseKernel.Loader.ElfImage
import SynapseKernel.Loader.ElfLoad
import SynapseKernel.Mm.BlockHeap
import SynapseKernel.Mm.FrameBitmap
import SynapseKernel.Mm.Kheap
import SynapseKernel.Mm.KheapAnswers
import SynapseKernel.Mm.KheapFirstFit
import SynapseKernel.Mm.KheapFrame
import SynapseKernel.Mm.KheapInv
import SynapseKernel.Mm.KheapPayload
import SynapseKernel.Mm.KheapRuns
import SynapseKernel.Mm.KheapSafety
import SynapseKernel.Mm.KheapServes
import SynapseKernel.Mm.KheapStale
import SynapseKernel.Mm.KheapTakes
import SynapseKernel.Mm.KheapUsage
import SynapseKernel.Mm.PageMap
import SynapseKernel.Mm.PageWalk
import SynapseKernel.Mm.Paging
import SynapseKernel.Mm.UserPages
import SynapseKernel.Proc.AiEscalation
import SynapseKernel.Proc.AiFields
import SynapseKernel.Proc.AiMessage
import SynapseKernel.Proc.AiReads
import SynapseKernel.Proc.DeadTasks
import SynapseKernel.Proc.DispatchOrder
import SynapseKernel.Proc.Executor
import SynapseKernel.Proc.FailedCreation
import SynapseKernel.Proc.FirstCome
import SynapseKernel.Proc.ForkedRegs
import SynapseKernel.Proc.IdleReuse
import SynapseKernel.Proc.Mmap
import SynapseKernel.Proc.MmapFailure
import SynapseKernel.Proc.MmapLoop
import SynapseKernel.Proc.MmapPromise
import SynapseKernel.Proc.MmapRanges
import SynapseKernel.Proc.MmapUndo
import SynapseKernel.Proc.PageDirs
import SynapseKernel.Proc.PidNames
import SynapseKernel.Proc.Policies
import SynapseKernel.Proc.ProcFs
import SynapseKernel.Proc.ProcRead
import SynapseKernel.Proc.Process
import SynapseKernel.Proc.ProcessRing
import SynapseKernel.Proc.ProcessSchedule
import SynapseKernel.Proc.ProcessStates
import SynapseKernel.Proc.ProcessTable
import SynapseKernel.Proc.ProcessUndo
import SynapseKernel.Proc.ReadyQueues
import SynapseKernel.Proc.Regs
import SynapseKernel.Proc.ReservedFrames
import SynapseKernel.Proc.RoundRobin
import SynapseKernel.Proc.RunnableTasks
import SynapseKernel.Proc.Sched
import SynapseKernel.Proc.SchedCreate
import SynapseKernel.Proc.SchedQueues
import SynapseKernel.Proc.SchedRuns
import SynapseKernel.Proc.SchedStep
import SynapseKernel.Proc.Switch
import SynapseKernel.Proc.Syscall
import SynapseKernel.Proc.SystemFiles
import SynapseKernel.Proc.Task
import SynapseKernel.Proc.TaskBlocks
import SynapseKernel.Proc.TaskStates
import SynapseKernel.Proc.TimerInterrupt
import SynapseKernel.Proc.UserHeap
import SynapseKernel.Proc.UserMalloc
import SynapseKernel.Proc.UserUnmap
import SynapseKernel.Sbin.Taskmgrd
import SynapseKernel.Str.Atoi
import SynapseKernel.Str.Compare
import SynapseKernel.Str.Content
import SynapseKernel.Str.Decimal
import SynapseKernel.Str.Formatters
import SynapseKernel.Str.Memmove
import SynapseKernel.Str.NumberText
import SynapseKernel.Str.Printf
import SynapseKernel.Str.Scan
import SynapseKernel.Str.Snprintf
import SynapseKernel.Str.Strcat
import SynapseKernel.Str.Strcpy
import SynapseKernel.Str.Strncpy
import SynapseKernel.Str.Strstr
import SynapseKernel.Str.Strtok
import SynapseKernel.User.Programs
