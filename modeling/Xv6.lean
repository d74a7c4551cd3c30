import Xv6.LabelledRuns
import Xv6.LittleEndian
import Xv6.Params
import Xv6.LogMachine
import Xv6.LogOps
import Xv6.LogInvariant
import Xv6.LogCommit
import Xv6.LogCrashAtomicity
import Xv6.LogReservation
import Xv6.LogBudget
import Xv6.LinkedRing
import Xv6.BufCache
import Xv6.BufRefs
import Xv6.BufLog
import Xv6.BufControl
import Xv6.BufExact
import Xv6.Panics
import Xv6.Ownership
import Xv6.ByteBitmap
import Xv6.FsLayout
import Xv6.FsInodes
import Xv6.FsOwnership
import Xv6.FsMapping
import Xv6.FsBmap
import Xv6.FsContent
import Xv6.FsFiles
import Xv6.FsImage
import Xv6.FsByteArrays
import Xv6.FsTruncate
import Xv6.FsDirs
import Xv6.FsIcache
import Xv6.FsDirSpec
import Xv6.FsConsistent
import Xv6.FsRuns
import Xv6.ProcMachine
import Xv6.ProcMoves
import Xv6.ProcPlaces
import Xv6.ProcMoved
import Xv6.ProcInv
import Xv6.ProcSched
import Xv6.ProcFamily
import Xv6.ProcTree
import Xv6.LockOrder
import Xv6.ProcDeadlock
import Xv6.ProcWait
import Xv6.ProcPids
import Xv6.ProcExits
import Xv6.ProcKill
import Xv6.ProcSleep
import Xv6.RingBuffer
import Xv6.PipeMachine
import Xv6.PipeSteps
import Xv6.PipeInv
import Xv6.PipeFifo
import Xv6.PipeReady
import Xv6.PipeAccounts
import Xv6.ConsoleMachine
import Xv6.ConsoleSteps
import Xv6.ConsoleLocks
import Xv6.RunSimulation
import Xv6.ConsoleLine
import Xv6.ConsoleAccounts
import Xv6.LogAdmission
import Xv6.VirtioMachine
import Xv6.VirtioTable
import Xv6.VirtioSteps
import Xv6.VirtioInv
import Xv6.VirtioQueue
import Xv6.VirtioRequests
import Xv6.RadixTree
import Xv6.Sv39
import Xv6.PhysMem
import Xv6.PageTable
import Xv6.PageTableMap
import Xv6.PageTableRuns
import Xv6.Mkfs
import Xv6.MkfsBlocks
import Xv6.MkfsAppend
import Xv6.MkfsImage
import Xv6.MkfsFormed
import Xv6.MkfsRead
import Xv6.FsNames
import Xv6.FsDirMap
import Xv6.FsPaths
import Xv6.FsLogged
import Xv6.FsWrites
import Xv6.FileCounts
import Xv6.SharedOffset
import Xv6.UserCopy
import Xv6.UserCopySafe
import Xv6.UserSpace
import Xv6.UserGrow
import Xv6.ExecStack
import Xv6.CircularList
import Xv6.Tiling
import Xv6.Umalloc
import Xv6.UmallocList
import Xv6.UmallocSound
import Xv6.UmallocSbrk
import Xv6.Monitors
import Xv6.SleepLocks
import Xv6.UartQueue
import Xv6.IntrNesting
import Xv6.ShellTokens
import Xv6.ShellParser
import Xv6.ShellGrammar
import Xv6.Memmove
import Xv6.Grep
import Xv6.GrepLines
import Xv6.Buffers
import Xv6.Ulib
import Xv6.TextLines
import Xv6.Xargs
