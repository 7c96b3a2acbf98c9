import Xv6.Lib.Lts
import Xv6.Lib.Place
import Xv6.Lib.Ring
import Xv6.Lib.Radix
import Xv6.Lib.Linked
import Xv6.Lib.Sum
import Xv6.Lib.Held
import Xv6.Lib.Code
import Xv6.Lib.Wp
import Xv6.Lib.Rel
import Xv6.Lib.Writes
import Xv6.Lib.Chain
import Xv6.Param
import Xv6.LogOps
import Xv6.LogCommit
import Xv6.LogReserve
import Xv6.Bio
import Xv6.BioSpec
import Xv6.Bcache
import Xv6.LogDisk
import Xv6.LogSpec
import Xv6.LogCrash
import Xv6.Proc
import Xv6.ProcStep
import Xv6.ProcSect
import Xv6.ProcView
import Xv6.ProcTable
import Xv6.ProcInv
import Xv6.ProcConts
import Xv6.ProcMoves
import Xv6.ProcLists
import Xv6.ProcMembers
import Xv6.ProcPids
import Xv6.ProcSleep
import Xv6.ProcRootdir
import Xv6.ProcReturn
import Xv6.ProcFamily
import Xv6.ProcReap
import Xv6.SleepWakeup
import Xv6.KillSleep
import Xv6.ProcKill
import Xv6.ProcRecycle
import Xv6.FsProg
import Xv6.Fs
import Xv6.FsSys
import Xv6.FsProgSpec
import Xv6.FsInv
import Xv6.FsClean
import Xv6.PageTable
import Xv6.Vm
import Xv6.MemCalls
import Xv6.MemSys
import Xv6.MemRes
import Xv6.VmSpec
import Xv6.VmSpace
import Xv6.MemSpec
import Xv6.ExecSpec
import Xv6.MemInv
import Xv6.MemOwner
import Xv6.MemFiles
import Xv6.Dir
import Xv6.DirCalls
import Xv6.DirSys
import Xv6.DirAct
import Xv6.DirRes
import Xv6.DirOwn
import Xv6.DirUse
import Xv6.DirPut
import Xv6.DirCrash
import Xv6.DirTrans
import Xv6.DirTree
import Xv6.DirLinks
import Xv6.DirShape
import Xv6.DirDangle
import Xv6.DirCount
import Xv6.DirSeq
import Xv6.DirFail
import Xv6.DirPath
import Xv6.KernelList
import Xv6.Pipe
import Xv6.PipeWakeup
import Xv6.PipeFifo
import Xv6.Tables
import Xv6.TablesSpec
import Xv6.Virtio
import Xv6.VirtioSpec
import Xv6.VirtioRun
import Xv6.VirtioHist
import Xv6.PageWalk
import Xv6.PageMap
import Xv6.CopyOut
import Xv6.Lib.Bytes
import Xv6.Lib.Circle
import Xv6.Umalloc
import Xv6.UmallocSpec
import Xv6.UmallocHeap
import Xv6.UmallocRun
import Xv6.CopyBytes
import Xv6.PipeRead
import Xv6.Console
import Xv6.ConsoleIntr
import Xv6.Phys
import Xv6.UvmCopy
import Xv6.GrowProc
import Xv6.Exec
import Xv6.ExecLoad
import Xv6.ExecStack
import Xv6.ExecRun
import Xv6.Lib.Memory
import Xv6.Memmove
import Xv6.Lib.Runs
import Xv6.ListOrder
import Xv6.ListReverse
import Xv6.ListSort
import Xv6.ListUnique
import Xv6.Lib.Pattern
import Xv6.GrepMatch
import Xv6.Lib.Lines
import Xv6.Grep
import Xv6.Lib.Numeral
import Xv6.Printf
import Xv6.Cat
import Xv6.FileRead
import Xv6.ProcName
import Xv6.FsSeq
import Xv6.FsAlloc
import Xv6.FsBlocks
import Xv6.FsFile
import Xv6.FsInode
import Xv6.FsWrite
import Xv6.FsRead
import Xv6.FsTrunc
import Xv6.FsStore
import Xv6.FsAlone
import Xv6.FsSolo
import Xv6.FsCommit
import Xv6.FsSerial
import Xv6.FsBoot
import Xv6.FsLives
import Xv6.Sh
import Xv6.ShToken
import Xv6.ShGrammar
import Xv6.ShWords
import Xv6.ShPrint
import Xv6.Itable
import Xv6.ItableInv
import Xv6.ItableStep
import Xv6.ItableLost
import Xv6.ItableBlocks
import Xv6.ItableDirs
