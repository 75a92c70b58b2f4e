import AsoPracticas.Lib.Bitmap
import AsoPracticas.Lib.Bytes
import AsoPracticas.Lib.Chain
import AsoPracticas.Lib.Concurrent
import AsoPracticas.Lib.FreeList
import AsoPracticas.Lib.Getopt
import AsoPracticas.Lib.Interleave
import AsoPracticas.Lib.Links
import AsoPracticas.Lib.Loop
import AsoPracticas.Lib.Ownership
import AsoPracticas.Lib.Program
import AsoPracticas.Lib.RedoLog
import AsoPracticas.Lib.Ring
import AsoPracticas.Lib.Runs
import AsoPracticas.Lib.Store
import AsoPracticas.Lib.Threads
import AsoPracticas.Lib.Transition
import AsoPracticas.Tarea4.Acuerdo
import AsoPracticas.Tarea4.Argumentos
import AsoPracticas.Tarea4.Composicion
import AsoPracticas.Tarea4.Listas
import AsoPracticas.Tarea4.MergeBasura
import AsoPracticas.Tarea4.MergeFiles
import AsoPracticas.Tarea4.MergeOperandos
import AsoPracticas.Tarea4.MergeSplit
import AsoPracticas.Tarea4.MergeTrozos
import AsoPracticas.Tarea4.MergeV3
import AsoPracticas.Tarea4.MyStrings
import AsoPracticas.Tarea4.Recuento
import AsoPracticas.Tarea4.Sistema
import AsoPracticas.Tarea4.SplitFiles
import AsoPracticas.Tarea4.Transferencias
import AsoPracticas.Tarea4.Tuberia
import AsoPracticas.Xv6.Admission
import AsoPracticas.Xv6.Arguments
import AsoPracticas.Xv6.Bcache
import AsoPracticas.Xv6.Blocks
import AsoPracticas.Xv6.Buffers
import AsoPracticas.Xv6.ByteFiles
import AsoPracticas.Xv6.Coherence
import AsoPracticas.Xv6.Console
import AsoPracticas.Xv6.Contents
import AsoPracticas.Xv6.CopyUvm
import AsoPracticas.Xv6.Descriptors
import AsoPracticas.Xv6.Directories
import AsoPracticas.Xv6.Disk
import AsoPracticas.Xv6.EmptyDisk
import AsoPracticas.Xv6.Exec
import AsoPracticas.Xv6.ExecArgs
import AsoPracticas.Xv6.ExecLoad
import AsoPracticas.Xv6.ExecRun
import AsoPracticas.Xv6.Family
import AsoPracticas.Xv6.Format
import AsoPracticas.Xv6.Fs
import AsoPracticas.Xv6.Ftable
import AsoPracticas.Xv6.Grammar
import AsoPracticas.Xv6.Grep
import AsoPracticas.Xv6.GrepLines
import AsoPracticas.Xv6.GroupCommit
import AsoPracticas.Xv6.Icache
import AsoPracticas.Xv6.Ide
import AsoPracticas.Xv6.Image
import AsoPracticas.Xv6.Kvm
import AsoPracticas.Xv6.Log
import AsoPracticas.Xv6.Lookup
import AsoPracticas.Xv6.Malloc
import AsoPracticas.Xv6.Mapping
import AsoPracticas.Xv6.Memmove
import AsoPracticas.Xv6.Mkfs
import AsoPracticas.Xv6.MkfsFiles
import AsoPracticas.Xv6.MkfsImage
import AsoPracticas.Xv6.MkfsNames
import AsoPracticas.Xv6.Namespace
import AsoPracticas.Xv6.Naming
import AsoPracticas.Xv6.Paths
import AsoPracticas.Xv6.Pids
import AsoPracticas.Xv6.Pipe
import AsoPracticas.Xv6.PipeSleep
import AsoPracticas.Xv6.Ptable
import AsoPracticas.Xv6.Reclaim
import AsoPracticas.Xv6.Sbrk
import AsoPracticas.Xv6.Scheduling
import AsoPracticas.Xv6.Shell
import AsoPracticas.Xv6.Space
import AsoPracticas.Xv6.Stacks
import AsoPracticas.Xv6.Syscalls
import AsoPracticas.Xv6.Umalloc
import AsoPracticas.Xv6.UserMem
import AsoPracticas.Xv6.Uvm
import AsoPracticas.Xv6.Vm
import AsoPracticas.Xv6.Volume
import AsoPracticas.Xv6.Walks
