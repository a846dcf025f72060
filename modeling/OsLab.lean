import OsLab.Lib.Memory
import OsLab.Lib.Tiling
import OsLab.Kernel.Pmm.Model
import OsLab.Kernel.Pmm.FreeList
import OsLab.Kernel.Pmm.Header
import OsLab.Kernel.Pmm.Layout
import OsLab.Kernel.Pmm.Alloc
import OsLab.Kernel.Pmm.Free
import OsLab.Kernel.Pmm.Safety
import OsLab.Kernel.Kmt.Model
import OsLab.Kernel.Kmt.Scheduler
import OsLab.Kernel.Os.Contexts
import OsLab.Kernel.Vfs.Mounts
import OsLab.Kvdb.Model
import OsLab.Kvdb.Puts
import OsLab.Kernel.Blkfs.Allocation
import OsLab.Kernel.Blkfs.Coherence
import OsLab.Kernel.Blkfs.Leaks
import OsLab.Kvdb.Log
import OsLab.Kvdb.Recovery
import OsLab.Kernel.Blkfs.Access
import OsLab.Kernel.Blkfs.Alongside
import OsLab.Kernel.Blkfs.ByteArray
import OsLab.Kernel.Blkfs.Creates
import OsLab.Kernel.Blkfs.Intact
import OsLab.Kernel.Blkfs.Lookup
import OsLab.Kernel.Blkfs.Names
import OsLab.Kernel.Blkfs.Races
import OsLab.Kernel.Blkfs.Reach
import OsLab.Kernel.Blkfs.Serial
import OsLab.Kernel.Kmt.Spin
import OsLab.Kernel.Kmt.SpinSafety
import OsLab.Kernel.Pmm.Shape
import OsLab.Kernel.Vfs.Locks
import OsLab.Kernel.Vfs.Inversion
import OsLab.Kernel.Devices.Console
import OsLab.Kernel.Os.Boot
import OsLab.Kernel.Os.Rounds
import OsLab.Kvdb.Mutex
import OsLab.Kvdb.Apart
import OsLab.Kvdb.Processes
import OsLab.Kernel.Blkfs.Distinct
import OsLab.Kernel.Blkfs.Removal
import OsLab.Kernel.Blkfs.Undo
import OsLab.Kernel.Io.Closing
import OsLab.Kernel.Io.Output
import OsLab.Kernel.Os.Dispatch
import OsLab.Kernel.Pmm.DoubleFree
import OsLab.Kernel.Pmm.FirstFit
import OsLab.Kernel.Shell.Command
import OsLab.Kernel.Shell.Model
import OsLab.Libco.Chain
import OsLab.Kernel.Devices.Ramdisk
import OsLab.Kernel.Devices.Screen
import OsLab.Kernel.Devices.Display
import OsLab.Amgame.Game
import OsLab.Kernel.Devices.Terminal
import OsLab.Kernel.Io.Buffers
import OsLab.Kernel.Shell.Cwd
import OsLab.Kernel.Shell.Parse
import OsLab.Kernel.Blkfs.InRange
import OsLab.Kernel.Blkfs.Inside
import OsLab.Lib.Buffer
import OsLab.Klib.Stdio
import OsLab.Klib.Format
import OsLab.Klib.Printed
import OsLab.Klib.Correct
import OsLab.Kernel.Io.FirstLine
import OsLab.Kernel.Blkfs.Written
import OsLab.Kernel.Blkfs.PathMemory
import OsLab.Kernel.Shell.Registered
import OsLab.Klib.StringBuffers
import OsLab.Kernel.PathBuffers
import OsLab.Kernel.PathJoin
import OsLab.Kernel.Vfs.MountLookup
import OsLab.Kernel.Vfs.Memory
import OsLab.Kernel.Io.ProcfsReads
import OsLab.Lib.Heap
import OsLab.Kvdb.Safety
import OsLab.Klib.Pointers
import OsLab.Klib.Searching
import OsLab.Lib.Tiles
import OsLab.Amgame.Round
import OsLab.Amgame.Drawing
import OsLab.Sperf.Table
import OsLab.Lib.Forest
import OsLab.Pstree.Records
import OsLab.Pstree.Tree
import OsLab.Frecov.Safety
import OsLab.Frecov.Names
import OsLab.Am.Spaces
import OsLab.CompilerRt.Signed
import OsLab.Crepl.Session
import OsLab.Microbench.BfRuns
import OsLab.Microbench.Queen
import OsLab.Microbench.Sieve
import OsLab.Microbench.Qsort
import OsLab.Microbench.Fib
import OsLab.Am.Boot
import OsLab.Kernel.Shell.Session
