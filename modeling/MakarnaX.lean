import MakarnaX.Library.Bytes
import MakarnaX.Library.Ring
import MakarnaX.Library.Links
import MakarnaX.Library.Buddy
import MakarnaX.Library.Checked
import MakarnaX.Library.Ledger
import MakarnaX.Library.Cursors
import MakarnaX.Library.System
import MakarnaX.Library.Placement
import MakarnaX.Library.Bits
import MakarnaX.Library.Timers
import MakarnaX.Wmc.List
import MakarnaX.Wmc.IdHashTable
import MakarnaX.Wmc.Sequences
import MakarnaX.DataStructures.Bitmap
import MakarnaX.Kernel.Basic
import MakarnaX.Memory.Kmalloc.Model
import MakarnaX.Memory.Kmalloc.Heap
import MakarnaX.Memory.Kmalloc.Rep
import MakarnaX.Memory.Kmalloc.Spec
import MakarnaX.Memory.Kmalloc.Run
import MakarnaX.Memory.Physical
import MakarnaX.Memory.Virtual
import MakarnaX.Memory.UserAddress
import MakarnaX.Memory.Frames.Physical
import MakarnaX.Memory.Frames.Virtual
import MakarnaX.Memory.Frames.Spec
import MakarnaX.Memory.Frames.Ranges
import MakarnaX.Memory.Frames.Run
import MakarnaX.Task.Model
import MakarnaX.Task.Spec
import MakarnaX.Task.Run
import MakarnaX.Task.Clock
import MakarnaX.Task.Effect
import MakarnaX.Task.Turn
import MakarnaX.Task.Steps
import MakarnaX.Task.Signals
import MakarnaX.Task.Reach
import MakarnaX.Task.Lists
import MakarnaX.Task.Leaves
import MakarnaX.Task.AlarmList
import MakarnaX.Task.Nodes
import MakarnaX.Task.Delivery
import MakarnaX.Task.Panics
import MakarnaX.Task.Wait
import MakarnaX.Task.RoundRobin
import MakarnaX.Task.Idle
import MakarnaX.Task.SignalTarget
import MakarnaX.Task.Sleepers
import MakarnaX.Task.Alarms
import MakarnaX.Library.WaitLists
import MakarnaX.Fs.InodeLock
import MakarnaX.Fs.DirentCache
import MakarnaX.Console
import MakarnaX.Ipc.Semaphore
import MakarnaX.Ipc.SemaphoreLaw
import MakarnaX.Ipc.SemaphoreRefine
import MakarnaX.Library.CString
import MakarnaX.Library.Rooted
import MakarnaX.Fs.Denemefs.Model
import MakarnaX.Fs.Denemefs.Directory
import MakarnaX.Fs.Denemefs.Tree
import MakarnaX.Fs.Denemefs.Calls
import MakarnaX.Fs.Denemefs.Run
import MakarnaX.Fs.Denemefs.Init
import MakarnaX.Fs.Denemefs.Names
import MakarnaX.Fs.Denemefs.Listing
import MakarnaX.Fs.Vfs.Model
import MakarnaX.Fs.Vfs.Basic
import MakarnaX.Fs.Vfs.Lookup
import MakarnaX.Fs.Vfs.Cache
import MakarnaX.Fs.Vfs.Find
import MakarnaX.Fs.Vfs.Along
import MakarnaX.Fs.Vfs.Disk
import MakarnaX.Fs.Vfs.Resolve
import MakarnaX.Fs.Vfs.Paths
import MakarnaX.Fs.Vfs.Acts
import MakarnaX.Fs.Vfs.Calls
import MakarnaX.Fs.Vfs.Effects
import MakarnaX.Fs.Vfs.Run
import MakarnaX.Fs.Vfs.Counts
import MakarnaX.Fs.Vfs.Objects
import MakarnaX.Fs.Vfs.Parents
import MakarnaX.Fs.Vfs.LongNames
import MakarnaX.Fs.Vfs.Getcwd
import MakarnaX.Fs.Vfs.FileIO
import MakarnaX.Library.Sections
import MakarnaX.Memory.Sections
import MakarnaX.Memory.Paging.Frames
import MakarnaX.Memory.Paging.Queue
import MakarnaX.Memory.Paging.Pages
import MakarnaX.Memory.Paging.Tables
import MakarnaX.Memory.Paging.Ready
import MakarnaX.Memory.Paging.TmpPages
import MakarnaX.Memory.Paging.Insert
import MakarnaX.Memory.Paging.SegmentFree
import MakarnaX.Memory.Paging.Release
import MakarnaX.Memory.Paging.Charge
import MakarnaX.Memory.Paging.Added
import MakarnaX.Memory.Paging.SegmentAlloc
import MakarnaX.Memory.Kmalloc.Machine
import MakarnaX.Fs.Vfs.Sections
import MakarnaX.TrapReturn
import MakarnaX.ParseCmd
