import TomatoOs.Lib.Bytes
import TomatoOs.Lib.Words
import TomatoOs.Lib.Runs
import TomatoOs.Lib.Zipper
import TomatoOs.Kmem.Tiling
import TomatoOs.Kmem.Leak
import TomatoOs.Lib.Bitmap
import TomatoOs.Mem.Pmm
import TomatoOs.Mem.PmmOwnership
import TomatoOs.Lib.Radix
import TomatoOs.Mem.Paging
import TomatoOs.Mem.PagingLaws
import TomatoOs.Fs.Vfs
import TomatoOs.Fs.Catalog
import TomatoOs.Fs.VfsAccounts
import TomatoOs.Fs.VfsReads
import TomatoOs.Mem.Boot
import TomatoOs.Drivers.Nvme
import TomatoOs.Drivers.NvmeRing
import TomatoOs.Drivers.NvmeAdmin
import TomatoOs.Drivers.NvmeCalls
import TomatoOs.Fs.Ext2.Layout
import TomatoOs.Fs.Ext2.Kernel
import TomatoOs.Fs.Ext2.Inode
import TomatoOs.Fs.Ext2.Mount
import TomatoOs.Fs.Ext2.MountLaws
import TomatoOs.Fs.Ext2.Descriptors
import TomatoOs.Drivers.Disk
import TomatoOs.Drivers.Transfers
import TomatoOs.Drivers.Keyboard
import TomatoOs.Mem.PmmInit
import TomatoOs.Fs.Ext2.BlockMap
import TomatoOs.Fs.Ext2.Lookup
import TomatoOs.Lib.Sectors
import TomatoOs.Fs.Ext2.Writes
import TomatoOs.Fs.Ext2.Lock
import TomatoOs.Kmem.Contents
import TomatoOs.Kmem.Requests
import TomatoOs.Kmem.Coalesce
import TomatoOs.Mem.Entries
import TomatoOs.Mem.Rights
import TomatoOs.Mem.Exhausted
import TomatoOs.Mem.Translate
import TomatoOs.Drivers.NvmePointers
import TomatoOs.Cpu.Madt
import TomatoOs.Drivers.NvmeNamespaces
import TomatoOs.Cpu.IrqRouting
import TomatoOs.Kmem.Walks
import TomatoOs.Cpu.Descriptors
import TomatoOs.Drivers.PciConfig
import TomatoOs.Cpu.Exceptions
import TomatoOs.Cpu.SystemIo
import TomatoOs.Drivers.Scancodes
import TomatoOs.Drivers.Shell
import TomatoOs.Lib.Buffers
import TomatoOs.Stdio.Numbers
import TomatoOs.Stdio.Printf
import TomatoOs.Stdio.Formats
import TomatoOs.Libc.Memmove
import TomatoOs.Drivers.LineEditor
import TomatoOs.Stdio.Output
import TomatoOs.Drivers.Console
import TomatoOs.Mem.AddressSpace
import TomatoOs.Drivers.PciScan
import TomatoOs.Cpu.Interrupts
import TomatoOs.Kmem.Holdings
import TomatoOs.Cpu.PciHandles
import TomatoOs.Fs.Ext2.MountFrame
import TomatoOs.Drivers.BringUp
import TomatoOs.Fs.Ext2.Store
import TomatoOs.Drivers.NvmeDisk
import TomatoOs.Lib.Interleaving
import TomatoOs.Fs.Ext2.Concurrent
