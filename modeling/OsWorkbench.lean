import OsWorkbench.Basic
import OsWorkbench.Lib.Chain
import OsWorkbench.Lib.Tiling
import OsWorkbench.Lib.CString
import OsWorkbench.Lib.Bytes
import OsWorkbench.Alloc.Model
import OsWorkbench.Alloc.Invariant
import OsWorkbench.Alloc.Blocks
import OsWorkbench.Alloc.FreeList
import OsWorkbench.Alloc.Partition
import OsWorkbench.Alloc.Coalesce
import OsWorkbench.Alloc.Accounts
import OsWorkbench.Alloc.Grants
import OsWorkbench.Alloc.Resources
import OsWorkbench.Kvdb.Model
import OsWorkbench.Kvdb.Rep
import OsWorkbench.Kvdb.Ops
import OsWorkbench.Kvdb.Files
import OsWorkbench.Kvdb.Store
import OsWorkbench.Kvdb.Refine
import OsWorkbench.Kvdb.Fresh
import OsWorkbench.Kvdb.Full
import OsWorkbench.Kvdb.Log
import OsWorkbench.Kvdb.Torn
import OsWorkbench.Kvdb.Recovery
import OsWorkbench.Kvdb.Stopped
import OsWorkbench.Kvdb.Shared
import OsWorkbench.Kvdb.Threads
import OsWorkbench.Lib.Ring
import OsWorkbench.Kmt.Model
import OsWorkbench.Kmt.Spin
import OsWorkbench.Kmt.Semaphore
import OsWorkbench.Kmt.Sched
import OsWorkbench.Kmt.Select
import OsWorkbench.Lib.Bitmap
import OsWorkbench.Ext2.Model
import OsWorkbench.Ext2.Volume
import OsWorkbench.Ext2.Bitmaps
import OsWorkbench.Ext2.Dir
import OsWorkbench.Ext2.Consistent
import OsWorkbench.Ext2.Create
import OsWorkbench.Ext2.Allocators
import OsWorkbench.Ext2.Format
import OsWorkbench.Ext2.Independent
import OsWorkbench.Ext2.Oversize
import OsWorkbench.Ext2.Reading
import OsWorkbench.Ext2.Resize
import OsWorkbench.Ext2.Writing
import OsWorkbench.Ext2.Contents
import OsWorkbench.Ext2.Ownership
import OsWorkbench.Ext2.Removing
import OsWorkbench.Ext2.Unlinking
import OsWorkbench.Ext2.Runs
import OsWorkbench.Lib.Orbit
import OsWorkbench.Vfs.Model
import OsWorkbench.Vfs.Image
import OsWorkbench.Vfs.Failing
import OsWorkbench.Vfs.Files
import OsWorkbench.Vfs.Descriptors
import OsWorkbench.Vfs.Tree
import OsWorkbench.Vfs.Rings
import OsWorkbench.Vfs.Build
import OsWorkbench.Vfs.Walk
import OsWorkbench.Vfs.Paths
import OsWorkbench.Vfs.Populate
import OsWorkbench.Vfs.Remove
import OsWorkbench.Lib.Count
import OsWorkbench.Kmt.Buffer
import OsWorkbench.Dev.Model
import OsWorkbench.Dev.Tty
import OsWorkbench.Dev.Screen
import OsWorkbench.Dev.Input
import OsWorkbench.Dev.Keyboard
import OsWorkbench.Vfs.Names
import OsWorkbench.Vfs.HardLinks
import OsWorkbench.Vfs.LinkRuns
import OsWorkbench.Vfs.Plan
import OsWorkbench.Vfs.Reach
import OsWorkbench.Vfs.Careful
import OsWorkbench.Vfs.Runs
import OsWorkbench.Vfs.Start
import OsWorkbench.Vfs.RingRuns
import OsWorkbench.Snake.Model
import OsWorkbench.Snake.Body
import OsWorkbench.Snake.Play
import OsWorkbench.Libco.Model
import OsWorkbench.Lib.Traced
import OsWorkbench.Libco.Select
import OsWorkbench.Libco.Identity
import OsWorkbench.Kmt.Procfs
import OsWorkbench.Klib.Memory
import OsWorkbench.Lib.Path
import OsWorkbench.Pstree.Model
import OsWorkbench.Pstree.Lists
import OsWorkbench.Pstree.Print
import OsWorkbench.Pstree.Order
import OsWorkbench.Pstree.Render
import OsWorkbench.Kmt.Table
import OsWorkbench.Lib.Exchange
import OsWorkbench.Irq.Model
import OsWorkbench.Irq.Order
import OsWorkbench.Sperf.Model
import OsWorkbench.Sperf.Profile
import OsWorkbench.Libco.Progress
import OsWorkbench.Klib.Stdio
import OsWorkbench.Klib.Numbers
import OsWorkbench.Klib.Printing
import OsWorkbench.Frecov.Model
import OsWorkbench.Frecov.Entries
import OsWorkbench.Frecov.Names
import OsWorkbench.Lib.Fill
import OsWorkbench.Dev.Video
import OsWorkbench.Frecov.Scan
import OsWorkbench.Frecov.Safe
import OsWorkbench.Dev.Display
import OsWorkbench.Lib.Owned
import OsWorkbench.Vme.Model
import OsWorkbench.Vme.Tables
import OsWorkbench.Vme.Spaces
import OsWorkbench.Vme.Runs
import OsWorkbench.Bf.Compile
import OsWorkbench.Bf.Run
import OsWorkbench.Typing.Model
import OsWorkbench.Typing.Lists
import OsWorkbench.Typing.Play
