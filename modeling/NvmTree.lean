import NvmTree.RangeTree.Basic
import NvmTree.RangeTree.Tree
import NvmTree.Blk.Cache
import NvmTree.Blk.FileAccessor
import NvmTree.Blk.NvmeReads
import NvmTree.Blk.Addresses
import NvmTree.Blk.Lru
import NvmTree.Lib.BinarySearch
import NvmTree.Node.Leaf
import NvmTree.RangeTree.Update
import NvmTree.RangeTree.Merge
import NvmTree.Node.Inner
import NvmTree.Vanilla.Tree
import NvmTree.RangeTree.Edge
import NvmTree.Vanilla.Insert
import NvmTree.Vanilla.Delete
import NvmTree.Vanilla.Map
import NvmTree.RangeTree.Walk
import NvmTree.Vanilla.Structure
import NvmTree.Vanilla.Range
import NvmTree.RangeTree.Moves
import NvmTree.Concurrent.Tree
import NvmTree.RangeTree.Descent
import NvmTree.Concurrent.Invariant
import NvmTree.Vanilla.Subscripts
import NvmTree.Blk.Allocator
import NvmTree.Pull.Tree
import NvmTree.Pull.Barrier
import NvmTree.Pull.Scheduler
import NvmTree.Pull.Books
import NvmTree.Pull.Conserve
import NvmTree.Pull.Know
import NvmTree.Pull.Shared
import NvmTree.Pull.Driven
import NvmTree.Pull.InsertDown
import NvmTree.RangeTree.Flush
import NvmTree.Pull.InsertUp
import NvmTree.Pull.SearchRun
import NvmTree.Pull.Worker
import NvmTree.Pull.Prompt
import NvmTree.Pull.Sound
import NvmTree.Pull.Progress
import NvmTree.Pull.Serial
import NvmTree.Lib.Bytes
import NvmTree.Node.Encoding
import NvmTree.Vanilla.Occupancy
import NvmTree.OnDisk.Tree
import NvmTree.OnDisk.Rename
import NvmTree.OnDisk.Insert
import NvmTree.OnDisk.Delete
import NvmTree.OnDisk.Refine
import NvmTree.OnDisk.Scan
import NvmTree.OnDisk.Decode
import NvmTree.OnDisk.Blocks
import NvmTree.OnDisk.Reads
import NvmTree.Pull.Inherited
import NvmTree.Blk.DedicatedAccessor
import NvmTree.Concurrent.Accesses
import NvmTree.Concurrent.Search
import NvmTree.Concurrent.Optimistic
import NvmTree.Concurrent.Pessimistic
import NvmTree.Node.SearchLoops
import NvmTree.Lib.ArrayLoops
import NvmTree.Node.BalanceLoops
import NvmTree.Blk.FileCompletions
import NvmTree.Blk.QPair
import NvmTree.Concurrent.LockBalance
import NvmTree.Concurrent.Linearizable
import NvmTree.Concurrent.LeafLocks
import NvmTree.Concurrent.Progress
import NvmTree.Lib.Drain
import NvmTree.Concurrent.Returns
import NvmTree.Alone.Machine
import NvmTree.Alone.Disk
import NvmTree.Alone.Threads
import NvmTree.Alone.Context
import NvmTree.Alone.Pull
import NvmTree.Alone.Served
import NvmTree.Alone.Agree
