import LibPM.Recorded.Basic
import LibPM.Recorded.Ends
import LibPM.Model.Layout
import LibPM.Model.Mapper
import LibPM.Model.Snapshot
import LibPM.Model.Vector
import LibPM.Model.Slab
import LibPM.Model.Alloc
import LibPM.Model.Checkpoint
import LibPM.Model.Restore
import LibPM.Splay.Basic
import LibPM.Chains.Basic
import LibPM.Model.HTable
import LibPM.HTable.Basic
import LibPM.Model.Closure
import LibPM.Model.Cont
import LibPM.Allocator.Reopen
import LibPM.Memory.Access
import LibPM.Memory.Words
import LibPM.Recovery.FirstStore
import LibPM.Session.Basic
import LibPM.Memory.CopyOnWrite
import LibPM.Memory.Spared
import LibPM.Overlay.Basic
import LibPM.Memory.Stores
import LibPM.Memory.Bitmap
import LibPM.Recovery.Restore
import LibPM.Recovery.Relocation
import LibPM.Allocator.Nonlinear
import LibPM.Allocator.Space
import LibPM.Allocator.Progress
import LibPM.Allocator.Runs
import LibPM.Session.View
import LibPM.Session.Lists
import LibPM.Ledger.Basic
import LibPM.Session.Accounts
import LibPM.Session.Invariant
import LibPM.Session.Evolution
import LibPM.Session.Pages
import LibPM.Session.Fault
import LibPM.Session.Nodes
import LibPM.Session.Growth
import LibPM.Session.Tree
import LibPM.Session.Buckets
import LibPM.Session.Slots
import LibPM.Session.Bitmap
import LibPM.Session.Objects
import LibPM.Session.Entries
import LibPM.Allocator.Swaps
import LibPM.Allocator.Agreement
import LibPM.Tailq.Basic
import LibPM.Restore.Opened
import LibPM.Restore.Entry
import LibPM.Restore.Tables
import LibPM.Restore.Mapping
import LibPM.Restore.Committed
import LibPM.Restore.Again
import LibPM.Records.Overrun
import LibPM.Records.Fits
import LibPM.Records.Sessions
import LibPM.Records.Capacity
import LibPM.Root.Basic
import LibPM.Allocator.Protection
import LibPM.Restore.Queues
import LibPM.Restore.Indexed
import LibPM.Restore.Rebuilt
import LibPM.Allocator.Hint
import LibPM.Memory.Flush
import LibPM.Allocator.FileSize
import LibPM.SearchTree.Basic
import LibPM.Root.Lookup
import LibPM.Closure.Classify
import LibPM.LittleEndian.Basic
import LibPM.Model.Fixptr
import LibPM.Vector.Basic
import LibPM.Fixptr.List
import LibPM.Fixptr.Runs
import LibPM.Session.Limit
import LibPM.Session.Stands
import LibPM.Session.Progress
import LibPM.Session.Fresh
import LibPM.Session.Begun
import LibPM.Session.Order
import LibPM.Fixptr.Atomic
import LibPM.Session.Palloc
import LibPM.Session.Allocate
import LibPM.Session.Steps
import LibPM.Session.Commit
import LibPM.Session.Checkpoint
import LibPM.Arena.Basic
import LibPM.Session.Contents
import LibPM.Session.Client
import LibPM.Memory.Exposed
import LibPM.Restore.Saved
import LibPM.Session.Saved
import LibPM.Session.Secure
import LibPM.Session.Registered
import LibPM.Session.Crash
