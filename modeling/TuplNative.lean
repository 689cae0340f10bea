import TuplNative.Slow.LeafNode.Map
import TuplNative.Slow.LeafNode.Capacity
import TuplNative.Slow.LeafNode.Completion
import TuplNative.Slow.LeafNode.MoveEntries
import TuplNative.Slow.InternalNode.ByteCount
import TuplNative.Slow.InternalNode.Split
import TuplNative.Slow.Tree.Exception
import TuplNative.Slow.Tree.Absorption
import TuplNative.Slow.Tree.Overflow
import TuplNative.Slow.Tree.Contents
import TuplNative.Slow.Tree.Separators
import TuplNative.Disabled.KeyComparator.LowerBound
import TuplNative.Disabled.PageAllocator.Allocation
import TuplNative.Types.Ordering
import TuplNative.ArrayStackGeneric.Assertions
import TuplNative.ArrayStackGeneric.Storage
import TuplNative.Ops.Store
import TuplNative.Ops.Find
import TuplNative.Ops.MoveFrames.Entries
import TuplNative.Latching.HandOverHand
import TuplNative.Ops.Threads
import TuplNative.Ops.Threads.Coupling
import TuplNative.Latching.Deadlock
import TuplNative.Ops.Threads.Inversion
import TuplNative.Ops.Threads.Unwinding
import TuplNative.Ops.Threads.Alone
import TuplNative.Slow.Tree.Conservation
import TuplNative.RoundRobin
import TuplNative.Ops.MoveFrames.Termination
import TuplNative.Slow.Tree.Lookup
import TuplNative.Ops.Sessions
import TuplNative.Disabled.PageAllocator.Runs
import TuplNative.Slow.LeafNode.Overfull
import TuplNative.BudgetedMap.Filling
import TuplNative.Slow.LeafNode.Filling
import TuplNative.Latching.History
import TuplNative.Ops.Threads.Stores
import TuplNative.Ops.Threads.Sequential
