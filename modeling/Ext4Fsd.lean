import Ext4Fsd.Lib.CInt
import Ext4Fsd.Lib.Walk
import Ext4Fsd.Journal.Format
import Ext4Fsd.Journal.Tags
import Ext4Fsd.Journal.Recovery
import Ext4Fsd.Journal.Turns
import Ext4Fsd.Journal.Effects
import Ext4Fsd.Journal.Runs
import Ext4Fsd.Journal.Termination
import Ext4Fsd.Journal.Safety
import Ext4Fsd.Journal.Transactions
import Ext4Fsd.Journal.Contents
import Ext4Fsd.Journal.Open
import Ext4Fsd.Journal.Hostile
import Ext4Fsd.Journal.LogArea
import Ext4Fsd.Lib.Fallible
import Ext4Fsd.Extent.Layout
import Ext4Fsd.Extent.Store
import Ext4Fsd.Extent.Search
import Ext4Fsd.Extent.Insert
import Ext4Fsd.Extent.Remove
import Ext4Fsd.Extent.Blocks
import Ext4Fsd.Lib.Intervals
import Ext4Fsd.Extent.Tree
import Ext4Fsd.Extent.Way
import Ext4Fsd.Extent.Found
import Ext4Fsd.Journal.Restart
import Ext4Fsd.Journal.Visits
import Ext4Fsd.Journal.Passes
import Ext4Fsd.Journal.EarlyFailure
import Ext4Fsd.Journal.OpenResult
import Ext4Fsd.Journal.ScanResult
import Ext4Fsd.Extent.FailedSplit
import Ext4Fsd.Extent.Lookup
import Ext4Fsd.Extent.Mapping
import Ext4Fsd.Extent.Keys
import Ext4Fsd.Extent.ReadBlocks
import Ext4Fsd.Extent.Focus
import Ext4Fsd.Extent.InsertLeaf
import Ext4Fsd.Extent.Split
import Ext4Fsd.Extent.Halves
import Ext4Fsd.Extent.Rejoin
import Ext4Fsd.Extent.SplitTree
import Ext4Fsd.Extent.Prepared
import Ext4Fsd.Extent.MakeRoom
import Ext4Fsd.Extent.Grow
import Ext4Fsd.Extent.Landing
import Ext4Fsd.Extent.Insertion
import Ext4Fsd.Journal.Parse
import Ext4Fsd.Journal.TagWalk
import Ext4Fsd.Journal.Replayed
import Ext4Fsd.Journal.DataBlocks
import Ext4Fsd.Journal.InBlock
import Ext4Fsd.Journal.Readers
import Ext4Fsd.Journal.SkipRevoked
import Ext4Fsd.Journal.RevokeBlocks
import Ext4Fsd.Journal.BlockNumbers
import Ext4Fsd.Journal.Crc32c
import Ext4Fsd.Journal.TagCsums
import Ext4Fsd.Journal.LbcbLife
import Ext4Fsd.Journal.RevokeTable
import Ext4Fsd.Common.DrvCrc32
import Ext4Fsd.Inode.Times
import Ext4Fsd.Journal.TidOrder
import Ext4Fsd.Extent.Fields
import Ext4Fsd.Extent.Merge
import Ext4Fsd.Extent.NextBlock
import Ext4Fsd.Extent.Pending
import Ext4Fsd.Lib.Levels
import Ext4Fsd.Extent.Passing
import Ext4Fsd.Extent.RemoveEnds
import Ext4Fsd.Extent.NodeBounds
import Ext4Fsd.Extent.Rounds
import Ext4Fsd.Extent.PlainInsert
import Ext4Fsd.Extent.FailedInsert
import Ext4Fsd.Extent.InPlace
import Ext4Fsd.Extent.Coalesce
import Ext4Fsd.Common.DrvTree
import Ext4Fsd.Common.TreeInMemory
import Ext4Fsd.Common.TreeInsert
import Ext4Fsd.Common.TreeRemove
import Ext4Fsd.Common.TreeWalk
import Ext4Fsd.Common.TreeRuns
import Ext4Fsd.Journal.TableTree
import Ext4Fsd.Common.DrvAtomic
import Ext4Fsd.Extent.LeafCut
import Ext4Fsd.Extent.Linked
import Ext4Fsd.Extent.Sweep
import Ext4Fsd.Extent.RemoveSpace
import Ext4Fsd.Extent.Removed
import Ext4Fsd.Extent.Unmapping
import Ext4Fsd.Journal.LogChain
