import PagedMap.Pager.Faulty
import PagedMap.Pager.Memory
import PagedMap.Pager.Miscounting
import PagedMap.Pager.PageFile
import PagedMap.Storage.File
import PagedMap.Storage.Scripted
import PagedMap.Tree.Cursor
import PagedMap.Tree.Levels
import PagedMap.Tree.Transaction
import PagedMap.Proofs.Page.Regions
import PagedMap.Proofs.Page.RegionUpdates
import PagedMap.Proofs.Page.Cuts
import PagedMap.Proofs.Page.Leaves
import PagedMap.Proofs.Page.LeafUpdates
import PagedMap.Proofs.Page.LeafLists
import PagedMap.Proofs.Page.NodeUpdates
import PagedMap.Proofs.Page.NodeLists
import PagedMap.Proofs.Page.Splits
import PagedMap.Proofs.Page.SplitPoints
import PagedMap.Proofs.Ending
import PagedMap.Proofs.Pager.PageLists
import PagedMap.Proofs.Pager.Atomic
import PagedMap.Proofs.Page.Views
import PagedMap.Proofs.Tree.Consulting
import PagedMap.Proofs.Page.Overflows
import PagedMap.Proofs.Tree.Values
import PagedMap.Proofs.Tree.Outlines
import PagedMap.Proofs.Tree.Descents
import PagedMap.Proofs.Tree.Orders
import PagedMap.Proofs.Tree.Contents
import PagedMap.Proofs.Tree.Keeping
import PagedMap.Proofs.Tree.Lookups
import PagedMap.Proofs.Tree.Iterations
import PagedMap.Proofs.Tree.Shadowing
import PagedMap.Proofs.Tree.Undoing
import PagedMap.Proofs.Tree.Partings
import PagedMap.Proofs.Tree.Rising
import PagedMap.Proofs.Tree.Layers
import PagedMap.Proofs.Tree.Propagating
import PagedMap.Proofs.Page.LeafSplits
import PagedMap.Proofs.Page.NodeSplits
import PagedMap.Proofs.Tree.Dividing
import PagedMap.Proofs.Tree.Shelves
import PagedMap.Proofs.Tree.Putting
import PagedMap.Proofs.Tree.Calls
import PagedMap.Proofs.Tree.Encodings
import PagedMap.Proofs.Tree.Committing
import PagedMap.Proofs.Tree.Opening
import PagedMap.Proofs.Tree.Runs
import PagedMap.Proofs.Tree.Refinement
import PagedMap.Proofs.Pager.PageFiles
import PagedMap.Proofs.Pager.Faults
import PagedMap.Proofs.Tree.Structure
import PagedMap.Proofs.Tree.Sharing
import PagedMap.Proofs.Tree.Ledgers
import PagedMap.Proofs.Tree.Aborting
import PagedMap.Proofs.Pager.Preparing
import PagedMap.Proofs.Pager.Recording
import PagedMap.Proofs.Pager.PageArrays
import PagedMap.Proofs.Pager.Reopening
import PagedMap.Proofs.Tree.Persistence
import PagedMap.Proofs.Pager.Stopping
import PagedMap.Proofs.Tree.Trellises
import PagedMap.Proofs.Tree.Reaching
import PagedMap.Proofs.Tree.Maintaining
import PagedMap.Proofs.Tree.Interrupting
import PagedMap.Proofs.Tree.Points
import PagedMap.Proofs.Tree.Guarding
import PagedMap.Proofs.Tree.Sparing
import PagedMap.Proofs.Tree.Creation
import PagedMap.Proofs.Pager.Watching
import PagedMap.Proofs.Tree.Decoding
import PagedMap.Proofs.Tree.Guiding
import PagedMap.Proofs.Tree.Remnants
import PagedMap.Proofs.Tree.Resuming
import PagedMap.Proofs.Tree.Growing
import PagedMap.Proofs.Page.RegionLists
import PagedMap.Proofs.Pager.Announcing
import PagedMap.Proofs.Tree.Searching
