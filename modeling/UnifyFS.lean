import UnifyFS.AppendStream
import UnifyFS.ArraylistRuns
import UnifyFS.AttrLookups
import UnifyFS.BroadcastReplies
import UnifyFS.ChunkLists
import UnifyFS.DataMessages
import UnifyFS.DescriptorCounts
import UnifyFS.DescriptorFlags
import UnifyFS.DescriptorRouting
import UnifyFS.DirectoryRemovals
import UnifyFS.DispatchReads
import UnifyFS.ExtentAddFailures
import UnifyFS.ExtentTree
import UnifyFS.FailedOpens
import UnifyFS.FailedSends
import UnifyFS.FailedSizeLookups
import UnifyFS.FidWrites
import UnifyFS.FileTransfers
import UnifyFS.FreeFids
import UnifyFS.HeaderSearch
import UnifyFS.IndexCapacity
import UnifyFS.LaminatedInodes
import UnifyFS.Lamination
import UnifyFS.LineReads
import UnifyFS.LioReturns
import UnifyFS.LocalService
import UnifyFS.MergeFailures
import UnifyFS.MreadLifetimes
import UnifyFS.NodeLocalReplies
import UnifyFS.OpenCallbacks
import UnifyFS.PendingSyncs
import UnifyFS.ReadCompletions
import UnifyFS.ReadErrors
import UnifyFS.ReadHoles
import UnifyFS.ReadSlots
import UnifyFS.ReadSubmissions
import UnifyFS.ReserveOrder
import UnifyFS.SegTreeMax
import UnifyFS.SegTreeOps
import UnifyFS.SegTreeOwners
import UnifyFS.SlotBounds
import UnifyFS.SlotReserves
import UnifyFS.StageStatus
import UnifyFS.StageTransfer
import UnifyFS.SyncFailures
import UnifyFS.SyncOrders
import UnifyFS.SyncedReads
import UnifyFS.TransferCompletions
import UnifyFS.TransferEnds
import UnifyFS.TransferStatus
import UnifyFS.UnbufferedStreams
import UnifyFS.UnlinkCallbacks
import UnifyFS.VectoredIo
