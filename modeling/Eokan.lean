import Eokan.CInt
import Eokan.ByteMem
import Eokan.Programs
import Eokan.PhyDisk
import Eokan.Device
import Eokan.Devread
import Eokan.DevreadOutcome
import Eokan.PartitionTable
import Eokan.Walks
import Eokan.PartitionWalk
import Eokan.PartitionSearch
import Eokan.PartitionCycles
import Eokan.PartitionSums
import Eokan.Layout
import Eokan.SortedScan
import Eokan.BlockMap
import Eokan.ExtentSearch
import Eokan.IndirectWalk
import Eokan.IndirectCache
import Eokan.CacheRuns
import Eokan.TableDescent
import Eokan.Chains
import Eokan.Holes
import Eokan.Inodes
import Eokan.Mount
import Eokan.ExtentTree
import Eokan.FailedLookups
import Eokan.LookupErrors
import Eokan.ReadFile
import Eokan.ReadFaults
import Eokan.MountChecks
import Eokan.ReadPlan
import Eokan.DeferredReads
import Eokan.FileMaps
import Eokan.ExtentCycles
import Eokan.ReadFrame
import Eokan.FileContent
import Eokan.ChunkedReads
import Eokan.DokanRead
import Eokan.NodeHeap
import Eokan.Directory
import Eokan.DirectoryNodes
import Eokan.NodeRuns
import Eokan.Entries
import Eokan.DirectoryReads
import Eokan.EntryVisits
import Eokan.DirectoryScan
import Eokan.InodeReads
import Eokan.InodePlaces
import Eokan.DeletedEntries
import Eokan.Resolve
import Eokan.NodeLedger
import Eokan.PointerSectors
import Eokan.PointerWidth
import Eokan.ScanCycles
import Eokan.ErrorFree
import Eokan.SymlinkReads
import Eokan.UnwrittenExtents
import Eokan.PathTokens
import Eokan.Fuel
import Eokan.EnoughFuel
import Eokan.Calls
import Eokan.LinkCalls
import Eokan.TargetReads
import Eokan.LinkEnds
import Eokan.TwoRuns
import Eokan.TypeBytes
import Eokan.TypeVisits
import Eokan.TypeReads
import Eokan.TypeSearch
import Eokan.UnknownSearch
import Eokan.LinkedNames
import Eokan.Trees
import Eokan.TreeSearch
import Eokan.TreeRuns
import Eokan.TreesOnDisk
import Eokan.Agreement
import Eokan.PlainTrees
import Eokan.FileNames
import Eokan.EntrySearch
import Eokan.NodeBounds
import Eokan.DriveLetters
import Eokan.VolumeLabel
import Eokan.SessionHandles
import Eokan.Interleaving
import Eokan.SessionLedger
import Eokan.TreeVolumes
import Eokan.DiskLock
import Eokan.ServiceControl
import Eokan.Startup
import Eokan.ReadBounds
import Eokan.SessionBounds
