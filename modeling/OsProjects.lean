import OsProjects.Library.FirstFit
import OsProjects.Library.Runs
import OsProjects.Library.ScatteredStore
import OsProjects.Library.Windows
import OsProjects.Library.Simulation
import OsProjects.Library.Chains
import OsProjects.Library.Interleaving
import OsProjects.Filesystem.Layout
import OsProjects.Filesystem.Bitmap
import OsProjects.Filesystem.DataBlocks
import OsProjects.Filesystem.Ownership
import OsProjects.Filesystem.Growth
import OsProjects.Filesystem.Calls
import OsProjects.Filesystem.Creation
import OsProjects.Filesystem.Events
import OsProjects.Filesystem.Allocations
import OsProjects.Filesystem.Contents
import OsProjects.Filesystem.Sessions
import OsProjects.Filesystem.Splitting
import OsProjects.Filesystem.Contracts
import OsProjects.Filesystem.Accounting
import OsProjects.Filesystem.Allocator
import OsProjects.Filesystem.Rejections
import OsProjects.Filesystem.Indices
import OsProjects.Filesystem.Numbering
import OsProjects.Filesystem.FlatBlocks
import OsProjects.Filesystem.ReadRefusals
import OsProjects.Filesystem.CreateResults
import OsProjects.Filesystem.Placement
import OsProjects.Filesystem.Remnants
import OsProjects.Filesystem.Overwriting
import OsProjects.Memory.Frame
import OsProjects.Memory.LiveRanges
import OsProjects.Memory.Counters
import OsProjects.Memory.Translation
import OsProjects.Memory.PageTable
import OsProjects.Memory.Tables
import OsProjects.Memory.Mappings
import OsProjects.Memory.MappingRuns
import OsProjects.Memory.ChunkAddresses
import OsProjects.Memory.FreeLists
import OsProjects.Memory.ChunkRelease
import OsProjects.Memory.RangeMappings
import OsProjects.Memory.FrameContracts
import OsProjects.Memory.Locating
import OsProjects.Memory.FailedMappings
import OsProjects.Memory.Unmappings
import OsProjects.Memory.PageRelease
import OsProjects.Memory.AddressSpace
import OsProjects.Memory.TableFrames
import OsProjects.Memory.PageRequests
import OsProjects.Lists.Sequence
import OsProjects.Lists.Searches
import OsProjects.Threads.MutualExclusion
import OsProjects.Threads.RoundRobin
import OsProjects.Threads.Runnable
import OsProjects.Threads.Joining
import OsProjects.Threads.Conditions
import OsProjects.Threads.Preemption
import OsProjects.Threads.Numbers
import OsProjects.Threads.Timer
import OsProjects.Threads.Spinning
import OsProjects.Threads.ProducerConsumer
import OsProjects.Threads.Exclusion
import OsProjects.Threads.Slots
import OsProjects.Threads.MainThread
import OsProjects.Server.RequestList
import OsProjects.Server.RequestQueue
import OsProjects.Server.ThreadPool
import OsProjects.Server.Dispatch
import OsProjects.Server.ClientSteps
import OsProjects.Server.Replies
import OsProjects.Server.Delivery
import OsProjects.Server.Requests
import OsProjects.Server.Finality
import OsProjects.Server.Bounds
import OsProjects.Server.Passes
import OsProjects.Server.ClientList
import OsProjects.Server.EventLoop
import OsProjects.Server.AnnouncedLength
import OsProjects.Server.Reaping
import OsProjects.Server.PoolStops
import OsProjects.Server.Descriptors
import OsProjects.Server.RequestReaders
import OsProjects.Server.BothServers
