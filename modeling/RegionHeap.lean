import RegionHeap.Address.Arithmetic
import RegionHeap.Address.Basic
import RegionHeap.Alloc.Arena
import RegionHeap.Alloc.BufferPool
import RegionHeap.Alloc.CardMemory
import RegionHeap.Alloc.FreeList
import RegionHeap.Alloc.NodeChains
import RegionHeap.Alloc.Recycler
import RegionHeap.Alloc.Rounds
import RegionHeap.Bitmap
import RegionHeap.BlockTable
import RegionHeap.Candidates.Group
import RegionHeap.Candidates.GroupList
import RegionHeap.Candidates.Operation
import RegionHeap.Candidates.Origin
import RegionHeap.Candidates.Registry
import RegionHeap.Candidates.Selection
import RegionHeap.Candidates.TaggedRegistry
import RegionHeap.Cards.CardSet
import RegionHeap.Cards.RemSet
import RegionHeap.Collection.Adjust
import RegionHeap.Collection.Attr
import RegionHeap.Collection.AttrTable
import RegionHeap.Collection.ChunkExchange
import RegionHeap.Collection.Collector
import RegionHeap.Collection.Compact
import RegionHeap.Collection.CompactionGang
import RegionHeap.Collection.CompactionPoint
import RegionHeap.Collection.Full
import RegionHeap.Collection.Mark
import RegionHeap.Collection.MarkStack
import RegionHeap.Collection.MarkingGang
import RegionHeap.Collection.Planning
import RegionHeap.Collection.Scope
import RegionHeap.Fault
import RegionHeap.Heap.Basic
import RegionHeap.Heap.Event
import RegionHeap.Heap.Mutator
import RegionHeap.Heap.Operation
import RegionHeap.Heap.Roots
import RegionHeap.IndexList
import RegionHeap.LazyState
import RegionHeap.LinkTable
import RegionHeap.ListOperation
import RegionHeap.Liveness
import RegionHeap.LivenessStorage
import RegionHeap.Mapping
import RegionHeap.Memory.Basic
import RegionHeap.Memory.Object
import RegionHeap.Options
import RegionHeap.Order.Insertion
import RegionHeap.Order.Merge
import RegionHeap.Order.Quick
import RegionHeap.Order.Runs
import RegionHeap.Order.Short
import RegionHeap.Policy
import RegionHeap.Proofs.Abandoning
import RegionHeap.Proofs.Accounting
import RegionHeap.Proofs.Adjusting
import RegionHeap.Proofs.Agreeing
import RegionHeap.Proofs.Blocks
import RegionHeap.Proofs.Candidates
import RegionHeap.Proofs.CardSets
import RegionHeap.Proofs.Carried
import RegionHeap.Proofs.Chain
import RegionHeap.Proofs.Checked
import RegionHeap.Proofs.ChunkExchange
import RegionHeap.Proofs.Chunks
import RegionHeap.Proofs.Claiming
import RegionHeap.Proofs.Collecting
import RegionHeap.Proofs.CollectingApart
import RegionHeap.Proofs.CollectingReuse
import RegionHeap.Proofs.Compacting
import RegionHeap.Proofs.CompactingAlone
import RegionHeap.Proofs.CompactingApart
import RegionHeap.Proofs.CompactingTogether
import RegionHeap.Proofs.Completing
import RegionHeap.Proofs.Consistency
import RegionHeap.Proofs.Copying
import RegionHeap.Proofs.Creating
import RegionHeap.Proofs.Entries
import RegionHeap.Proofs.ExactMarking
import RegionHeap.Proofs.Fates
import RegionHeap.Proofs.FirstFit
import RegionHeap.Proofs.Fitting
import RegionHeap.Proofs.Forgetting
import RegionHeap.Proofs.ForwardingPlan
import RegionHeap.Proofs.FreeRegions
import RegionHeap.Proofs.Gathering
import RegionHeap.Proofs.Graph
import RegionHeap.Proofs.Grouping
import RegionHeap.Proofs.Growing
import RegionHeap.Proofs.History
import RegionHeap.Proofs.HumongousMoves
import RegionHeap.Proofs.HumongousPlan
import RegionHeap.Proofs.Interleaving
import RegionHeap.Proofs.Layout
import RegionHeap.Proofs.Lending
import RegionHeap.Proofs.LinkTables
import RegionHeap.Proofs.Links
import RegionHeap.Proofs.Listing
import RegionHeap.Proofs.Lived
import RegionHeap.Proofs.LivenessSets
import RegionHeap.Proofs.LivenessStorage
import RegionHeap.Proofs.Lockstep
import RegionHeap.Proofs.Lookups
import RegionHeap.Proofs.MarkedSet
import RegionHeap.Proofs.Marking
import RegionHeap.Proofs.MarkingApart
import RegionHeap.Proofs.Marks
import RegionHeap.Proofs.Membership
import RegionHeap.Proofs.Moving
import RegionHeap.Proofs.NodeChains
import RegionHeap.Proofs.Nominating
import RegionHeap.Proofs.Operating
import RegionHeap.Proofs.Packing
import RegionHeap.Proofs.Pinning
import RegionHeap.Proofs.Places
import RegionHeap.Proofs.Placing
import RegionHeap.Proofs.Planned
import RegionHeap.Proofs.PlanningApart
import RegionHeap.Proofs.Preserving
import RegionHeap.Proofs.Ready
import RegionHeap.Proofs.Recording
import RegionHeap.Proofs.Recycling
import RegionHeap.Proofs.RegistryChecks
import RegionHeap.Proofs.Releasing
import RegionHeap.Proofs.Relocation
import RegionHeap.Proofs.Renewal
import RegionHeap.Proofs.Requests
import RegionHeap.Proofs.Reuse
import RegionHeap.Proofs.RunSearch
import RegionHeap.Proofs.Runs
import RegionHeap.Proofs.Scanning
import RegionHeap.Proofs.Searching
import RegionHeap.Proofs.Segments
import RegionHeap.Proofs.SerialPlan
import RegionHeap.Proofs.Shape
import RegionHeap.Proofs.Sharing
import RegionHeap.Proofs.Sites
import RegionHeap.Proofs.SlidePlan
import RegionHeap.Proofs.Sliding
import RegionHeap.Proofs.SlidingAtOnce
import RegionHeap.Proofs.SlotBalance
import RegionHeap.Proofs.Sorting
import RegionHeap.Proofs.StaleMarks
import RegionHeap.Proofs.Stopping
import RegionHeap.Proofs.Sums
import RegionHeap.Proofs.Tidy
import RegionHeap.Proofs.Trail
import RegionHeap.Proofs.Walk
import RegionHeap.Proofs.WellFormed
import RegionHeap.Proofs.WorkerPlan
import RegionHeap.Region.Basic
import RegionHeap.Region.Humongous
import RegionHeap.Region.Kind
import RegionHeap.Region.Table
import RegionHeap.Schedule.Claimer
import RegionHeap.Schedule.ClaimingGang
import RegionHeap.Schedule.Gang
import RegionHeap.Schedule.Terminator
import RegionHeap.Table
import RegionHeap.Word
