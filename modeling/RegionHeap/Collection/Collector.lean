import RegionHeap.Collection.AttrTable
import RegionHeap.Collection.CompactionPoint
import RegionHeap.Collection.Scope
import RegionHeap.Heap.Basic

/-!
The state of a full collection. Its tasks are spread over workers. Here the workers of a task work
one after the other; how marking, compacting and claiming workers interleave is the subject of the
gangs.
-/
set_option autoImplicit false

namespace RegionHeap

structure HumongousMove where
  source : Nat
  target : Nat
  count : Nat
  deriving DecidableEq, Repr

structure Collector where
  heap : Heap
  scope : Scope
  workers : Nat
  attrs : AttrTable
  live : Array Nat
  /-- Where the next object forwarded into each region goes. -/
  tops : Array Nat
  points : Array CompactionPoint
  serial : CompactionPoint := {}
  humongousStarts : List Nat := []
  moves : List HumongousMove := []
  freed : Bool := false
  /-- The regions that objects slide through. -/
  compacted : List Nat := []
  compactedLive : Nat := 0

namespace Collector

def create (h : Heap) (workers : Nat) (explicitRequest clearSoft maximal : Bool) : Collector where
  heap := h
  scope := .create explicitRequest clearSoft maximal h.regionWords h.options.compactionThreshold
  workers := workers
  attrs := ⟨Array.replicate h.regionCount .free⟩
  live := Array.replicate h.regionCount 0
  tops := Array.replicate h.regionCount 0
  points := Array.replicate workers {}

def memory (c : Collector) : Memory := c.heap.memory

def setMemory (c : Collector) (m : Memory) : Collector := { c with heap := c.heap.setMemory m }

def setTable (c : Collector) (t : RegionTable) : Collector :=
  { c with heap := { c.heap with table := t } }

def region (c : Collector) (i : Nat) : Checked Region := c.heap.table.get i

def liveness (c : Collector) : LivenessMap := c.heap.liveness

def setLiveness (c : Collector) (m : LivenessMap) : Collector :=
  { c with heap := { c.heap with liveness := m } }

def liveWords (c : Collector) (i : Nat) : Checked Nat := Table.get c.live i

def initialAttr (r : Region) : RegionAttr :=
  if r.kind.isFree then .free
  else if r.kind.isClosedArchive then .skipMarking
  else if r.isPinned then .skipCompacting
  else .compacting

def prepare (c : Collector) : Collector :=
  { c with attrs := ⟨c.heap.table.regions.map initialAttr⟩ }

/-- An object is live if marking reached it, or if it lies where marking does not go. -/
def isAlive (c : Collector) (object : Nat) : Checked Bool := do
  let region ← c.heap.regionOf object
  if (← c.attrs.get region) == .skipMarking then return true
  c.liveness.isMarked object

def freeRegion (c : Collector) (i : Nat) : Checked Collector := do
  let heap ← c.heap.updateRegion i fun r => return r.clear
  let heap := { heap with liveness := ← heap.liveness.reset i }
  return { c with heap := heap, attrs := ← c.attrs.set i .free, freed := true }

/-- Runs a task on the workers of the collection. The first worker runs on the caller's side, so
that its faults show as they are. -/
def run (c : Collector) (task : CollectionTask) (work : Nat → Collector → Checked Collector) :
    Checked Collector :=
  (c.heap.gang.runWith c.workers).foldlM (fun c worker =>
    match work worker c with
    | .ok c => .ok c
    | .error f => .error (if worker = 0 then f else .workerFailed task)) c

end Collector

end RegionHeap
