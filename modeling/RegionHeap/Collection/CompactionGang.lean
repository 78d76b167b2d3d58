import RegionHeap.Collection.Compact

/-!
Workers that compact together. Each of them goes through the regions of a queue of its own; in a
region it moves one marked object after the other, and then the region gets its new top. A schedule
tells which worker takes the next step.
-/
set_option autoImplicit false

namespace RegionHeap

inductive CompactPhase where
  | between
  /-- Moves the next object below a limit; its walk has come to an address. -/
  | walking (limit cursor : Nat)
  | walked
  deriving DecidableEq, Repr

structure CompactWorker where
  /-- The regions that do not have their tops yet. -/
  regions : List Nat
  phase : CompactPhase := .between
  visited : List Nat := []
  deriving DecidableEq, Repr

structure CompactionGang where
  collector : Collector
  workers : List CompactWorker

/-- The regions that the workers are going to compact, worker by worker. -/
def Collector.workerQueues (c : Collector) : List (List Nat) :=
  c.points.toList.map CompactionPoint.regions

namespace CompactionGang

def start (c : Collector) (queues : List (List Nat)) : CompactionGang :=
  ⟨c, queues.map fun regions => { regions := regions }⟩

def put (g : CompactionGang) (k : Nat) (w : CompactWorker) : CompactionGang :=
  { g with workers := g.workers.set k w }

def enter (g : CompactionGang) (k : Nat) (w : CompactWorker) (i : Nat) :
    Checked CompactionGang := do
  let r ← g.collector.region i
  Fault.unless (!r.isPinned) (.movesPinned r.figure)
  Fault.unless (!r.kind.isHumongous) (.slidesHumongous r.figure)
  let l := g.collector.liveness
  if !(← l.isRegionMarked i) then return g.put k { w with phase := .walked }
  return g.put k { w with phase := .walking r.top (l.regionStart i) }

def advance (g : CompactionGang) (k : Nat) (w : CompactWorker) (limit cursor : Nat) :
    Checked CompactionGang := do
  let found ← g.collector.liveness.next cursor limit
  if limit ≤ found then return g.put k { w with phase := .walked }
  let (words, heap) ← Collector.moveObject g.collector.heap found
  Fault.unless (0 < words) .precondition
  let cursor ← Address.addWords found words
  return { g with collector := { g.collector with heap := heap } }.put k
    { w with phase := .walking limit cursor, visited := w.visited ++ [found] }

def leave (g : CompactionGang) (k : Nat) (w : CompactWorker) (i : Nat) (rest : List Nat) :
    Checked CompactionGang := do
  let top ← Table.get g.collector.tops i
  let heap ← g.collector.heap.updateRegion i fun r => r.resetCompacted top
  return { g with collector := { g.collector with heap := heap } }.put k
    { w with regions := rest, phase := .between }

def step (g : CompactionGang) (k : Nat) : Checked CompactionGang :=
  match g.workers[k]? with
  | none => .ok g
  | some w =>
    match w.regions, w.phase with
    | [], _ => .ok g
    | i :: _, .between => g.enter k w i
    | _ :: _, .walking limit cursor => g.advance k w limit cursor
    | i :: rest, .walked => g.leave k w i rest

def run (g : CompactionGang) (schedule : List Nat) : Checked CompactionGang :=
  schedule.foldlM step g

def isOver (g : CompactionGang) : Bool := g.workers.all fun w => w.regions.isEmpty

end CompactionGang

end RegionHeap
