import RegionHeap.Collection.Collector

/-!
Compacting: live objects are copied to where they were planned to go, lowest first, and every
region gets its new top.
-/
set_option autoImplicit false

namespace RegionHeap.Collector

def moveObject (h : Heap) (object : Nat) : Checked (Nat × Heap) := do
  let words := Object.size h.memory object
  let h := { h with liveness := ← h.liveness.clear object }
  match Object.forwardee? h.memory object with
  | none => return (words, h)
  | some place =>
    Fault.unless (place < object) (.movesUp object place)
    return (words, h.setMemory (Object.unforward (h.memory.move object place words) place))

/-- Copies the live objects of a region and gives it the top that was planned. -/
def compactRegion (c : Collector) (i : Nat) : Checked Collector := do
  let r ← c.region i
  Fault.unless (!r.isPinned) (.movesPinned r.figure)
  Fault.unless (!r.kind.isHumongous) (.slidesHumongous r.figure)
  let heap ← LivenessMap.walk Heap.liveness moveObject i r.top c.heap
  let top ← Table.get c.tops i
  return { c with heap := ← heap.updateRegion i fun r => r.resetCompacted top }

def compactWorker (worker : Nat) (c : Collector) : Checked Collector := do
  (← Table.get c.points worker).regions.foldlM compactRegion c

def resetInPlace (c : Collector) : Checked Collector :=
  c.heap.table.indices.foldlM (fun c i => do
    if (← c.attrs.get i) != .skipCompacting then return c
    return { c with heap := ← c.heap.updateRegion i Region.resetInPlace }) c

def moveHumongous (c : Collector) (move : HumongousMove) : Checked Collector := do
  let object := (← c.region move.source).bottom
  let words := Object.size c.memory object
  let place := (← c.region move.target).bottom
  Fault.unless (Object.forwardee? c.memory object == some place) .precondition
  let c := c.setLiveness (← c.liveness.clear object)
  let c := c.setMemory (Object.unforward (c.memory.move object place words) place)
  let regions := List.range' move.source move.count ++ List.range' move.target move.count
  let table ← regions.foldlM (fun t i => t.update i fun r => return r.clear) c.heap.table
  return c.setTable (← table.placeHumongous move.target move.count place words)

def compact (c : Collector) : Checked Collector := do
  let c ← c.run .compact compactWorker
  let c ← c.resetInPlace
  let c ← c.serial.regions.foldlM compactRegion c
  c.moves.foldlM moveHumongous c

end RegionHeap.Collector
