import RegionHeap.Collection.Adjust
import RegionHeap.Collection.Compact
import RegionHeap.Collection.Mark
import RegionHeap.Collection.Planning

/-!
A full collection: mark the whole heap, plan where the live objects go, adjust the references and
slide the objects towards the bottom of the heap. At the end the heap is checked.
-/
set_option autoImplicit false

namespace RegionHeap

namespace Collector

/-- What is wrong with one region: a free one has to be empty, and the others, humongous ones
apart, sequences of objects that their block tables agree with. -/
def regionFlaw (c : Collector) (r : Region) : Checked (Option HeapFlaw) := do
  if r.kind.isFree then return if r.isEmpty then none else some (.freeNotEmpty r.figure)
  if r.kind.isHumongous then return none
  let last := Object.walkEnd c.memory r.bottom r.top
  if last ≠ r.top then return some (.objectsEndAt r.figure last)
  return (← r.blocks.verify c.memory r.top).map .blockTable

def firstFlaw (c : Collector) : List Region → Checked (Option HeapFlaw)
  | [] => .ok none
  | r :: rest => do
    match ← c.regionFlaw r with
    | some flaw => return some flaw
    | none => c.firstFlaw rest

def compactedWords (c : Collector) : Checked Nat := do
  let regions ← c.compacted.mapM c.region
  return Word.total ((regions.filter fun r => !r.kind.isHumongous).map fun r => r.used / 8)

/-- Checks the regions, and that compaction neither lost nor duplicated a live word. -/
def verify (c : Collector) : Checked (Option HeapFlaw) := do
  match ← c.firstFlaw c.heap.table.regions.toList with
  | some flaw => return some flaw
  | none =>
    let words ← c.compactedWords
    return if words = c.compactedLive then none else some (.wordsDiffer words c.compactedLive)

def collect (c : Collector) : Checked Collector := do
  let c ← c.markLive
  let c ← c.planCompaction
  let c ← c.adjustReferences
  c.compact

def complete (c : Collector) : Checked Collector := do
  let c := c.setLiveness (← c.liveness.resetAll)
  let c := { c with heap := ← c.heap.rebuildFreeList }
  match ← c.verify with
  | some flaw => .error (.verification flaw)
  | none => return c

end Collector

def Heap.fullCollect (h : Heap) (explicitRequest clearSoft maximal : Bool) : Checked Heap := do
  let h ← { h with collections := h.collections + 1 }.abandonCandidates
  let h := h.activateWorkers
  let c := (Collector.create h h.gang.active explicitRequest clearSoft maximal).prepare
  return (← (← c.collect).complete).heap

end RegionHeap
