import RegionHeap.Collection.Collector
import RegionHeap.Collection.MarkStack
import RegionHeap.Schedule.Terminator

/-!
Marking: everything that can be reached from the roots is marked in the liveness map, and the live
words of each region are counted. Then the weak roots to dead objects are cleared.
-/
set_option autoImplicit false

namespace RegionHeap

structure Marker where
  collector : Collector
  shared : MarkStack
  /-- The objects marked and not yet scanned, the newest first. -/
  stack : List Nat := []

namespace Marker

def share (k : Marker) : Checked Marker := do
  if k.stack.length < MarkStack.stackLimit then return k
  let (stack, shared) ← k.shared.pushChunk k.stack
  return { k with shared := shared, stack := stack }

def mark (k : Marker) (object : Nat) : Checked Marker := do
  let c := k.collector
  Fault.unless (c.heap.contains object) (.outsideHeap object)
  let region ← c.heap.regionOf object
  let attr ← c.attrs.get region
  if !attr.isMarkedThrough then
    Fault.unless (attr != .free) (.refersToFree object region)
    return k
  let (new, liveness) ← c.liveness.tryMark object
  let c := c.setLiveness liveness
  if !new then return { k with collector := c }
  let words := (← c.liveWords region) + Object.size c.memory object
  let c := { c with live := ← Table.set c.live region words }
  share { k with collector := c, stack := object :: k.stack }

def markReference (k : Marker) (object : Nat) : Checked Marker :=
  if object = 0 then .ok k else k.mark object

def markAll (k : Marker) (references : List Nat) : Checked Marker :=
  references.foldlM markReference k

def scanFrom (m : Memory) (object : Nat) : Nat → Nat → Marker → Checked Marker
  | 0, _, k => .ok k
  | n + 1, i, k => do scanFrom m object n (i + 1) (← k.markReference (m.read (Object.slot object i)))

def scan (k : Marker) (object : Nat) : Checked Marker :=
  let m := k.collector.memory
  scanFrom m object (Object.fieldCount m object) 0 k

/-- Scans objects until none is left, in so many steps. A step scans one object or takes one chunk
from the shared stack. -/
def drainIn : Nat → Marker → Checked Marker
  | 0, k => .ok k
  | n + 1, k =>
    match k.stack with
    | object :: rest => do drainIn n (← { k with stack := rest }.scan object)
    | [] =>
      match k.shared.popChunk [] with
      | (true, stack, shared) => drainIn n { k with shared := shared, stack := stack }
      | (false, _, _) => .ok k

theorem scanFrom_eq_markAll (m : Memory) (object n i : Nat) (k : Marker) :
    scanFrom m object n i k =
      k.markAll ((List.range' i n).map fun j => m.read (Object.slot object j)) := by
  induction n generalizing i k with
  | zero => rfl
  | succ n ih => simp only [scanFrom, ih, markAll, List.range'_succ, List.map_cons, List.foldlM_cons]

theorem scan_eq_markAll (k : Marker) (object : Nat) :
    k.scan object =
      k.markAll ((Object.slots k.collector.memory object).map k.collector.memory.read) := by
  simp [scan, scanFrom_eq_markAll, Object.slots, List.range_eq_range', Function.comp_def]

/-- Every word of the heap is marked, and so scanned, at most once. -/
def steps (h : Heap) : Nat := 2 * (h.regionCount * h.regionWords) + 1

def drain (k : Marker) : Checked Marker := drainIn (steps k.collector.heap) k

end Marker

namespace Collector

def markingRoots (c : Collector) : List Nat :=
  c.heap.roots.strong ++ if c.scope.clearSoft then [] else c.heap.roots.soft

def clearDead (c : Collector) (references : List Nat) : Checked (List Nat) :=
  references.mapM fun object => do
    if object = 0 then return object
    return if ← c.isAlive object then object else 0

def processReferences (c : Collector) : Checked Collector := do
  let roots := c.heap.roots
  let soft ← if c.scope.clearSoft then c.clearDead roots.soft else pure roots.soft
  let weak ← c.clearDead roots.weak
  return { c with heap := { c.heap with roots := { roots with soft := soft, weak := weak } } }

/-- The first worker starts from the roots; when it is done there is nothing left for the others.
All of them have to agree to stop. -/
def markLive (c : Collector) : Checked Collector := do
  let shared ← MarkStack.create c.heap.table.shared.rounds
  let k ← Marker.markAll { collector := c, shared := shared } c.markingRoots
  let k ← k.drain
  discard <| (c.heap.gang.runWith c.workers).foldlM (fun (t : Terminator) _ => do
    return (← t.offer (!k.shared.isEmpty)).2) { workers := c.workers }
  k.collector.processReferences

end Collector

end RegionHeap
