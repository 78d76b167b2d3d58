import RegionHeap.Collection.Collector

/-!
Adjusting: every reference in a root or in a live object is changed to where its object is going
to be.
-/
set_option autoImplicit false

namespace RegionHeap

def Object.redirect (m : Memory) (object : Nat) : Nat :=
  if object = 0 then 0 else Object.destination m object

def Object.adjustSlot (m : Memory) (slot : Nat) : Memory :=
  let object := m.read slot
  let target := Object.redirect m object
  if target = object then m else m.write slot target

def Object.adjust (m : Memory) (object : Nat) : Memory :=
  (Object.slots m object).foldl Object.adjustSlot m

def Roots.redirect (r : Roots) (m : Memory) : Roots where
  strong := r.strong.map (Object.redirect m)
  weak := r.weak.map (Object.redirect m)
  soft := r.soft.map (Object.redirect m)

namespace Collector

/-- Closed archive regions refer only to each other, and a humongous object is adjusted through
its first region. -/
def adjustRegion (c : Collector) (i : Nat) : Checked Collector := do
  let r ← c.region i
  if !(← c.attrs.get i).isMarkedThrough || r.kind.isContinuesHumongous then return c
  let memory ← LivenessMap.walk (fun _ => c.liveness) (fun m object =>
    let m := Object.adjust m object
    return (Object.size m object, m)) i r.top c.memory
  return c.setMemory memory

def adjustReferences (c : Collector) : Checked Collector := do
  let roots := c.heap.roots.redirect c.memory
  let c := { c with heap := { c.heap with roots := roots } }
  c.heap.table.indices.foldlM adjustRegion c

end Collector

end RegionHeap
