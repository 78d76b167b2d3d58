import RegionHeap.Heap.Basic

/-!
What a program does with a heap, one operation after the other.
-/
set_option autoImplicit false

namespace RegionHeap

namespace Heap

inductive Operation where
  | allocateRegion (kind : RegionKind)
  | newObject (region words fields : Nat)
  | newHumongous (words fields : Nat)
  | setField (object field target : Nat)
  | setId (object value : Nat)
  | setRoots (roots : Roots)
  | pin (address : Nat)
  | unpin (address : Nat)
  | freeRegion (region : Nat)
  /-- The regions of a humongous object, one by one. -/
  | freeHumongous (regions : List Nat)
  deriving DecidableEq, Repr

def perform (h : Heap) : Operation → Checked Heap
  | .allocateRegion kind => return (← h.allocateRegion kind).2
  | .newObject region words fields => return (← h.newObject region words fields).2
  | .newHumongous words fields => return (← h.newHumongous words fields).2
  | .setField object field target =>
    return h.setMemory (← Object.setField h.memory object field target)
  | .setId object value => return h.setMemory (← Object.setId h.memory object value)
  | .setRoots roots => return { h with roots := roots }
  | .pin address => h.pin address
  | .unpin address => h.unpin address
  | .freeRegion region => h.freeRegion region
  | .freeHumongous regions => regions.foldlM freeHumongousRegion h

end Heap

end RegionHeap
