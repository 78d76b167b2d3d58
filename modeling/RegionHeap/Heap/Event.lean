import RegionHeap.Collection.Full
import RegionHeap.Heap.Operation

/-!
What happens to a heap: operations, references that are recorded, candidates that are chosen and
rated, rounds that pass, and collections. Candidates stay nominated until the next collection.
-/
set_option autoImplicit false

namespace RegionHeap.Heap

inductive Event where
  | operate (operation : Operation)
  /-- Regions for an object that is not formatted yet. -/
  | allocateHumongous (words : Nat)
  | record (region slot : Nat)
  | fromMarking (candidates : List Candidate)
  | retain (region : Nat)
  | sortMarking
  | sortRetained
  | rounds (rounds : Rounds)
  | collect (explicitRequest clearSoft maximal : Bool)

def record (h : Heap) (region slot : Nat) : Checked Heap := do
  let r ← h.table.get region
  Fault.unless (!r.kind.isFree) .precondition
  return { h with table := (← h.table.addReference region slot).2 }

def setSelection (h : Heap) (s : Selection) : Heap := { h with toSelection := s }

def happen (h : Heap) : Event → Checked Heap
  | .operate operation => h.perform operation
  | .allocateHumongous words => return (← h.allocateHumongous words).2
  | .record region slot => h.record region slot
  | .fromMarking candidates => return h.setSelection (← h.toSelection.fromMarking candidates)
  | .retain region => return h.setSelection (← h.toSelection.retain region)
  | .sortMarking => return h.setSelection (← h.toSelection.sortMarking)
  | .sortRetained => return h.setSelection (← h.toSelection.sortRetained)
  | .rounds rounds => return { h with table := h.table.withRounds rounds }
  | .collect explicitRequest clearSoft maximal =>
    h.fullCollect explicitRequest clearSoft maximal

def live (h : Heap) (events : List Event) : Checked Heap := events.foldlM happen h

namespace Event

def nominate (nominated : List Nat) : Event → List Nat
  | .fromMarking candidates => nominated ++ candidates.map Candidate.region
  | .retain region => nominated ++ [region]
  | .collect _ _ _ => []
  | .operate _ | .allocateHumongous _ | .record _ _ | .sortMarking | .sortRetained | .rounds _ =>
    nominated

/-- The regions that became candidates and were not collected since. -/
def nominated (events : List Event) : List Nat := events.foldl nominate []

end Event

end RegionHeap.Heap
