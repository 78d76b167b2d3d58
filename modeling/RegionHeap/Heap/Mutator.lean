import RegionHeap.Heap.Basic

/-!
The program whose objects live in a heap. It allocates objects, links them and keeps some of them
in roots. It names an object by where it lies, by when it was allocated, or by a path of fields
from a root.
-/
set_option autoImplicit false

namespace RegionHeap

inductive Reference where
  | null
  | place (region word : Nat)
  /-- The object that was allocated so many objects after the first. Valid until objects move. -/
  | handle (number : Nat)
  | path (root : Strength) (slot : Nat) (fields : List Nat)
  deriving DecidableEq, Repr

structure Mutator where
  heap : Heap
  handles : Array Nat := #[]

namespace Mutator

def setMemory (w : Mutator) (m : Memory) : Mutator := { w with heap := w.heap.setMemory m }

def root (w : Mutator) (k : Strength) (slot : Nat) : Checked Nat :=
  match (w.heap.roots.slots k)[slot]? with
  | some object => .ok object
  | none => .error .outOfBounds

def resolve (w : Mutator) : Reference → Checked Nat
  | .null => .ok 0
  | .place region word => do
    let bottom ← Word.add w.heap.start (← Word.mul region w.heap.regionBytes)
    Address.addWords bottom word
  | .handle number => Table.get w.handles number
  | .path k slot fields => do
    fields.foldlM (Object.field w.heap.memory) (← w.root k slot)

def placeOf? (w : Mutator) (a : Nat) : Option Reference :=
  if a = 0 then some .null
  else if w.heap.contains a then
    let offset := a - w.heap.start
    some (.place (offset / w.heap.regionBytes) (offset % w.heap.regionBytes / 8))
  else none

def keep (w : Mutator) (id : Option Nat) : Option Nat × Heap → Checked (Option Nat × Mutator)
  | (none, h) => return (none, { w with heap := h })
  | (some object, h) => do
    let h ← match id with
      | some id => pure (h.setMemory (← Object.setId h.memory object id))
      | none => pure h
    return (some object, ⟨h, w.handles.push object⟩)

def allocate (w : Mutator) (region words fields : Nat) (id : Option Nat) :
    Checked (Option Nat × Mutator) := do
  w.keep id (← w.heap.newObject region words fields)

def allocateHumongous (w : Mutator) (words fields : Nat) (id : Option Nat) :
    Checked (Option Nat × Mutator) := do
  w.keep id (← w.heap.newHumongous words fields)

def fillFrom (region words fields : Nat) : Nat → Nat → Mutator → Checked Mutator
  | 0, _, w => .ok w
  | n + 1, id, w => do
    match ← w.allocate region words fields (some id) with
    | (none, w) => return w
    | (some _, w) => fillFrom region words fields n (id + 1) w

/-- Fills a region with objects, whose ids count from a thousand times its index. -/
def fill (w : Mutator) (region words fields : Nat) : Checked Mutator :=
  fillFrom region words fields (w.heap.regionWords + 1) (region * 1000) w

def format (w : Mutator) (object : Reference) (words fields : Nat) : Checked Mutator :=
  return w.setMemory (← Object.format w.heap.memory (← w.resolve object) words fields)

def field (w : Mutator) (object : Reference) (i : Nat) : Checked Nat := do
  Object.field w.heap.memory (← w.resolve object) i

def setField (w : Mutator) (object : Reference) (i : Nat) (target : Reference) :
    Checked Mutator := do
  let object ← w.resolve object
  let target ← w.resolve target
  return w.setMemory (← Object.setField w.heap.memory object i target)

/-- Links each object to the next through its first field. What the references name is settled
before the first link is set. -/
def chain (w : Mutator) (objects : List Reference) : Checked Mutator := do
  let os ← objects.mapM w.resolve
  let memory ← (os.zip os.tail).foldlM (fun m (object, next) => Object.setField m object 0 next)
    w.heap.memory
  return w.setMemory memory

def chainFrom (m : Memory) : Nat → Nat → List Nat
  | 0, _ => []
  | n + 1, object =>
    if object = 0 then []
    else object ::
      chainFrom m n (if Object.fieldCount m object = 0 then 0 else m.read (Object.slot object 0))

def chainOf (w : Mutator) (k : Strength) (slot : Nat) : Checked (List Nat) :=
  return chainFrom w.heap.memory (w.heap.regionCount * w.heap.regionWords) (← w.root k slot)

def addRoot (w : Mutator) (k : Strength) (object : Reference) : Checked (Nat × Mutator) := do
  let roots := w.heap.roots
  let object ← w.resolve object
  return ((roots.slots k).length, { w with heap := { w.heap with roots := roots.add k object } })

def setRoot (w : Mutator) (k : Strength) (slot : Nat) (object : Reference) : Checked Mutator := do
  let roots := w.heap.roots
  let slots ← Table.set (roots.slots k).toArray slot (← w.resolve object)
  return { w with heap := { w.heap with roots := roots.setSlots k slots.toList } }

def pin (w : Mutator) (object : Reference) : Checked Mutator := do
  return { w with heap := ← w.heap.pin (← w.resolve object) }

def unpin (w : Mutator) (object : Reference) : Checked Mutator := do
  return { w with heap := ← w.heap.unpin (← w.resolve object) }

end Mutator

end RegionHeap
