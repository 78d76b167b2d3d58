import RegionHeap.Candidates.Selection
import RegionHeap.Heap.Roots
import RegionHeap.IndexList
import RegionHeap.Liveness
import RegionHeap.Region.Humongous
import RegionHeap.Schedule.Gang

/-!
A heap of equally sized regions. Regions are handed out lowest first; an object larger than a
region takes the lowest run of free regions that holds it.
-/
set_option autoImplicit false

namespace RegionHeap

structure Heap extends Selection where
  options : Options
  start : Nat
  liveness : LivenessMap
  gang : Gang
  /-- The free regions, ascending. -/
  freeList : IndexList
  collections : Nat := 0
  roots : Roots := {}

namespace Heap

/-- A heap of at least so many bytes. It starts with the first region that lies in the range that
the system maps, which has room for one more. -/
def create (system : Mapping.System) (rounds : Rounds) (o : Options) (bytes : Nat) (p : Policy) :
    Checked Heap := do
  let count := Word.divCeil bytes o.regionSize
  Fault.unless (0 < count) (.emptyHeap bytes)
  let size ← Word.mul count o.regionSize
  let reserved ← system.reserve .heap (← Word.add size o.regionSize)
  let start ← Address.alignUp reserved o.regionSize
  system.commit start size
  let table ← RegionTable.create start count o.regionSize (← CardSet.configuration rounds o)
  return {
    options := o
    start := start
    table := table
    liveness := ← LivenessMap.create system start count o.regionSize
    candidates := .initial count
    policy := p
    gang := ← Gang.create o.threads
    freeList := ⟨List.range count⟩ }

def regionBytes (h : Heap) : Nat := h.options.regionSize

def regionWords (h : Heap) : Nat := h.options.regionWords

def regionCount (h : Heap) : Nat := h.table.size

def limit (h : Heap) : Nat := h.start + h.regionCount * h.regionBytes

def memory (h : Heap) : Memory := h.table.memory

def setMemory (h : Heap) (m : Memory) : Heap := { h with table := { h.table with memory := m } }

def contains (h : Heap) (a : Nat) : Bool := h.start ≤ a && a < h.limit

def text (h : Heap) (a : Nat) : String :=
  if h.start ≤ a ∧ a ≤ h.limit then "heap+" ++ Address.text (a - h.start) else "0x?"

def freeCount (h : Heap) : Nat := h.freeList.length

def usedCount (h : Heap) : Nat := h.regionCount - h.freeCount

def used (h : Heap) : Nat := h.table.used

def regionOf (h : Heap) (a : Nat) : Checked Nat := do
  Fault.unless (h.contains a) (.notInHeap a)
  return (a - h.start) / h.regionBytes

def isHumongous (h : Heap) (words : Nat) : Bool := h.regionWords / 2 < words

def regionsFor (h : Heap) (words : Nat) : Nat := Word.divCeil words h.regionWords

def humongousSpan (h : Heap) (r : Region) : Nat :=
  h.regionsFor (Object.size h.memory r.bottom)

def updateRegion (h : Heap) (i : Nat) (f : Region → Checked Region) : Checked Heap :=
  return { h with table := ← h.table.update i f }

def isAllocatable : RegionKind → Bool
  | .eden | .survivor | .old | .openArchive | .closedArchive => true
  | .free | .startsHumongous | .continuesHumongous => false

def allocateRegion (h : Heap) (kind : RegionKind) : Checked (Option Nat × Heap) := do
  match h.freeList.removeFirst with
  | (none, _) => return (none, h)
  | (some i, rest) =>
    let r ← h.table.get i
    Fault.unless (r.kind.isFree && r.isEmpty) (.freeListNotFree r.figure)
    Fault.unless (isAllocatable kind) (.notAllocatable kind)
    let h ← { h with freeList := rest }.updateRegion i fun r => r.assign kind
    return (some i, h)

/-- The start of the first run of so many consecutive ids. The run seen last begins and is as long
as given. -/
def firstRun (count : Nat) : List Nat → Nat → Nat → Option Nat
  | [], _, _ => none
  | i :: rest, start, length =>
    let (start, length) :=
      if 0 < length ∧ i = start + length then (start, length + 1) else (i, 1)
    if length = count then some start else firstRun count rest start length

/-- Takes the lowest run of free regions that holds an object of so many words. -/
def allocateHumongous (h : Heap) (words : Nat) : Checked (Option Nat × Heap) := do
  let count := h.regionsFor words
  match firstRun count h.freeList.ids 0 0 with
  | none => return (none, h)
  | some first =>
    let freeList := (List.range' first count).foldl IndexList.erase h.freeList
    let object := (← h.table.get first).bottom
    let table ← h.table.placeHumongous first count object words
    return (some object, { h with freeList := freeList, table := table })

def newObject (h : Heap) (i words fields : Nat) : Checked (Option Nat × Heap) := do
  let (object, table) ← h.table.newObject i words fields
  return (object, { h with table := table })

def newHumongous (h : Heap) (words fields : Nat) : Checked (Option Nat × Heap) := do
  match ← h.allocateHumongous words with
  | (none, h) => return (none, h)
  | (some object, h) =>
    return (some object, h.setMemory (← Object.format h.memory object words fields))

def insertFree (h : Heap) (i : Nat) : Checked Heap := do
  Fault.unless (!h.freeList.contains i) (.alreadyFree i)
  let freeList ← match h.freeList.ids.find? (i < ·) with
    | some later => h.freeList.insertBefore later i
    | none => h.freeList.insertLast i
  return { h with freeList := freeList }

def release (h : Heap) (i : Nat) : Checked Heap := do
  let h ← h.updateRegion i fun r => return r.clear
  { h with liveness := ← h.liveness.reset i }.insertFree i

def freeRegion (h : Heap) (i : Nat) : Checked Heap := do
  let r ← h.table.get i
  Fault.unless (!r.kind.isHumongous) (.isHumongous r.figure)
  h.release i

def freeHumongousRegion (h : Heap) (i : Nat) : Checked Heap := do
  let r ← h.table.get i
  Fault.unless r.kind.isHumongous (.notHumongous r.figure)
  h.release i

def rebuildFreeList (h : Heap) : Checked Heap := do
  let free := h.table.regions.toList.filter fun r => r.kind.isFree
  let freeList ← free.foldlM (fun (l : IndexList) r => do
    Fault.unless r.isEmpty (.freeNotEmpty r.figure)
    l.insertLast r.index) {}
  return { h with freeList := freeList }

def pin (h : Heap) (a : Nat) : Checked Heap := do
  h.updateRegion (← h.regionOf a) fun r => return r.pin

def unpin (h : Heap) (a : Nat) : Checked Heap := do
  h.updateRegion (← h.regionOf a) Region.unpin

/-- Abandons all candidates; their regions remember references on their own again. -/
def abandonCandidates (h : Heap) : Checked Heap :=
  return { h with toSelection := ← h.toSelection.clear }

/-- How many workers a full collection gets: no more than the waste allowed for pays for, than the
used bytes justify, and than there are used regions. -/
def workersFor (h : Heap) : Nat :=
  let most := h.gang.size
  if !h.options.dynamicThreads then most
  else
    let waste := max (h.regionCount * h.options.heapWastePercent / 100 * 2) 1
    let adaptive := min (max (Word.divCeil h.used h.options.heapBytesPerThread) 1) most
    min (min (min waste most) adaptive) h.usedCount

def activateWorkers (h : Heap) : Heap := { h with gang := h.gang.activate h.workersFor }

end Heap

end RegionHeap
