import RegionHeap.Address.Basic
import RegionHeap.Candidates.Origin
import RegionHeap.Collection.Attr
import RegionHeap.Region.Kind

/-!
Why an operation of the library is refused. A fault names its cause; the wording stands in
`Fault.message`, which leaves the text of an address to its caller, so that a heap can be
described relative to its own start.
-/
set_option autoImplicit false

namespace RegionHeap

structure RegionFigure where
  index : Nat
  kind : RegionKind
  bottom : Nat
  top : Nat
  limit : Nat
  pinned : Bool
  deriving DecidableEq, Repr

def RegionFigure.text (r : RegionFigure) (render : Nat → String) : String :=
  s!"HeapRegion({r.index}, {r.kind.short} [{render r.bottom}, {render r.top}, {render r.limit}), " ++
    s!"pinned={r.pinned})"

inductive CollectionTask where
  | mark
  | plan
  | adjust
  | compact
  deriving DecidableEq, Repr

def CollectionTask.name : CollectionTask → String
  | mark => "Marking task"
  | plan => "Prepare compaction task"
  | adjust => "Adjust task"
  | compact => "Compaction task"

/-- A card whose block, found through the table, is not the one a walk of the region finds. -/
structure BlockTableFlaw where
  card : Nat
  start : Nat
  found : Nat
  walked : Nat
  deriving DecidableEq, Repr

def BlockTableFlaw.text (f : BlockTableFlaw) (render : Nat → String) : String :=
  s!"card {f.card} at {render f.start}: block_start {render f.found} but the walk says {render f.walked}"

inductive HeapFlaw where
  | freeNotEmpty (region : RegionFigure)
  | objectsEndAt (region : RegionFigure) (limit : Nat)
  | blockTable (flaw : BlockTableFlaw)
  | wordsDiffer (compacted live : Nat)
  deriving DecidableEq, Repr

def HeapFlaw.text (render : Nat → String) : HeapFlaw → String
  | freeNotEmpty r => s!"free {r.text render} is not empty"
  | objectsEndAt r a => s!"objects of {r.text render} end at {render a}"
  | blockTable f => f.text render
  | wordsDiffer c l => s!"{c} words in compacted regions, {l} live words before compaction"

inductive Fault where
  | precondition
  | outOfBounds
  | overflow
  | addressOrder (a b : Nat)
  | outOfMemory (bytes : Nat)
  | mappingFailed
  | unknownOption (key : String)
  /-- A sort has found out that a comparison is no order. -/
  | noOrder
  | listTooLong
  | notListed (id : Nat)
  | alreadyListed (id : Nat)
  | workerFailed (task : CollectionTask)
  | notCompacting (region : Nat) (attr : RegionAttr)
  | notSkipped (region : Nat) (attr : RegionAttr)
  | notInHeap (a : Nat)
  | outsideHeap (a : Nat)
  | sliceInUse (region : Nat)
  | outsideTable (a bottom limit : Nat)
  | emptyBlock (a : Nat)
  | bufferTooLarge (words : Nat)
  | segmentTooLarge (slots slotBytes : Nat)
  | secondGroup
  | topOutside (region : Nat) (top bottom limit : Nat)
  | notPinned (region : Nat)
  | aboveTop (a : Nat)
  | fieldsDoNotFit (words fields : Nat)
  | youngCandidate (region : Nat)
  | emptyGroup
  | groupListed (id : Nat)
  | groupOrder
  | efficiencyOrder
  | candidatesInUse
  | cycleNotFinished
  | alreadyCandidate (region : Nat)
  | notCandidate (region : Nat)
  | groupedAs (region : Nat) (origin : OriginTag) (list : Origin)
  | inTwoGroups (region : Nat)
  | originDiffers (region : Nat) (origin found : OriginTag)
  | emptyHeap (bytes : Nat)
  | notAllocatable (kind : RegionKind)
  | isHumongous (region : RegionFigure)
  | notHumongous (region : RegionFigure)
  | alreadyFree (region : Nat)
  | freeNotEmpty (region : RegionFigure)
  | freeListNotFree (region : RegionFigure)
  | refersToFree (a : Nat) (region : Nat)
  | movesPinned (region : RegionFigure)
  | slidesHumongous (region : RegionFigure)
  | movesUp (a target : Nat)
  | planFull (region : Option Nat)
  | planNotStarted
  | planCurrentRegion
  | verification (flaw : HeapFlaw)
  deriving DecidableEq, Repr

abbrev Checked := Except Fault

def Fault.message (render : Nat → String) : Fault → Option String
  | precondition | outOfBounds | overflow => none
  | addressOrder a b =>
    some s!"for (addr_a - addr_b), a({render a}) needs to be larger than b({render b})"
  | outOfMemory n => some s!"Out of memory while mapping {n} bytes"
  | mappingFailed => some "Unexpected mmap failure"
  | unknownOption k => some s!"Invalid Options key: {k}"
  | noOrder =>
    some "user-provided comparison function does not correctly implement a total order"
  | listTooLong => some "capacity overflow"
  | notListed i => some s!"{i} is not in the list"
  | alreadyListed i => some s!"{i} is already in the list"
  | workerFailed t => some s!"GC worker panicked in task {t.name}"
  | notCompacting r t => some s!"region {r}: {t.name}"
  | notSkipped r t => some s!"region {r} is {t.name}"
  | notInHeap a => some s!"{render a} is not in the heap"
  | outsideHeap a => some s!"{render a} is outside the heap"
  | sliceInUse r => some s!"region {r} must be initialized and unmarked"
  | outsideTable a b l => some s!"{render a} is outside [{render b}, {render l})"
  | emptyBlock a => some s!"zero sized block at {render a}"
  | bufferTooLarge n => some s!"bad buffer node size: {n} words"
  | segmentTooLarge n s => some s!"bad segment layout: {n} x {s}"
  | secondGroup => some "a region is in at most one group"
  | topOutside r t b l => some s!"region {r}: top {render t} outside [{render b}, {render l}]"
  | notPinned r => some s!"region {r} was not pinned"
  | aboveTop a => some s!"{render a} is above the top of the region"
  | fieldsDoNotFit n f => some s!"{n} words cannot hold {f} fields"
  | youngCandidate r => some s!"region {r} is young"
  | emptyGroup => some "Do not add empty groups"
  | groupListed i => some s!"group GroupId({i}) already added"
  | groupOrder => some "ids must follow the list order"
  | efficiencyOrder => some "Stored gc efficiency must be descending"
  | candidatesInUse => some "already initialized"
  | cycleNotFinished => some "must be empty at the start of a cycle"
  | alreadyCandidate r => some s!"must not contain region {r}"
  | notCandidate r => some s!"must contain region {r}"
  | groupedAs r o l => some s!"region {r}: origin {o.name} but found in a {l.name} group"
  | inTwoGroups r => some s!"region {r} is in two groups"
  | originDiffers r o f => some <|
    s!"Candidate origin does not match for region {r}, is {o.name} but should be {f.name}"
  | emptyHeap n => some s!"heap of {n} bytes is empty"
  | notAllocatable k => some s!"cannot allocate a region of type {k.name}"
  | isHumongous r => some s!"use free_humongous_region for {r.text render}"
  | notHumongous r => some s!"{r.text render} is not humongous"
  | alreadyFree r => some s!"region {r} already free"
  | freeNotEmpty r => some s!"free {r.text render} is not empty"
  | freeListNotFree r => some s!"{r.text render} on the free list"
  | refersToFree a r => some s!"reference to {render a} in free region {r}"
  | movesPinned r => some s!"{r.text render} is pinned"
  | slidesHumongous r => some s!"{r.text render} is humongous"
  | movesUp a b => some s!"{render a} moves to {render b}"
  | planFull r => some s!"compaction point ran out of regions at region {optionText r}"
  | planNotStarted => some "compaction point not initialized"
  | planCurrentRegion => some "cannot remove the current region"
  | verification f => some s!"Heap verification after full GC failed: {f.text render}"
where
  optionText : Option Nat → String
    | none => "None"
    | some i => s!"Some({i})"

def Fault.unless (c : Bool) (f : Fault) : Checked Unit := if c then .ok () else .error f

def Checked.runAll {σ ε α : Type} (step : σ → ε → Checked (α × σ)) (s : σ) :
    List ε → Checked (List α × σ)
  | [] => .ok ([], s)
  | e :: rest => do
    let (answer, s) ← step s e
    let (answers, s) ← runAll step s rest
    return (answer :: answers, s)

@[simp] theorem Fault.unless_eq_ok {c : Bool} {f : Fault} {u : Unit} :
    Fault.unless c f = .ok u ↔ c = true := by
  cases c <;> simp [Fault.unless]

theorem Fault.unless_then_eq_ok {α : Type} {c : Bool} {f : Fault} {x y : α} :
    (do Fault.unless c f; return x) = Except.ok y ↔ c = true ∧ x = y := by
  cases c
  · simp [Fault.unless, bind, Except.bind]
  · simp [Fault.unless, bind, Except.bind, pure, Except.pure]

end RegionHeap
