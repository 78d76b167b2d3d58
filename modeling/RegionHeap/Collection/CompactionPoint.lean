import RegionHeap.Region.Table

/-!
Destinations for the objects of a compaction. A compaction point hands out places in an ordered
list of regions: objects go behind each other into the current region until one does not fit, and
then the point moves on to the next region and never comes back.
-/
set_option autoImplicit false

namespace RegionHeap

/-- What planning writes into: the forwarding words of objects, the block tables, and where the
next object forwarded into each region goes. -/
structure Plan where
  table : RegionTable
  tops : Array Nat
  deriving Inhabited

def Plan.top (s : Plan) (region : Nat) : Checked Nat := Table.get s.tops region

def Plan.setTop (s : Plan) (region top : Nat) : Checked Plan :=
  return { s with tops := ← Table.set s.tops region top }

structure CompactionPoint where
  regions : List Nat := []
  current : Option Nat := none
  top : Nat := 0
  deriving DecidableEq, Repr, Inhabited

namespace CompactionPoint

def isStarted (p : CompactionPoint) : Bool := p.current.isSome

def hasRegions (p : CompactionPoint) : Bool := !p.regions.isEmpty

def regionAt (p : CompactionPoint) (pos : Nat) : Checked Nat :=
  match p.regions[pos]? with
  | some region => .ok region
  | none => .error .outOfBounds

def currentRegion? (p : CompactionPoint) : Checked (Option Nat) := p.current.mapM p.regionAt

def add (p : CompactionPoint) (region : Nat) : CompactionPoint :=
  { p with regions := p.regions ++ [region] }

def start (p : CompactionPoint) (s : Plan) : Checked CompactionPoint := do
  match p.regions with
  | [] => .error .precondition
  | region :: _ => return { p with current := some 0, top := ← s.top region }

def save (p : CompactionPoint) (s : Plan) : Checked Plan := do
  match ← p.currentRegion? with
  | some region => s.setTop region p.top
  | none => return s

def removeLast (p : CompactionPoint) : Checked (Option Nat × CompactionPoint) := do
  Fault.unless ((p.current.map fun pos => decide (pos + 1 < p.regions.length)).getD true)
    .planCurrentRegion
  return (p.regions.getLast?, { p with regions := p.regions.dropLast })

def takeRest (p : CompactionPoint) : List Nat × CompactionPoint :=
  let pos := p.current.getD 0
  (p.regions.drop pos, { p with regions := p.regions.take pos, current := none })

/-- The regions behind the current one, into which nothing was forwarded. -/
def untouched (p : CompactionPoint) : List Nat :=
  match p.current with
  | some pos => p.regions.drop (pos + 1)
  | none => p.regions

def isAtLast (p : CompactionPoint) : Bool :=
  match p.current with
  | some pos => pos + 1 == p.regions.length
  | none => false

def sort (p : CompactionPoint) : Checked CompactionPoint := do
  Fault.unless (!p.isStarted) .precondition
  return { p with regions := p.regions.mergeSort (· ≤ ·) }

def target (p : CompactionPoint) (t : RegionTable) : Checked Region := do
  t.get (← p.regionAt (p.current.getD 0))

def fits (p : CompactionPoint) (t : RegionTable) (words : Nat) : Checked Bool := do
  let r ← p.target t
  return words ≤ (← Address.wordsFrom r.limit p.top)

def advance (p : CompactionPoint) (s : Plan) : Checked (CompactionPoint × Plan) := do
  let s ← p.save s
  let next := (p.current.map (· + 1)).getD 0
  match p.regions[next]? with
  | none => .error (.planFull (← p.currentRegion?))
  | some region =>
    let top ← s.top region
    Fault.unless (top == (← s.table.get region).bottom) .precondition
    return ({ p with current := some next, top := top }, s)

def makeRoom (words : Nat) : Nat → CompactionPoint → Plan → Checked (CompactionPoint × Plan)
  | 0, p, s => .ok (p, s)
  | n + 1, p, s => do
    if ← p.fits s.table words then return (p, s)
    let (p, s) ← p.advance s
    makeRoom words n p s

/-- Picks the place of an object and records it in the object if that moves. The block table of
the region learns about the object. -/
def forward (p : CompactionPoint) (s : Plan) (object words : Nat) :
    Checked (CompactionPoint × Plan) := do
  Fault.unless p.isStarted .planNotStarted
  let (p, s) ← makeRoom words (p.regions.length + 1) p s
  let place := p.top
  Fault.unless (object == place || place != 0) .precondition
  let memory :=
    if object = place then Object.unforward s.table.memory object
    else Object.forwardTo s.table.memory object place
  let top ← Address.addWords place words
  let r ← p.target s.table
  Fault.unless (top ≤ r.limit) .precondition
  let table ← { s.table with memory := memory }.set r.index (← r.recordBlock place top)
  return ({ p with top := top }, { s with table := table })

/-- The position at which the first run of so many consecutive numbers begins. The number at the
previous position ends a run of the given length. -/
def runFrom (count : Nat) : List Nat → Nat → Nat → Nat → Checked (Option Nat)
  | [], _, _, _ => return none
  | r :: rest, pos, previous, length => do
    let length := if r = (← Word.add previous 1) then length + 1 else 1
    if length = count then return some (pos + 1 - count)
    runFrom count rest (pos + 1) r length

/-- Where in the list so many regions with consecutive indices begin before a region, for an object
that starts there and whose own regions are in the list. The run may overlap those. -/
def runBefore (p : CompactionPoint) (region count : Nat) : Checked (Option Nat) := do
  Fault.unless (0 < count) .precondition
  match p.regions.idxOf? region, p.regions with
  | some pos, lowest :: rest =>
    if count = 1 then return if lowest = region then none else some 0
    let last := min ((← Word.add pos count) - 1) rest.length
    return (← runFrom count (rest.take last) 1 lowest 1).filter fun start =>
      (p.regions[start]?).getD region < region
  | _, _ => return none

/-- Forwards a humongous object of so many regions to the lowest run before it, if there is one.
Either way the regions that the object ends up in leave the list. -/
def forwardHumongous (p : CompactionPoint) (t : RegionTable) (region count : Nat) :
    Checked (Option Nat × CompactionPoint × RegionTable) := do
  let r ← t.get region
  Fault.unless r.kind.isStartsHumongous .precondition
  match ← p.runBefore region count with
  | some start =>
    let target := (p.regions[start]?).getD region
    let memory := Object.forwardTo t.memory r.bottom (← t.get target).bottom
    let regions := p.regions.take start ++ p.regions.drop (start + count)
    return (some target, { p with regions := regions }, { t with memory := memory })
  | none =>
    match p.regions.idxOf? region with
    | some pos =>
      let stop ← Word.add pos count
      let regions := p.regions.take pos ++ p.regions.drop stop
      return (none, { p with regions := regions }, t)
    | none => return (none, p, t)

end CompactionPoint

end RegionHeap
