import RegionHeap.Candidates.GroupList

/-!
The regions that are worth collecting: those a marking selected, grouped by efficiency, and those
retained after a failed evacuation, in groups of one.
-/
set_option autoImplicit false

namespace RegionHeap

structure Registry where
  origins : Array Origin := #[]
  marking : GroupList := {}
  retained : GroupList := {}
  lastMarking : Nat := 0
  deriving Repr, Inhabited

namespace Registry

def initial (regions : Nat) : Registry := { origins := Array.replicate regions .invalid }

/-- Makes room for so many regions, which may be done once. -/
def allot (c : Registry) (regions : Nat) : Checked Registry := do
  Fault.unless c.origins.isEmpty .candidatesInUse
  return { c with origins := ← Table.replicate regions .invalid }

def origin (c : Registry) (region : Nat) : Checked Origin := Table.get c.origins region

def setOrigin (c : Registry) (region : Nat) (o : Origin) : Checked Registry :=
  return { c with origins := ← Table.set c.origins region o }

def contains (c : Registry) (region : Nat) : Checked Bool := do
  Fault.unless (region < c.origins.size) .precondition
  return (← c.origin region) != .invalid

def isFromMarking (c : Registry) (region : Nat) : Checked Bool := do
  Fault.unless (← c.contains region) .precondition
  return (← c.origin region) == .marking

def groups (c : Registry) : Origin → GroupList
  | .invalid => {}
  | .marking => c.marking
  | .retained => c.retained

def setGroups (c : Registry) (o : Origin) (l : GroupList) : Registry :=
  match o with
  | .invalid => c
  | .marking => { c with marking := l }
  | .retained => { c with retained := l }

def length (c : Registry) : Nat := c.marking.regionCount + c.retained.regionCount

def isEmpty (c : Registry) : Bool := c.length == 0

/-- The candidate regions, those from the marking first. -/
def regions (c : Registry) : List Nat := c.marking.regions ++ c.retained.regions

def verifyList (c : Registry) (expected : Origin) (regions seen : List Nat) :
    Checked (List Nat) :=
  regions.foldlM (fun seen region => do
    let found ← c.origin region
    Fault.unless (found == expected) (.groupedAs region (.origin found) expected)
    Fault.unless (!seen.contains region) (.inTwoGroups region)
    return region :: seen) seen

def verify (c : Registry) : Checked Unit := do
  let seen ← c.verifyList .marking c.marking.regions []
  Fault.unless (seen.length == c.marking.regionCount) .precondition
  let seen ← c.verifyList .retained c.retained.regions seen
  (List.range c.origins.size).forM fun region => do
    let found ← c.origin region
    Fault.unless (seen.contains region || found == .invalid)
      (.originDiffers region (.origin found) (.origin .invalid))

end Registry

end RegionHeap
