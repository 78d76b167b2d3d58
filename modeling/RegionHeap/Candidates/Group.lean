import RegionHeap.Order.Quick
import RegionHeap.Region.Table

/-!
Groups of candidate regions that are evacuated together. The members of a group share one card
set, so that their remembered sets are merged and scanned once.
-/
set_option autoImplicit false

namespace RegionHeap

structure Candidate where
  region : Nat
  efficiency : Float
  unreclaimed : Nat := 0
  deriving Repr, Inhabited

namespace Candidate

def skip (c : Candidate) (keep : Nat) : Bool × Candidate :=
  let c := { c with unreclaimed := c.unreclaimed + 1 }
  (c.unreclaimed < keep, c)

def skips (c : Candidate) (keep : Nat) : Nat → List Bool × Candidate
  | 0 => ([], c)
  | n + 1 =>
    let (stays, c) := c.skip keep
    let (later, c) := c.skips keep n
    (stays :: later, c)

def sorter : Sorter Candidate where
  before a b := compareEfficiency a.efficiency b.efficiency == .lt
  small := false

/-- An efficiency that is no number compares as equal to all others, so that it may spoil the
order. -/
def sort (cs : List Candidate) : Checked (List Candidate) := sorter.sort cs

theorem sort_perm {cs ds : List Candidate} (h : sort cs = .ok ds) : ds.Perm cs :=
  Sorter.sort_perm h

/-- Whether an entry goes before another: the one with more reclaimable bytes does, and one
without a region goes last. -/
def reclaimsMore (t : RegionTable) : Option Nat → Option Nat → Bool
  | some a, some b => (t.regions[b]?.map Region.reclaimable).getD 0 <
      (t.regions[a]?.map Region.reclaimable).getD 0
  | some _, none => true
  | none, _ => false

def sortReclaimable (t : RegionTable) (xs : List (Option Nat)) : Checked (List (Option Nat)) := do
  let regions := xs.filterMap id
  Fault.unless (regions.length < 2 || regions.all (· < t.size)) .outOfBounds
  return Order.insertionSort (reclaimsMore t) xs

end Candidate

structure Group where
  /-- The number of the shared card set, which also identifies the group. -/
  cards : Nat
  members : List Candidate := []
  efficiency : Float := 0
  deriving Repr, Inhabited

namespace Group

def regularSize : Nat := 5

def create (t : RegionTable) : Group × RegionTable :=
  let (cards, t) := t.newCards
  ({ cards := cards }, t)

def length (g : Group) : Nat := g.members.length

def isEmpty (g : Group) : Bool := g.members.isEmpty

def regions (g : Group) : List Nat := g.members.map Candidate.region

def add (g : Group) (t : RegionTable) (region : Nat) (c : Candidate) :
    Checked (Group × RegionTable) := do
  let r ← t.get region
  Fault.unless (r.index == c.region) .precondition
  Fault.unless (!r.kind.isYoung) (.youngCandidate r.index)
  return ({ g with members := g.members ++ [c] }, ← t.joinGroup region g.cards)

def addRegion (g : Group) (t : RegionTable) (p : Policy) (region : Nat) :
    Checked (Group × RegionTable) := do
  g.add t region { region := region, efficiency := ← t.efficiency region p }

def ofRegions (t : RegionTable) (p : Policy) (regions : List Nat) :
    Checked (Group × RegionTable) :=
  regions.foldlM (fun (g, t) region => g.addRegion t p region) (create t)

def occupied (g : Group) (t : RegionTable) : Checked Nat :=
  return (← t.cards g.cards).occupied

def copyTime (g : Group) (t : RegionTable) (p : Policy) : Checked Float :=
  g.members.foldlM (fun time c => do
    let r ← t.get c.region
    Fault.unless (r.remSet.group == some g.cards) .precondition
    return time + (p.copyTime r + p.codeRootTime r)) (-0.0)

/-- The predicted pause of evacuating the group: one merge and scan of the shared card set, the
copying, and the fixed costs of the regions. -/
def totalTime (g : Group) (t : RegionTable) (p : Policy) : Checked Float := do
  let scan := p.mergeScanTime (← g.occupied t)
  let copy ← g.copyTime t p
  return scan + copy + p.otherTime g.length

def reclaimable (g : Group) (t : RegionTable) : Checked Nat :=
  g.members.foldlM (fun bytes c => return bytes + (← t.get c.region).reclaimable) 0

def withEfficiency (g : Group) (t : RegionTable) (p : Policy) : Checked Group := do
  let bytes ← g.reclaimable t
  let time ← g.totalTime t p
  return { g with efficiency := Float.ofNat bytes / time }

/-- Forgets the members after they were moved into a collection set. -/
def clear (g : Group) (t : RegionTable) : Checked (Group × RegionTable) := do
  let cards ← t.cards g.cards
  return ({ g with members := [] }, ← t.setCards g.cards cards.clear)

def release (t : RegionTable) (region : Nat) : Checked RegionTable :=
  t.update region fun r => return { r with remSet := r.remSet.leaveGroup.clear true }

/-- Forgets the members without having collected them. -/
def abandon (g : Group) (t : RegionTable) : Checked (Group × RegionTable) := do
  let t ← g.regions.foldlM release t
  g.clear t

def skip (g : Group) (i keep : Nat) : Checked (Bool × Group) := do
  match g.members[i]? with
  | none => .error .outOfBounds
  | some c =>
    let (stays, c) := c.skip keep
    return (stays, { g with members := g.members.set i c })

end Group

end RegionHeap
