import RegionHeap.Policy

/-!
The regions of a heap by index, with the memory they lie in and the card sets that collection
groups share among them.
-/
set_option autoImplicit false

namespace RegionHeap

structure RegionTable where
  regions : Array Region
  shared : SharedCards
  memory : Memory := .empty
  config : CardConfig
  deriving Inhabited

namespace RegionTable

def create (start count bytes : Nat) (config : CardConfig) : Checked RegionTable := do
  let regions ← (List.range count).mapM fun i => Region.create i (start + i * bytes) bytes config
  return { regions := regions.toArray, shared := { rounds := config.rounds }, config }

def size (t : RegionTable) : Nat := t.regions.size

def get (t : RegionTable) (i : Nat) : Checked Region := Table.get t.regions i

def set (t : RegionTable) (i : Nat) (r : Region) : Checked RegionTable :=
  return { t with regions := ← Table.set t.regions i r }

def update (t : RegionTable) (i : Nat) (f : Region → Checked Region) : Checked RegionTable := do
  t.set i (← f (← t.get i))

def indices (t : RegionTable) : List Nat := List.range t.size

/-- The number of a new card set for a group. -/
def newCards (t : RegionTable) : Nat × RegionTable :=
  let (id, shared) := t.shared.create t.config
  (id, { t with shared := shared })

def cards (t : RegionTable) (id : Nat) : Checked CardSet := t.shared.get id

def setCards (t : RegionTable) (id : Nat) (c : CardSet) : Checked RegionTable :=
  return { t with shared := ← t.shared.set id c }

/-- A region shares the card set of a group from now on. -/
def joinGroup (t : RegionTable) (i id : Nat) : Checked RegionTable := do
  let r ← t.get i
  let (remSet, shared) ← r.remSet.joinGroup t.shared id
  { t with shared := shared }.set i { r with remSet := remSet }

/-- Records a reference from a slot into a region. -/
def addReference (t : RegionTable) (i slot : Nat) : Checked (Bool × RegionTable) := do
  let r ← t.get i
  let (new, remSet, shared) ← r.remSet.add t.shared slot
  return (new, ← { t with shared := shared }.set i { r with remSet := remSet })

/-- The memory for cards goes through other rounds from now on. -/
def withRounds (t : RegionTable) (rounds : Rounds) : RegionTable :=
  { t with shared := { t.shared with rounds := rounds } }

def efficiency (t : RegionTable) (i : Nat) (p : Policy) : Checked Float := do
  (← t.get i).efficiency t.shared p

def blockStart (t : RegionTable) (i a : Nat) : Checked Nat := do
  (← t.get i).blockStart t.memory a

def objects (t : RegionTable) (i : Nat) : Checked (List Nat) :=
  return (← t.get i).objects t.memory

def fill (t : RegionTable) (a words : Nat) : Checked RegionTable :=
  return { t with memory := ← Object.fill t.memory a words }

def allocate (t : RegionTable) (i words : Nat) : Checked (Option Nat × RegionTable) := do
  let (place, r) ← (← t.get i).allocate words
  return (place, ← t.set i r)

def newObject (t : RegionTable) (i words fields : Nat) : Checked (Option Nat × RegionTable) := do
  match ← t.allocate i words with
  | (none, t) => return (none, t)
  | (some object, t) =>
    return (some object, { t with memory := ← Object.format t.memory object words fields })

def used (t : RegionTable) : Nat := Word.total (t.regions.toList.map Region.used)

end RegionTable

end RegionHeap
