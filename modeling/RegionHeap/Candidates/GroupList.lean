import RegionHeap.Candidates.Group

/-!
Lists of collection groups, the most efficient first.
-/
set_option autoImplicit false

namespace RegionHeap

structure GroupList where
  groups : List Group := []
  regionCount : Nat := 0
  deriving Repr, Inhabited

namespace GroupList

def length (l : GroupList) : Nat := l.groups.length

def isEmpty (l : GroupList) : Bool := l.groups.isEmpty

def regions (l : GroupList) : List Nat := l.groups.flatMap Group.regions

def append (l : GroupList) (g : Group) : Checked GroupList := do
  Fault.unless (!g.isEmpty) .emptyGroup
  Fault.unless (l.groups.all fun h => h.cards != g.cards) (.groupListed g.cards)
  return ⟨l.groups ++ [g], l.regionCount + g.length⟩

def forGroups (l : GroupList) (t : RegionTable)
    (f : Group → RegionTable → Checked (Group × RegionTable)) : Checked RegionTable :=
  l.groups.foldlM (fun t g => return (← f g t).2) t

def clear (l : GroupList) (t : RegionTable) : Checked (GroupList × RegionTable) :=
  return ({}, ← l.forGroups t Group.clear)

def abandon (l : GroupList) (t : RegionTable) : Checked (GroupList × RegionTable) :=
  return ({}, ← l.forGroups t Group.abandon)

def startScans (l : GroupList) (t : RegionTable) : Checked RegionTable :=
  l.forGroups t fun g t => do
    let cards ← t.cards g.cards
    return (g, ← t.setCards g.cards cards.startScan)

def totalLength (gs : List Group) : Nat := Word.total (gs.map Group.length)

def takeFirst (l : GroupList) (count : Nat) : Checked (List Group × GroupList) := do
  let taken ← Table.slice l.groups 0 count
  return (taken, ⟨l.groups.drop count, l.regionCount - totalLength taken⟩)

def isSorted : List Group → Bool
  | a :: b :: rest => a.efficiency ≥ b.efficiency && isSorted (b :: rest)
  | _ => true

def verify (l : GroupList) : Checked Unit := Fault.unless (isSorted l.groups) .efficiencyOrder

/-- The groups with the given numbers, those without, and the numbers not met on one walk of the
list. -/
def split : List Group → List Nat → List Group × List Group × List Nat
  | [], ids => ([], [], ids)
  | g :: gs, [] => ([], g :: gs, [])
  | g :: gs, id :: ids =>
    if g.cards = id then
      let (taken, kept, missed) := split gs ids
      (g :: taken, kept, missed)
    else
      let (taken, kept, missed) := split gs (id :: ids)
      (taken, g :: kept, missed)

/-- Takes the groups with the given numbers, which stand in the order of the list, out of it. -/
def take (l : GroupList) (ids : List Nat) : Checked (List Group × GroupList) := do
  if ids.isEmpty || l.isEmpty then return ([], l)
  let (taken, kept, missed) := split l.groups ids
  Fault.unless missed.isEmpty .groupOrder
  let l : GroupList := ⟨kept, l.regionCount - totalLength taken⟩
  l.verify
  return (taken, l)

def sorter : Sorter Group where
  before a b := compareEfficiency a.efficiency b.efficiency == .lt
  small := true

def sort (l : GroupList) : Checked GroupList :=
  return { l with groups := ← sorter.sort l.groups }

def withEfficiencies (l : GroupList) (t : RegionTable) (p : Policy) : Checked GroupList :=
  return { l with groups := ← l.groups.mapM fun g => g.withEfficiency t p }

theorem sort_perm {l m : GroupList} (h : l.sort = .ok m) :
    m.groups.Perm l.groups ∧ m.regionCount = l.regionCount := by
  unfold sort at h
  cases hs : sorter.sort l.groups with
  | error e => rw [hs] at h; cases h
  | ok gs =>
    rw [hs] at h
    cases h
    exact ⟨Sorter.sort_perm hs, rfl⟩

end GroupList

end RegionHeap
