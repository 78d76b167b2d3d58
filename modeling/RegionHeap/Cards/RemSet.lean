import RegionHeap.Cards.CardSet

/-!
The remembered set of a region: cards outside it that may hold references into it. While the
region belongs to a collection group, references are recorded in the card set that the members of
the group share.
-/
set_option autoImplicit false

namespace RegionHeap

structure SharedCards where
  sets : Array CardSet := #[]
  /-- The rounds that these sets and those of the regions go through. -/
  rounds : Rounds
  deriving DecidableEq, Repr, Inhabited

namespace SharedCards

def get (c : SharedCards) (id : Nat) : Checked CardSet := Table.get c.sets id

def set (c : SharedCards) (id : Nat) (s : CardSet) : Checked SharedCards :=
  return { c with sets := ← Table.set c.sets id s }

def add (c : SharedCards) (id card : Nat) : Checked (Bool × SharedCards) := do
  let (new, cards) ← ((← c.get id).withRounds c.rounds).add card
  return (new, { ← c.set id cards with rounds := cards.rounds })

def create (c : SharedCards) (config : CardConfig) : Nat × SharedCards :=
  (c.sets.size, { c with sets := c.sets.push (.create config) })

end SharedCards

inductive Tracking where
  | untracked
  | updating
  | complete
  deriving DecidableEq, Repr, Inhabited

namespace Tracking

def name : Tracking → String
  | untracked => "Untracked"
  | updating => "Updating"
  | complete => "Complete"

def all : List Tracking := [untracked, updating, complete]

theorem mem_all (t : Tracking) : t ∈ all := by cases t <;> decide

def ofName? (s : String) : Option Tracking := all.find? fun t => t.name == s

end Tracking

structure RemSet where
  own : CardSet
  group : Option Nat := none
  tracking : Tracking := .untracked
  deriving DecidableEq, Repr, Inhabited

namespace RemSet

def create (config : CardConfig) : RemSet := { own := .create config }

/-- The card set in which references are recorded. -/
def active (r : RemSet) (shared : SharedCards) : Checked CardSet :=
  match r.group with
  | some id => shared.get id
  | none => return r.own

def hasGroup (r : RemSet) : Bool := r.group.isSome

/-- Shares a group's card set from now on. The cards recorded so far move into it. -/
def joinGroup (r : RemSet) (shared : SharedCards) (id : Nat) :
    Checked (RemSet × SharedCards) := do
  Fault.unless r.group.isNone .secondGroup
  let group ← ((← shared.get id).withRounds shared.rounds).addAll r.own.cards
  let own := (r.own.withRounds group.rounds).clear
  return ({ r with own := own, group := some id },
    { ← shared.set id group with rounds := own.rounds })

def leaveGroup (r : RemSet) : RemSet := { r with group := none }

def add (r : RemSet) (shared : SharedCards) (slot : Nat) :
    Checked (Bool × RemSet × SharedCards) := do
  match r.group with
  | some id =>
    let (new, shared) ← shared.add id (Address.card slot)
    return (new, r, shared)
  | none =>
    let (new, cards) ← (r.own.withRounds shared.rounds).add (Address.card slot)
    return (new, { r with own := cards }, { shared with rounds := cards.rounds })

def contains (r : RemSet) (shared : SharedCards) (slot : Nat) : Checked Bool :=
  return (← r.active shared).contains (Address.card slot)

def occupied (r : RemSet) (shared : SharedCards) : Checked Nat :=
  return (← r.active shared).occupied

/-- Drops the cards of the region's own set. Unless only those are meant, the region is no longer
tracked either. -/
def clear (r : RemSet) (onlyCards : Bool) : RemSet :=
  { r with own := r.own.clear, tracking := if onlyCards then r.tracking else .untracked }

/-- Clears the set in the rounds that the shared sets go through. -/
def clearWith (r : RemSet) (shared : SharedCards) (onlyCards : Bool) : RemSet × SharedCards :=
  let r := clear { r with own := r.own.withRounds shared.rounds } onlyCards
  (r, { shared with rounds := r.own.rounds })

def isTracked (r : RemSet) : Bool := r.tracking != .untracked

def isComplete (r : RemSet) : Bool := r.tracking == .complete

end RemSet

end RegionHeap
