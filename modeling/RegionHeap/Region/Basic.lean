import RegionHeap.Address.Arithmetic
import RegionHeap.BlockTable
import RegionHeap.Cards.RemSet

/-!
A heap region: a slice of the heap of fixed size that is filled from its bottom up to its top.
-/
set_option autoImplicit false

namespace RegionHeap

structure Region where
  index : Nat
  bottom : Nat
  limit : Nat
  top : Nat
  kind : RegionKind := .free
  humongousStart : Option Nat := none
  pins : Nat := 0
  marked : Nat := 0
  remSet : RemSet
  blocks : BlockTable
  deriving DecidableEq, Repr, Inhabited

namespace Region

def create (index bottom bytes : Nat) (config : CardConfig) : Checked Region := do
  let limit ← Word.add bottom bytes
  return {
    index := index
    bottom := bottom
    limit := limit
    top := bottom
    remSet := .create config
    blocks := ← BlockTable.create bottom limit }

def used (r : Region) : Nat := r.top - r.bottom

def isEmpty (r : Region) : Bool := r.used == 0

def contains (r : Region) (a : Nat) : Bool := r.bottom ≤ a && a < r.limit

/-- Archive regions are always pinned, others while someone holds a pin. -/
def isPinned (r : Region) : Bool := r.kind.isArchive || 0 < r.pins

def figure (r : Region) : RegionFigure :=
  ⟨r.index, r.kind, r.bottom, r.top, r.limit, r.isPinned⟩

def setTop (r : Region) (top : Nat) : Checked Region := do
  Fault.unless (r.bottom ≤ top && top ≤ r.limit) (.topOutside r.index top r.bottom r.limit)
  return { r with top := top }

def pin (r : Region) : Region := { r with pins := r.pins + 1 }

def unpin (r : Region) : Checked Region := do
  Fault.unless (0 < r.pins) (.notPinned r.index)
  return { r with pins := r.pins - 1 }

def setFree (r : Region) : Region := { r with kind := .free, humongousStart := none }

/-- Gives the region a kind. Most kinds need a free region; a survivor may have been eden, and any
region may become old or free. -/
def assign (r : Region) (kind : RegionKind) : Checked Region := do
  match kind with
  | .free => return r.setFree
  | .eden | .openArchive | .closedArchive => Fault.unless r.kind.isFree .precondition
  | .survivor => Fault.unless (r.kind.isFree || r.kind == .eden) .precondition
  | _ => pure ()
  return { r with kind := kind }

def recordBlock (r : Region) (start stop : Nat) : Checked Region :=
  return { r with blocks := ← r.blocks.record start stop }

def resetBlocks (r : Region) : Region := { r with blocks := r.blocks.reset }

/-- Makes the region the first of a humongous object that ends at a top, with a filler of so many
words behind it. -/
def startHumongous (r : Region) (objectTop fillWords : Nat) : Checked Region := do
  Fault.unless (r.kind.isFree && r.isEmpty) .precondition
  let r := { r with kind := .startsHumongous, humongousStart := some r.index }
  let r ← r.recordBlock r.bottom objectTop
  if fillWords = 0 then return r
  r.recordBlock objectTop (← Address.addWords objectTop fillWords)

def continueHumongous (r first : Region) : Checked Region := do
  Fault.unless first.kind.isStartsHumongous .precondition
  Fault.unless (r.kind.isFree && r.isEmpty) .precondition
  return { r with kind := .continuesHumongous, humongousStart := some first.index }

/-- Frees the region and forgets all that a free region must not remember. Pins stay. -/
def clear (r : Region) : Region :=
  { r with
    kind := .free
    humongousStart := none
    top := r.bottom
    marked := 0
    remSet := r.remSet.clear false
    blocks := r.blocks.reset }

def allocate (r : Region) (words : Nat) : Checked (Option Nat × Region) := do
  let top ← Address.addWords r.top words
  if r.limit < top then return (none, r)
  let r' ← { r with top := top }.recordBlock r.top top
  return (some r.top, r')

def reclaimable (r : Region) : Nat := r.used - r.marked

def blockStart (r : Region) (m : Memory) (a : Nat) : Checked Nat := do
  Fault.unless (a < r.top) (.aboveTop a)
  r.blocks.blockStart m a

/-- Objects were moved into the region up to a new top. It is old, or free if there are none. -/
def resetCompacted (r : Region) (top : Nat) : Checked Region := do
  Fault.unless (!r.isPinned) .precondition
  let r ← r.setTop top
  if top = r.bottom then return r.clear
  return { r with marked := 0, kind := .old }

/-- The region was left in place. A young one is old from now on. -/
def resetInPlace (r : Region) : Checked Region := do
  Fault.unless (!r.kind.isFree) .precondition
  return { r with marked := 0, kind := if r.kind.isYoung then .old else r.kind }

def objects (r : Region) (m : Memory) : List Nat := Object.walk m r.bottom r.top

def isDense (r : Region) (m : Memory) : Bool := Object.walkEnd m r.bottom r.top == r.top

theorem clear_isFree (r : Region) : r.clear.kind = .free ∧ r.clear.isEmpty := by
  simp [clear, isEmpty, used]

end Region

end RegionHeap
