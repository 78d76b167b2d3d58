import RegionHeap.Word

/-!
Slots of one size, carved from segments that grow up to a largest size. Slots go back to the
system only all at once.
-/
set_option autoImplicit false

namespace RegionHeap

structure SlotSizing where
  slotBytes : Nat
  initial : Nat
  largest : Nat
  deriving DecidableEq, Repr, Inhabited

namespace SlotSizing

def slotAlignment : Nat := 8

def create (slotBytes initial largest : Nat) : Checked SlotSizing := do
  Fault.unless (0 < initial && initial ≤ largest) .precondition
  return ⟨Word.roundUp slotBytes slotAlignment, initial, largest⟩

def nextSlots (s : SlotSizing) (previous : Nat) : Nat :=
  min (max (Word.mulSaturating previous 2) s.initial) s.largest

theorem nextSlots_le (s : SlotSizing) (previous : Nat) : s.nextSlots previous ≤ s.largest :=
  Nat.min_le_right ..

theorem nextSlots_pos {s : SlotSizing} (h : 0 < s.initial) (hm : s.initial ≤ s.largest)
    (previous : Nat) : 0 < s.nextSlots previous := by
  unfold nextSlots
  have := Nat.le_max_right (Word.mulSaturating previous 2) s.initial
  omega

end SlotSizing

structure Slot where
  segment : Nat
  index : Nat
  deriving DecidableEq, Repr

def SlotSizing.distance? (s : SlotSizing) (earlier slot : Slot) : Option Nat :=
  if earlier.segment = slot.segment then some ((slot.index - earlier.index) * s.slotBytes) else none

structure Arena where
  sizing : SlotSizing
  /-- The sizes of the segments, the current one first. -/
  segments : List Nat := []
  used : Nat := 0
  deriving DecidableEq, Repr, Inhabited

namespace Arena

def recordBytes : Nat := 24

def maxSegmentBytes : Nat := Word.maxBytes - 7

def segmentCount (a : Arena) : Nat := a.segments.length

def unused (a : Arena) : Nat := a.segments.headD 0 - a.used

/-- A system that has no memory for the segment ends the process, so that there is no answer then;
here it always has. -/
def grow (a : Arena) : Checked Arena := do
  let slots := a.sizing.nextSlots (a.segments.headD 0)
  let bytes ← Word.mul slots a.sizing.slotBytes
  Fault.unless (bytes ≤ maxSegmentBytes) (.segmentTooLarge slots a.sizing.slotBytes)
  return { a with segments := slots :: a.segments, used := 0 }

def allocate (a : Arena) : Checked (Slot × Arena) := do
  let a ← if a.used < a.segments.headD 0 then pure a else a.grow
  return (⟨a.segmentCount - 1, a.used⟩, { a with used := a.used + 1 })

def allocateMany (a : Arena) : Nat → Checked (List Slot × Arena)
  | 0 => .ok ([], a)
  | n + 1 => do
    let (slot, a) ← a.allocate
    let (slots, a) ← a.allocateMany n
    return (slot :: slots, a)

def memory (a : Arena) : Nat :=
  Word.total (a.segments.map fun slots => recordBytes + slots * a.sizing.slotBytes)

/-- The slots never handed out and so many that came back, in bytes. -/
def wasted (a : Arena) (returned : Nat) : Checked Nat := do
  let slots ← Word.add a.unused returned
  Word.mul slots a.sizing.slotBytes

def dropAll (a : Arena) : Arena := { a with segments := [], used := 0 }

end Arena

end RegionHeap
