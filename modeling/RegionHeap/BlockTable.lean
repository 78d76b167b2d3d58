import RegionHeap.Memory.Object
import RegionHeap.Table

/-!
The block table of a region. For every card it records the start of a block at or before the first
word of the card, so that the block that covers an address is found by a short walk from there.
-/
set_option autoImplicit false

namespace RegionHeap

structure BlockTable where
  bottom : Nat
  limit : Nat
  /-- Zero stands for a card of which nothing is known: lookups start at the bottom. -/
  starts : Array Nat
  deriving DecidableEq, Repr, Inhabited

namespace BlockTable

def create (bottom limit : Nat) : Checked BlockTable := do
  Fault.unless (bottom % Address.bytesInCard == 0) .precondition
  return ⟨bottom, limit, Array.replicate ((limit - bottom) / Address.bytesInCard) 0⟩

def card (t : BlockTable) (a : Nat) : Checked Nat := do
  Fault.unless (t.bottom ≤ a && a < t.limit) (.outsideTable a t.bottom t.limit)
  return (a - t.bottom) / Address.bytesInCard

def cardStart (t : BlockTable) (card : Nat) : Nat := t.bottom + card * Address.bytesInCard

def cardsIn (t : BlockTable) (start stop : Nat) : Nat × Nat :=
  let first := Word.divCeil (start - t.bottom) Address.bytesInCard
  (first, (stop - 1 - t.bottom) / Address.bytesInCard + 1 - first)

def fillFrom (start : Nat) : Nat → Nat → Array Nat → Array Nat
  | 0, _, starts => starts
  | n + 1, card, starts => fillFrom start n (card + 1) (starts.set! card start)

def record (t : BlockTable) (start stop : Nat) : Checked BlockTable := do
  Fault.unless (start < stop) .precondition
  let first := max start t.bottom
  let last := min stop t.limit
  if last ≤ first then return t
  let (card, count) := t.cardsIn first last
  Fault.unless (count == 0 || card + count ≤ t.starts.size) .outOfBounds
  return { t with starts := fillFrom start count card t.starts }

def entry (t : BlockTable) (a : Nat) : Checked Nat := do
  let start ← Table.get t.starts (← t.card a)
  return if start = 0 then t.bottom else start

def blockStart (t : BlockTable) (m : Memory) (a : Nat) : Checked Nat := do
  let start ← t.entry a
  Fault.unless (start ≤ a) .precondition
  Object.covering m start a

def reset (t : BlockTable) : BlockTable :=
  { t with starts := Array.replicate t.starts.size 0 }

/-- Leaves out the starts that a later one at or below the card covers up. -/
def skipTo (card : Nat) : List Nat → List Nat
  | a :: b :: rest => if b ≤ card then skipTo card (b :: rest) else a :: b :: rest
  | starts => starts

def verifyFrom (t : BlockTable) (m : Memory) (top : Nat) :
    Nat → Nat → List Nat → Checked (Option BlockTableFlaw)
  | 0, _, _ => .ok none
  | n + 1, card, starts => do
    let start := t.cardStart card
    if top ≤ start then return none
    let starts := skipTo start starts
    let found ← t.blockStart m start
    let walked := starts.headD 0
    if found ≠ walked then return some ⟨card, start, found, walked⟩
    t.verifyFrom m top n (card + 1) starts

/-- The first card below the top, if any, whose block is not the one that a walk from the bottom
finds. -/
def verify (t : BlockTable) (m : Memory) (top : Nat) : Checked (Option BlockTableFlaw) :=
  t.verifyFrom m top t.starts.size 0 (Object.walk m t.bottom top)

@[simp] theorem size_fillFrom (start count card : Nat) (starts : Array Nat) :
    (fillFrom start count card starts).size = starts.size := by
  induction count generalizing card starts with
  | zero => rfl
  | succ n ih => simp [fillFrom, ih]

theorem getElem?_fillFrom (start count card : Nat) (starts : Array Nat) (i : Nat) :
    (fillFrom start count card starts)[i]? =
      if card ≤ i ∧ i < card + count ∧ i < starts.size then some start else starts[i]? := by
  induction count generalizing card starts with
  | zero => simp [fillFrom]; omega
  | succ n ih =>
    simp only [fillFrom, ih, Array.set!_eq_setIfInBounds, Array.size_setIfInBounds,
      Array.getElem?_setIfInBounds]
    by_cases h : card = i
    · subst h
      by_cases hs : card < starts.size
      · simp [hs]
      · simp [hs]
    · rw [if_neg h]
      by_cases hi : i < starts.size
      · by_cases h1 : card + 1 ≤ i ∧ i < card + 1 + n
        · rw [if_pos ⟨h1.1, h1.2, hi⟩, if_pos ⟨by omega, by omega, hi⟩]
        · rw [if_neg (by omega), if_neg (by omega)]
      · rw [if_neg (by omega), if_neg (by omega)]

end BlockTable

end RegionHeap
