import RegionHeap.Bitmap
import RegionHeap.LazyState
import RegionHeap.Mapping
import RegionHeap.Table
import RegionHeap.Address.Arithmetic

/-!
The liveness map of a heap: which words a live object starts at. The words of each region are
marked in a slice of their own, which gets storage when the region is first marked. A region that
has not been marked reads as clear.
-/
set_option autoImplicit false

namespace RegionHeap

structure LivenessSlice where
  state : LazyState := .uninitialized
  bits : Bitmap := .empty
  deriving DecidableEq, Repr, Inhabited

structure LivenessMap where
  start : Nat
  logRegionBytes : Nat
  slices : Array LivenessSlice
  committed : Nat := 0
  deriving DecidableEq, Repr, Inhabited

namespace LivenessMap

def storageBytes (logRegionBytes : Nat) : Nat :=
  Word.roundUp (1 <<< logRegionBytes / 64) Address.bytesInPage

/-- A reserved range in which all slices have room. -/
def reserveStorage (system : Mapping.System) (regions regionBytes : Nat) : Checked Nat := do
  Fault.unless (Word.isPowerOfTwo regionBytes) .precondition
  let total ← Word.mul (storageBytes (Nat.log2 regionBytes)) regions
  system.reserve (.sideBitmap "liveness") total

def create (system : Mapping.System) (start regions regionBytes : Nat) : Checked LivenessMap := do
  let _ ← reserveStorage system regions regionBytes
  return ⟨start, Nat.log2 regionBytes, Array.replicate regions {}, 0⟩

def regions (m : LivenessMap) : Nat := m.slices.size

def regionBytes (m : LivenessMap) : Nat := 1 <<< m.logRegionBytes

def regionWords (m : LivenessMap) : Nat := m.regionBytes / 8

def regionStart (m : LivenessMap) (region : Nat) : Nat := m.start + region * m.regionBytes

def regionOf (m : LivenessMap) (a : Nat) : Checked Nat := do
  Fault.unless (m.start ≤ a) .precondition
  let region := (a - m.start) / m.regionBytes
  Fault.unless (region < m.regions) (.notInHeap a)
  return region

def slice (m : LivenessMap) (region : Nat) : Checked LivenessSlice := Table.get m.slices region

def setSlice (m : LivenessMap) (region : Nat) (s : LivenessSlice) : LivenessMap :=
  { m with slices := m.slices.setIfInBounds region s }

def bitOf (m : LivenessMap) (region a : Nat) : Checked Nat := do
  Fault.unless (Address.isWordAligned a) .precondition
  return (a - m.regionStart region) / 8

def markRegion (m : LivenessMap) (region : Nat) : Checked LivenessMap := do
  let s ← m.slice region
  if s.state.isMarked then return m
  let (commit, state) ← s.state.ensure
  let (_, state) ← state.mark
  if commit then
    let m := m.setSlice region ⟨state, .empty⟩
    return { m with committed := m.committed + 1 }
  return m.setSlice region { s with state := state }

/-- Marks a word. Tells whether it was marked before. -/
def mark (m : LivenessMap) (a : Nat) : Checked (Bool × LivenessMap) := do
  let region ← m.regionOf a
  let m ← m.markRegion region
  let bit ← m.bitOf region a
  let s ← m.slice region
  return (s.bits.get bit, m.setSlice region { s with bits := s.bits.insert bit })

/-- Marks a word. Tells whether this call marked it. -/
def tryMark (m : LivenessMap) (a : Nat) : Checked (Bool × LivenessMap) := do
  let (before, m) ← m.mark a
  return (!before, m)

def isRegionMarked (m : LivenessMap) (region : Nat) : Checked Bool :=
  return (← m.slice region).state.isMarked

def isMarked (m : LivenessMap) (a : Nat) : Checked Bool := do
  let region ← m.regionOf a
  let s ← m.slice region
  if !s.state.isMarked then return false
  return s.bits.get (← m.bitOf region a)

def clear (m : LivenessMap) (a : Nat) : Checked LivenessMap := do
  let region ← m.regionOf a
  let s ← m.slice region
  if !s.state.isMarked then return m
  return m.setSlice region { s with bits := s.bits.erase (← m.bitOf region a) }

def sliceWords (m : LivenessMap) : Nat := m.regionWords / 64

def clearedBits (m : LivenessMap) (s : LivenessSlice) : Bitmap :=
  if m.sliceWords = 0 then s.bits else .empty

/-- Clears all words of a region. The region stays marked. -/
def clearRange (m : LivenessMap) (region : Nat) : Checked LivenessMap := do
  let s ← m.slice region
  if !s.state.isInitialized then return m
  return m.setSlice region { s with bits := m.clearedBits s }

def reset (m : LivenessMap) (region : Nat) : Checked LivenessMap := do
  let s ← m.slice region
  if !s.state.isMarked then return m
  return m.setSlice region { state := ← s.state.toInitialized, bits := m.clearedBits s }

def resetAll (m : LivenessMap) : Checked LivenessMap :=
  (List.range m.regions).foldlM (fun m region => m.reset region) m

def uncommit (m : LivenessMap) (region : Nat) : Checked LivenessMap := do
  let s ← m.slice region
  Fault.unless (s.state == .initialized) (.sliceInUse region)
  let m := m.setSlice region { state := ← s.state.toUninitialized, bits := .empty }
  return { m with committed := m.committed - 1 }

def memory (m : LivenessMap) : Nat := m.committed * storageBytes m.logRegionBytes

def nextInRegion (m : LivenessMap) (region start stop : Nat) : Checked (Option Nat) := do
  let s ← m.slice region
  if !s.state.isMarked then return none
  Fault.unless (0 < m.sliceWords) .precondition
  let base := m.regionStart region
  let last := (stop - base) / 8
  let bit := s.bits.next ((start - base) / 8) last
  return if bit < last then some (base + 8 * bit) else none

def nextFrom (m : LivenessMap) (limit : Nat) : Nat → Nat → Checked Nat
  | 0, _ => .ok limit
  | n + 1, cursor => do
    if limit ≤ cursor then return limit
    let region ← m.regionOf cursor
    let stop := m.regionStart (region + 1)
    match ← m.nextInRegion region cursor (min limit stop) with
    | some found => return found
    | none => m.nextFrom limit n stop

/-- The lowest marked address from a start up to a limit, or the limit. -/
def next (m : LivenessMap) (start limit : Nat) : Checked Nat :=
  m.nextFrom limit (m.regions + 1) start

/-- Visits marked words one by one below a limit, each behind the end of the object at the one
before. What a visit does may change the map. -/
def walkFrom {σ : Type} (map : σ → LivenessMap) (visit : σ → Nat → Checked (Nat × σ))
    (limit : Nat) : Nat → Nat → σ → Checked σ
  | 0, _, s => .ok s
  | n + 1, cursor, s => do
    let found ← (map s).next cursor limit
    if limit ≤ found then return s
    let (words, s) ← visit s found
    Fault.unless (0 < words) .precondition
    walkFrom map visit limit n (← Address.addWords found words) s

def walk {σ : Type} (map : σ → LivenessMap) (visit : σ → Nat → Checked (Nat × σ))
    (region limit : Nat) (s : σ) : Checked σ := do
  if !(← (map s).isRegionMarked region) then return s
  let start := (map s).regionStart region
  walkFrom map visit limit (limit - start + 1) start s

def count (m : LivenessMap) (region : Nat) : Checked Nat := do
  let s ← m.slice region
  if !s.state.isMarked then return 0
  return s.bits.count m.sliceWords

end LivenessMap

end RegionHeap
