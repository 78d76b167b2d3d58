import RegionHeap.Liveness

/-!
The storage of a liveness map. The slices of all regions lie side by side in one range of memory,
which is reserved as a whole; a slice can be read and written only while its pages are committed.
The system is taken to grant the pages of a range that it has reserved.
-/
set_option autoImplicit false

namespace RegionHeap

/-- Memory by the addresses of its words, where it is committed. -/
structure PagedMemory where
  words : Nat → Option Nat := fun _ => none

namespace PagedMemory

def read (m : PagedMemory) (a : Nat) : Checked Nat :=
  match m.words a with
  | some w => .ok w
  | none => .error .outOfBounds

def write (m : PagedMemory) (a w : Nat) : Checked PagedMemory := do
  let _ ← m.read a
  return ⟨fun b => if b = a then some w else m.words b⟩

/-- Pages come in zeroed. -/
def commit (m : PagedMemory) (start bytes : Nat) : PagedMemory :=
  ⟨fun a => if start ≤ a ∧ a < start + bytes then some 0 else m.words a⟩

def uncommit (m : PagedMemory) (start bytes : Nat) : PagedMemory :=
  ⟨fun a => if start ≤ a ∧ a < start + bytes then none else m.words a⟩

def zero (m : PagedMemory) (start count : Nat) : Checked PagedMemory :=
  (List.range count).foldlM (fun m k => m.write (start + 8 * k) 0) m

end PagedMemory

structure LivenessStorage where
  start : Nat
  logRegionBytes : Nat
  base : Nat
  sliceBytes : Nat
  states : Array LazyState
  memory : PagedMemory := {}
  committed : Nat := 0

namespace LivenessStorage

def create (system : Mapping.System) (start regions regionBytes : Nat) :
    Checked LivenessStorage := do
  let base ← LivenessMap.reserveStorage system regions regionBytes
  return {
    start, logRegionBytes := Nat.log2 regionBytes, base
    sliceBytes := LivenessMap.storageBytes (Nat.log2 regionBytes)
    states := Array.replicate regions .uninitialized }

def regionBytes (s : LivenessStorage) : Nat := 1 <<< s.logRegionBytes

def regionStart (s : LivenessStorage) (region : Nat) : Nat := s.start + region * s.regionBytes

def regionOf (s : LivenessStorage) (a : Nat) : Checked Nat := do
  Fault.unless (s.start ≤ a) .precondition
  let region := (a - s.start) / s.regionBytes
  Fault.unless (region < s.states.size) (.notInHeap a)
  return region

def storageOf (s : LivenessStorage) (region : Nat) : Nat := s.base + region * s.sliceBytes

def wordsOf (s : LivenessStorage) : Nat := s.regionBytes / 8 / 64

def bit (s : LivenessStorage) (region a : Nat) : Checked (Nat × Nat) := do
  Fault.unless (Address.isWordAligned a) .precondition
  let index := (a - s.regionStart region) / 8
  return (s.storageOf region + index / 64 * 8, 1 <<< (index % 64))

def commit (s : LivenessStorage) (region : Nat) : LivenessStorage :=
  { s with
    memory := s.memory.commit (s.storageOf region) s.sliceBytes
    committed := s.committed + 1 }

def setState (s : LivenessStorage) (region : Nat) (state : LazyState) : LivenessStorage :=
  { s with states := s.states.setIfInBounds region state }

def prepareToMark (s : LivenessStorage) (region : Nat) : Checked LivenessStorage := do
  let state ← Table.get s.states region
  if state.isMarked then return s
  let (commit, state) ← state.ensure
  let (_, state) ← state.mark
  return (if commit then s.commit region else s).setState region state

def mark (s : LivenessStorage) (a : Nat) : Checked (Bool × LivenessStorage) := do
  let region ← s.regionOf a
  let s ← s.prepareToMark region
  let (word, mask) ← s.bit region a
  let old ← s.memory.read word
  return (old &&& mask != 0, { s with memory := ← s.memory.write word (old ||| mask) })

/-- Looks at the bit before it sets it. -/
def tryMark (s : LivenessStorage) (a : Nat) : Checked (Bool × LivenessStorage) := do
  let region ← s.regionOf a
  let s ← s.prepareToMark region
  let (word, mask) ← s.bit region a
  let old ← s.memory.read word
  if old &&& mask != 0 then return (false, s)
  return (old &&& mask == 0, { s with memory := ← s.memory.write word (old ||| mask) })

def isRegionMarked (s : LivenessStorage) (region : Nat) : Checked Bool :=
  return (← Table.get s.states region).isMarked

def isMarked (s : LivenessStorage) (a : Nat) : Checked Bool := do
  let region ← s.regionOf a
  if !(← s.isRegionMarked region) then return false
  let (word, mask) ← s.bit region a
  return (← s.memory.read word) &&& mask != 0

def clear (s : LivenessStorage) (a : Nat) : Checked LivenessStorage := do
  let region ← s.regionOf a
  if !(← s.isRegionMarked region) then return s
  let (word, mask) ← s.bit region a
  let old ← s.memory.read word
  return { s with memory := ← s.memory.write word (old &&& Word.complement mask) }

def clearRange (s : LivenessStorage) (region : Nat) : Checked LivenessStorage := do
  let state ← Table.get s.states region
  if !state.isInitialized then return s
  return { s with memory := ← s.memory.zero (s.storageOf region) s.wordsOf }

def reset (s : LivenessStorage) (region : Nat) : Checked LivenessStorage := do
  let state ← Table.get s.states region
  if !state.isMarked then return s
  let s ← s.clearRange region
  return s.setState region (← state.toInitialized)

def resetAll (s : LivenessStorage) : Checked LivenessStorage :=
  (List.range s.states.size).foldlM (fun s region => s.reset region) s

def uncommit (s : LivenessStorage) (region : Nat) : Checked LivenessStorage := do
  let state ← Table.get s.states region
  Fault.unless (state == .initialized) (.sliceInUse region)
  let s := { s with memory := s.memory.uncommit (s.storageOf region) s.sliceBytes }
  return { s.setState region (← state.toUninitialized) with committed := s.committed - 1 }

def count (s : LivenessStorage) (region : Nat) : Checked Nat := do
  if !(← s.isRegionMarked region) then return 0
  (List.range s.wordsOf).foldlM (fun found k => do
    let word ← s.memory.read (s.storageOf region + k * 8)
    return found + Bitmap.population word) 0

def wordAt (s : LivenessStorage) (region index : Nat) : Checked Nat := do
  Fault.unless (index < s.wordsOf) .precondition
  s.memory.read (s.storageOf region + index * 8)

/-- Goes through the words of bits from one on. The lowest bit of the first word that is not zero
counts if it lies below the last position. -/
def scanFrom (s : LivenessStorage) (region last index word : Nat) : Checked (Option Nat) :=
  if word ≠ 0 then
    let bit := index * 64 + Word.trailingZeros word
    .ok (if bit < last then some (s.regionStart region + 8 * bit) else none)
  else if last ≤ (index + 1) * 64 then .ok none
  else do s.scanFrom region last (index + 1) (← s.wordAt region (index + 1))
termination_by last - index * 64

/-- Searches the bits of a range of a region. What lies before the range in the first word is
masked. -/
def scan (s : LivenessStorage) (region start stop : Nat) : Checked (Option Nat) := do
  let first ← Address.wordsFrom start (s.regionStart region)
  let last ← Address.wordsFrom stop (s.regionStart region)
  let mask ← Word.shiftLeft (Word.limit - 1) (first % 64)
  s.scanFrom region last (first / 64) ((← s.wordAt region (first / 64)) &&& mask)

def nextInRegion (s : LivenessStorage) (region start stop : Nat) : Checked (Option Nat) := do
  if !(← s.isRegionMarked region) then return none
  s.scan region start stop

theorem lt_of_regionOf {s : LivenessStorage} {a region : Nat} (h : s.regionOf a = .ok region) :
    a < s.regionStart region + s.regionBytes := by
  have hpos : 0 < s.regionBytes := by
    rw [regionBytes, Nat.one_shiftLeft]
    exact Nat.two_pow_pos _
  have hregion : (a - s.start) / s.regionBytes = region := by
    simp only [regionOf, Fault.unless, bind, Except.bind, pure, Except.pure] at h
    grind
  have hmod := Nat.mod_lt (a - s.start) hpos
  rw [Nat.mod_eq_sub_div_mul, hregion] at hmod
  rw [regionStart]
  omega

def next (s : LivenessStorage) (start limit : Nat) : Checked Nat :=
  if limit ≤ start then .ok limit
  else
    match _ : s.regionOf start with
    | .error f => .error f
    | .ok region => do
      let stop := s.regionStart region + s.regionBytes
      match ← s.nextInRegion region start (min limit stop) with
      | some found => return found
      | none => s.next stop limit
termination_by limit - start
decreasing_by
  have := lt_of_regionOf ‹s.regionOf start = .ok region›
  omega

def walkFrom {σ : Type} (s : LivenessStorage) (visit : σ → Nat → Checked (Nat × σ))
    (limit : Nat) : Nat → Nat → σ → Checked σ
  | 0, _, x => .ok x
  | n + 1, cursor, x => do
    let found ← s.next cursor limit
    if limit ≤ found then return x
    let (words, x) ← visit x found
    Fault.unless (0 < words) .precondition
    s.walkFrom visit limit n (← Address.addWords found words) x

def walk {σ : Type} (s : LivenessStorage) (visit : σ → Nat → Checked (Nat × σ))
    (region limit : Nat) (x : σ) : Checked σ := do
  if !(← s.isRegionMarked region) then return x
  let start := s.regionStart region
  s.walkFrom visit limit (limit - start + 1) start x

end LivenessStorage

inductive LivenessOperation where
  | mark (a : Nat)
  | tryMark (a : Nat)
  | clear (a : Nat)
  | clearRange (region : Nat)
  | reset (region : Nat)
  | resetAll
  | uncommit (region : Nat)
  deriving DecidableEq, Repr

def LivenessMap.perform (m : LivenessMap) : LivenessOperation → Checked (Option Bool × LivenessMap)
  | .mark a => do
    let (before, m) ← m.mark a
    return (some before, m)
  | .tryMark a => do
    let (marked, m) ← m.tryMark a
    return (some marked, m)
  | .clear a => return (none, ← m.clear a)
  | .clearRange region => return (none, ← m.clearRange region)
  | .reset region => return (none, ← m.reset region)
  | .resetAll => return (none, ← m.resetAll)
  | .uncommit region => return (none, ← m.uncommit region)

def LivenessStorage.perform (s : LivenessStorage) :
    LivenessOperation → Checked (Option Bool × LivenessStorage)
  | .mark a => do
    let (before, s) ← s.mark a
    return (some before, s)
  | .tryMark a => do
    let (marked, s) ← s.tryMark a
    return (some marked, s)
  | .clear a => return (none, ← s.clear a)
  | .clearRange region => return (none, ← s.clearRange region)
  | .reset region => return (none, ← s.reset region)
  | .resetAll => return (none, ← s.resetAll)
  | .uncommit region => return (none, ← s.uncommit region)

end RegionHeap
