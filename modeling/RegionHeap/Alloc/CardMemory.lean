import RegionHeap.Alloc.Arena
import RegionHeap.Alloc.Recycler
import RegionHeap.Address.Basic
import RegionHeap.Options

/-!
The memory behind card sets: for each kind of container a list of reusable slots over an arena.
The lists go through the same rounds.
-/
set_option autoImplicit false

namespace RegionHeap

inductive ContainerKind where
  | array
  | bitmap
  deriving DecidableEq, Repr

/-- What card sets take from the options, and the rounds that they start in. -/
structure CardConfig where
  array : SlotSizing
  bitmap : SlotSizing
  transferThreshold : Nat
  logCardsPerRegion : Nat
  rounds : Rounds
  deriving DecidableEq, Repr, Inhabited

namespace CardConfig

def sizing (c : CardConfig) : ContainerKind → SlotSizing
  | .array => c.array
  | .bitmap => c.bitmap

def create (rounds : Rounds) (o : Options) (arrayBytes bitmapBytes : Nat) :
    Checked CardConfig := do
  let sizing (bytes : Nat) : Checked SlotSizing := do
    let node ← Word.add FreeList.linkBytes bytes
    SlotSizing.create node o.cardSetInitialSlots (max o.cardSetMaxSlots o.cardSetInitialSlots)
  return {
    array := ← sizing arrayBytes
    bitmap := ← sizing bitmapBytes
    transferThreshold := o.transferThreshold
    logCardsPerRegion := Nat.log2 o.regionSize - Address.logBytesInCard
    rounds }

def cardsPerRegion (c : CardConfig) : Nat := 1 <<< c.logCardsPerRegion

end CardConfig

structure SlotAllocator where
  nodes : Recycler
  arena : Arena
  deriving DecidableEq, Repr, Inhabited

namespace SlotAllocator

def create (sizing : SlotSizing) (threshold : Nat) (rounds : Rounds) : SlotAllocator :=
  ⟨.create threshold rounds, { sizing }⟩

def allocate (s : SlotAllocator) : Checked (Nat × SlotAllocator) := do
  match s.nodes.reuse? with
  | some (slot, nodes) => return (slot, { s with nodes := nodes })
  | none =>
    let (_, arena) ← s.arena.allocate
    let (slot, nodes) := s.nodes.carve
    return (slot, ⟨nodes, arena⟩)

def free (s : SlotAllocator) (slot : Nat) : SlotAllocator :=
  { s with nodes := s.nodes.release slot }

def dropAll (s : SlotAllocator) : SlotAllocator := ⟨s.nodes.reset.2, s.arena.dropAll⟩

def withRounds (s : SlotAllocator) (rounds : Rounds) : SlotAllocator :=
  { s with nodes := s.nodes.withRounds rounds }

def wasted (s : SlotAllocator) : Checked Nat :=
  s.arena.wasted (s.nodes.freeCount + s.nodes.pendingCount)

end SlotAllocator

structure MemoryStats where
  arrayBytes : Nat := 0
  bitmapBytes : Nat := 0
  arraySegments : Nat := 0
  bitmapSegments : Nat := 0
  deriving DecidableEq, Repr, Inhabited

def MemoryStats.add (s t : MemoryStats) : MemoryStats :=
  ⟨s.arrayBytes + t.arrayBytes, s.bitmapBytes + t.bitmapBytes,
    s.arraySegments + t.arraySegments, s.bitmapSegments + t.bitmapSegments⟩

structure CardMemory where
  array : SlotAllocator
  bitmap : SlotAllocator
  deriving DecidableEq, Repr, Inhabited

namespace CardMemory

def create (c : CardConfig) : CardMemory :=
  ⟨.create c.array c.transferThreshold c.rounds, .create c.bitmap c.transferThreshold c.rounds⟩

def allocator (m : CardMemory) : ContainerKind → SlotAllocator
  | .array => m.array
  | .bitmap => m.bitmap

/-- Puts an allocator back after its use. The other one goes on in the same rounds. -/
def setAllocator (m : CardMemory) (k : ContainerKind) (s : SlotAllocator) : CardMemory :=
  match k with
  | .array => ⟨s, m.bitmap.withRounds s.nodes.rounds⟩
  | .bitmap => ⟨m.array.withRounds s.nodes.rounds, s⟩

def rounds (m : CardMemory) : Rounds := m.array.nodes.rounds

def withRounds (m : CardMemory) (rounds : Rounds) : CardMemory :=
  ⟨m.array.withRounds rounds, m.bitmap.withRounds rounds⟩

def allocate (m : CardMemory) (k : ContainerKind) : Checked (Nat × CardMemory) := do
  let (slot, s) ← (m.allocator k).allocate
  return (slot, m.setAllocator k s)

def free (m : CardMemory) (k : ContainerKind) (slot : Nat) : CardMemory :=
  m.setAllocator k ((m.allocator k).free slot)

/-- Gives all memory back to the system. No slot may be held. -/
def flush (m : CardMemory) : CardMemory :=
  let m := m.setAllocator .array m.array.dropAll
  m.setAllocator .bitmap m.bitmap.dropAll

def stats (m : CardMemory) : MemoryStats :=
  ⟨m.array.arena.memory, m.bitmap.arena.memory,
    m.array.arena.segmentCount, m.bitmap.arena.segmentCount⟩

def memory (m : CardMemory) : Nat := m.array.arena.memory + m.bitmap.arena.memory

def wasted (m : CardMemory) : Checked Nat := do Word.add (← m.array.wasted) (← m.bitmap.wasted)

end CardMemory

end RegionHeap
