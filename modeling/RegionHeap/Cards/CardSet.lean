import RegionHeap.Alloc.CardMemory
import RegionHeap.Bitmap
import RegionHeap.Table

/-!
A set of cards, kept by the region they lie in. Each region with cards has a container: a short
list in order of insertion, which becomes a bitmap when it overflows. The containers lie in slots
of the set's own memory.
-/
set_option autoImplicit false

namespace RegionHeap

inductive Container where
  | array (slot : Nat) (offsets : List Nat)
  | bitmap (slot : Nat) (bits : Bitmap)
  deriving DecidableEq, Repr

namespace Container

def arrayCapacity : Nat := 15

def arrayBytes : Nat := 4 * (arrayCapacity + 1)

def kind : Container → ContainerKind
  | array .. => .array
  | bitmap .. => .bitmap

def slot : Container → Nat
  | array s _ => s
  | bitmap s _ => s

def contains (c : Container) (offset : Nat) : Bool :=
  match c with
  | array _ offsets => offsets.contains offset
  | bitmap _ bits => bits.get offset

def offsets (c : Container) (cardsPerRegion : Nat) : List Nat :=
  match c with
  | array _ offsets => offsets
  | bitmap _ bits => bits.toList cardsPerRegion

/-- Adds an offset that is not in the container. An array that overflows gives its slot back once
the bitmap has one. -/
def insert (c : Container) (memory : CardMemory) (offset : Nat) :
    Checked (Container × CardMemory) :=
  match c with
  | array slot offsets =>
    if offsets.length < arrayCapacity then return (array slot (offsets ++ [offset]), memory)
    else do
      let (bitmapSlot, memory) ← memory.allocate .bitmap
      let bits := (offsets ++ [offset]).foldl Bitmap.insert .empty
      return (bitmap bitmapSlot bits, memory.free .array slot)
  | bitmap slot bits => return (bitmap slot (bits.insert offset), memory)

end Container

structure CardSet where
  config : CardConfig
  memory : CardMemory
  /-- By region, ascending. -/
  containers : List (Nat × Container) := []
  occupied : Nat := 0
  scan : List Nat := []
  cursor : Nat := 0
  deriving DecidableEq, Repr, Inhabited

namespace CardSet

def configuration (rounds : Rounds) (o : Options) : Checked CardConfig :=
  let cards := o.regionSize >>> Address.logBytesInCard
  CardConfig.create rounds o Container.arrayBytes (max (cards / 8) 8)

def create (config : CardConfig) : CardSet := { config := config, memory := .create config }

def rounds (s : CardSet) : Rounds := s.memory.rounds

def withRounds (s : CardSet) (rounds : Rounds) : CardSet :=
  { s with memory := s.memory.withRounds rounds }

def regionOf (s : CardSet) (card : Nat) : Nat := card >>> s.config.logCardsPerRegion

def offsetOf (s : CardSet) (card : Nat) : Nat := card % s.config.cardsPerRegion

def put (region : Nat) (c : Container) : List (Nat × Container) → List (Nat × Container)
  | [] => [(region, c)]
  | (r, d) :: rest =>
    if region < r then (region, c) :: (r, d) :: rest
    else if region = r then (region, c) :: rest
    else (r, d) :: put region c rest

def container (s : CardSet) (region : Nat) : Checked (Container × CardMemory) :=
  match s.containers.lookup region with
  | some c => return (c, s.memory)
  | none => do
    let (slot, memory) ← s.memory.allocate .array
    return (.array slot [], memory)

def add (s : CardSet) (card : Nat) : Checked (Bool × CardSet) := do
  let region := s.regionOf card
  let offset := s.offsetOf card
  let (c, memory) ← s.container region
  if c.contains offset then
    return (false, { s with containers := put region c s.containers, memory := memory })
  let (c, memory) ← c.insert memory offset
  return (true, { s with
    containers := put region c s.containers, memory := memory, occupied := s.occupied + 1 })

def addAll (s : CardSet) (cards : List Nat) : Checked CardSet :=
  cards.foldlM (fun s card => return (← s.add card).2) s

def contains (s : CardSet) (card : Nat) : Bool :=
  match s.containers.lookup (s.regionOf card) with
  | some c => c.contains (s.offsetOf card)
  | none => false

def isEmpty (s : CardSet) : Bool := s.occupied == 0

def containerCount (s : CardSet) : Nat := s.containers.length

def cardsOf (s : CardSet) (region : Nat) (c : Container) : List Nat :=
  (c.offsets s.config.cardsPerRegion).map fun offset => region * s.config.cardsPerRegion + offset

def cards (s : CardSet) : List Nat := s.containers.flatMap fun (region, c) => s.cardsOf region c

/-- Drops all cards and gives the memory back. A scan under way keeps its regions. -/
def clear (s : CardSet) : CardSet :=
  let memory := s.containers.foldl (fun m (_, c) => m.free c.kind c.slot) s.memory
  { s with containers := [], occupied := 0, memory := memory.flush }

def startScan (s : CardSet) : CardSet :=
  { s with scan := s.containers.map fun (region, _) => region, cursor := 0 }

/-- Claims up to so many containers of the scan: the positions from one up to another. -/
def claim (s : CardSet) (step : Nat) : Checked (Option (Nat × Nat) × CardSet) := do
  let start := s.cursor
  let s := { s with cursor := Word.addWrapping start step }
  if s.scan.length ≤ start then return (none, s)
  let stop ← Word.add start step
  return (some (start, min stop s.scan.length), s)

/-- The cards of claimed containers, as far as they are still there. -/
def cardsIn (s : CardSet) (start stop : Nat) : Checked (List Nat) := do
  let regions ← Table.slice s.scan start stop
  return regions.flatMap fun region =>
    match s.containers.lookup region with
    | some c => s.cardsOf region c
    | none => []

end CardSet

end RegionHeap
