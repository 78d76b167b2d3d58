import RegionHeap.Alloc.FreeList
import RegionHeap.Table
import RegionHeap.Word

/-!
The chains behind a list of nodes for reuse. A node that nobody holds has the link to the next one
in its first word, and the lists know no more than where their chains begin, where the chains of
pending nodes end, and how many nodes they should have. There are two chains of pending nodes: one
takes in what is released, the other one is being transferred or empty.
-/
set_option autoImplicit false

namespace RegionHeap

/-- The first words of the nodes carved. A node that went back to memory has none. -/
structure NodeMemory where
  cells : Array (Option (Option Nat)) := #[]
  deriving DecidableEq, Repr, Inhabited

namespace NodeMemory

def carved (m : NodeMemory) : Nat := m.cells.size

def link (m : NodeMemory) (node : Nat) : Checked (Option Nat) :=
  match m.cells[node]? with
  | some (some next) => .ok next
  | _ => .error .precondition

def setLink (m : NodeMemory) (node : Nat) (next : Option Nat) : Checked NodeMemory := do
  let _ ← m.link node
  return ⟨m.cells.set! node (some next)⟩

def carve (m : NodeMemory) : NodeMemory := ⟨m.cells.push (some none)⟩

def discard (m : NodeMemory) (node : Nat) : Checked NodeMemory := do
  let _ ← m.link node
  return ⟨m.cells.set! node none⟩

def discardChain (m : NodeMemory) : Nat → Option Nat → Checked NodeMemory
  | _, none => .ok m
  | 0, some _ => .error .precondition
  | bound + 1, some node => do
    let next ← m.link node
    (← m.discard node).discardChain bound next

end NodeMemory

structure PendingChain where
  head : Option Nat := none
  tail : Option Nat := none
  count : Nat := 0
  deriving DecidableEq, Repr, Inhabited

structure NodeChains where
  threshold : Nat := 10
  memory : NodeMemory := {}
  freeHead : Option Nat := none
  freeCount : Nat := 0
  locked : Bool := false
  active : Bool := false
  lists : Bool → PendingChain := fun _ => {}
  /-- The transfers that were started and put off, by the chain that each moves. -/
  deferred : List Bool := []
  /-- The nodes that are to go back to memory later, together as they were taken. -/
  leaving : List (List Nat) := []

namespace NodeChains

def setList (c : NodeChains) (i : Bool) (p : PendingChain) : NodeChains :=
  { c with lists := fun j => if j = i then p else c.lists j }

def pendingCount (c : NodeChains) : Nat := (c.lists false).count + (c.lists true).count

def countDown (n : Nat) : Nat := if n = 0 then Word.limit - 1 else n - 1

def carve (c : NodeChains) : Nat × NodeChains :=
  (c.memory.carved, { c with memory := c.memory.carve })

def popFree (c : NodeChains) : Checked (Option Nat × NodeChains) :=
  match c.freeHead with
  | none => .ok (none, c)
  | some node => do return (some node, { c with freeHead := ← c.memory.link node })

/-- Puts a node in front of a chain of pending ones and counts them. Only the first node becomes
the tail. -/
def add (c : NodeChains) (i : Bool) (node : Nat) : Checked (Nat × NodeChains) := do
  let p := c.lists i
  let memory ← c.memory.setLink node p.head
  let tail := if p.head.isNone then some node else p.tail
  return (p.count + 1, { c with memory }.setList i ⟨some node, tail, p.count + 1⟩)

def startTransfer (c : NodeChains) : Bool × NodeChains :=
  if c.locked then (false, c)
  else (true, { c with
    locked := true, active := !c.active, deferred := c.deferred ++ [c.active] })

def finishTransfer (c : NodeChains) (i : Bool) : Checked NodeChains := do
  let p := c.lists i
  let c := c.setList i {}
  match p.head, p.tail with
  | none, _ => return { c with locked := false }
  | some _, none => .error .precondition
  | some head, some tail =>
    return { c with
      freeCount := c.freeCount + p.count
      memory := ← c.memory.setLink tail c.freeHead
      freeHead := some head
      locked := false }

def complete (c : NodeChains) : Checked NodeChains :=
  match c.deferred with
  | [] => .ok c
  | i :: rest => { c with deferred := rest }.finishTransfer i

/-- Work that was put off may be done whenever the chains are about to be looked at. -/
def settle (c : NodeChains) (settles : Bool) : Checked NodeChains :=
  if settles then c.complete else .ok c

/-- A node from the free ones, or a new one if there are none. A transfer may take effect between
the look at the count and the look at the chain. -/
def allocate (c : NodeChains) (settles : Bool) : Checked (Nat × NodeChains) := do
  if 0 < c.freeCount then
    match ← (← c.settle settles).popFree with
    | (some node, c) => return (node, { c with freeCount := countDown c.freeCount })
    | (none, c) => return c.carve
  else return c.carve

def release (c : NodeChains) (node : Nat) : Checked NodeChains := do
  let (count, c) ← c.add c.active node
  return if c.threshold < count then c.startTransfer.2 else c

def awaitUnlocked (c : NodeChains) : List Bool → Checked NodeChains
  | [] => do
    -- nothing will ever end the wait
    Fault.unless (!c.locked) .precondition
    return c
  | i :: rest =>
    if c.locked then do
      let c ← { c with deferred := rest }.finishTransfer i
      c.awaitUnlocked rest
    else .ok c

def flush (c : NodeChains) : Checked NodeChains := c.awaitUnlocked c.deferred

def takeFree (c : NodeChains) : Nat → Checked (List Nat × NodeChains)
  | 0 => .ok ([], c)
  | goal + 1 => do
    match ← c.popFree with
    | (none, c) => return ([], c)
    | (some node, c) =>
      let (nodes, c) ← { c with freeCount := countDown c.freeCount }.takeFree goal
      return (node :: nodes, c)

/-- Takes up to so many free nodes out, to give them back to memory when nobody can look at them
any more. A transfer may take effect before. -/
def reduce (c : NodeChains) (goal : Nat) (settles : Bool) : Checked (Nat × NodeChains) := do
  let c ← c.startTransfer.2.settle settles
  let (nodes, c) ← c.takeFree goal
  return (nodes.length, if nodes.isEmpty then c else { c with leaving := c.leaving ++ [nodes] })

def reset (c : NodeChains) : Checked NodeChains := do
  let c ← c.flush
  let bound := c.memory.carved
  let memory ← c.memory.discardChain bound (c.lists false).head
  let memory ← memory.discardChain bound (c.lists true).head
  let memory ← memory.discardChain bound c.freeHead
  return { c with memory, lists := fun _ => {}, freeHead := none, freeCount := 0 }

def depart (c : NodeChains) (place : Nat) : Checked NodeChains := do
  let memory ← (c.leaving[place]?.getD []).foldlM NodeMemory.discard c.memory
  return { c with memory, leaving := c.leaving.eraseIdx place }

end NodeChains

inductive NodeEvent where
  | allocate (settles : Bool)
  | release (place : Nat)
  | transfer
  | reduce (goal : Nat) (settles : Bool)
  | flush
  | reset
  | complete
  | depart (place : Nat)
  deriving DecidableEq, Repr

inductive NodeAnswer where
  | done
  | node (node : Nat)
  | started (could : Bool)
  | count (count : Nat)
  deriving DecidableEq, Repr

def NodeEvent.settles : NodeEvent → Bool
  | .allocate settles | .reduce _ settles => settles
  | .flush | .reset | .complete => true
  | .release _ | .transfer | .depart _ => false

namespace FreeList

def settle (l : FreeList) (settles : Bool) : FreeList := if settles then l.finishTransfer else l

def perform (l : FreeList) (held : List Nat) : NodeEvent → NodeAnswer × FreeList × List Nat
  | .allocate settles =>
    let (node, l) := (if l.free.isEmpty then l else l.settle settles).allocate
    (.node node, l, node :: held)
  | .release place =>
    match held[place]? with
    | none => (.done, l, held)
    | some node => (.done, l.release node, held.eraseIdx place)
  | .transfer => (.started l.startTransfer.1, l.startTransfer.2, held)
  | .reduce goal settles =>
    let (nodes, l) := (l.startTransfer.2.settle settles).takeFree goal
    (.count nodes.length, l, held)
  | .flush => (.done, l.flush, held)
  | .reset => (.done, l.reset.2, held)
  | .complete => (.done, l.finishTransfer, held)
  | .depart _ => (.done, l, held)

def run (l : FreeList) (held : List Nat) : List NodeEvent → List NodeAnswer × FreeList × List Nat
  | [] => ([], l, held)
  | event :: events =>
    let (answer, l, held) := l.perform held event
    let (answers, l, held) := l.run held events
    (answer :: answers, l, held)

end FreeList

namespace NodeChains

def perform (c : NodeChains) (held : List Nat) :
    NodeEvent → Checked (NodeAnswer × NodeChains × List Nat)
  | .allocate settles => do
    let (node, c) ← c.allocate settles
    return (.node node, c, node :: held)
  | .release place =>
    match held[place]? with
    | none => .ok (.done, c, held)
    | some node => do return (.done, ← c.release node, held.eraseIdx place)
  | .transfer => .ok (.started c.startTransfer.1, c.startTransfer.2, held)
  | .reduce goal settles => do
    let (count, c) ← c.reduce goal settles
    return (.count count, c, held)
  | .flush => return (.done, ← c.flush, held)
  | .reset => return (.done, ← c.reset, held)
  | .complete => return (.done, ← c.complete, held)
  | .depart place => return (.done, ← c.depart place, held)

def run (c : NodeChains) (held : List Nat) :
    List NodeEvent → Checked (List NodeAnswer × NodeChains × List Nat)
  | [] => .ok ([], c, held)
  | event :: events => do
    let (answer, c, held) ← c.perform held event
    let (answers, c, held) ← c.run held events
    return (answer :: answers, c, held)

end NodeChains

end RegionHeap
