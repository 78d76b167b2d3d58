import RegionHeap.Alloc.Recycler
import RegionHeap.Word

/-!
Buffers of a fixed number of words. A pool hands them out empty and reuses those that come back. The
system is taken to have memory for a new one; without it the process ends.
-/
set_option autoImplicit false

namespace RegionHeap

structure Buffer where
  node : Nat
  capacity : Nat
  /-- The word pushed last is the first. -/
  words : List Nat := []
  deriving DecidableEq, Repr, Inhabited

namespace Buffer

def headerBytes : Nat := 16

def length (b : Buffer) : Nat := b.words.length

def isEmpty (b : Buffer) : Bool := b.words.isEmpty

def isFull (b : Buffer) : Bool := b.length == b.capacity

def push (b : Buffer) (word : Nat) : Bool × Buffer :=
  if b.isFull then (false, b) else (true, { b with words := word :: b.words })

def pop (b : Buffer) : Option Nat × Buffer :=
  match b.words with
  | [] => (none, b)
  | word :: rest => (some word, { b with words := rest })

end Buffer

structure BufferPool where
  name : String
  capacity : Nat
  nodeBytes : Nat
  /-- The nodes carved and not given back to memory. -/
  live : Nat := 0
  nodes : Recycler
  deriving DecidableEq, Repr, Inhabited

namespace BufferPool

def maxBlockBytes : Nat := Word.maxBytes - 7

def create (name : String) (capacity : Nat) (rounds : Rounds) : Checked BufferPool := do
  let words ← Word.mul capacity 8
  let payload ← Word.add Buffer.headerBytes words
  let bytes ← Word.add FreeList.linkBytes payload
  Fault.unless (bytes ≤ maxBlockBytes) (.bufferTooLarge capacity)
  return { name, capacity, nodeBytes := bytes, nodes := { rounds } }

def allocate (p : BufferPool) : Buffer × BufferPool :=
  match p.nodes.reuse? with
  | some (node, nodes) => (⟨node, p.capacity, []⟩, { p with nodes := nodes })
  | none =>
    let (node, nodes) := p.nodes.carve
    (⟨node, p.capacity, []⟩, { p with nodes := nodes, live := p.live + 1 })

def release (p : BufferPool) (b : Buffer) : BufferPool :=
  { p with nodes := p.nodes.release b.node }

def flush (p : BufferPool) : BufferPool := { p with nodes := p.nodes.flush }

def reduce (p : BufferPool) (goal : Nat) : Nat × BufferPool :=
  let (removed, nodes) := p.nodes.reduce goal
  (removed.length, { p with nodes := nodes, live := p.live - removed.length })

def reset (p : BufferPool) : BufferPool :=
  let (removed, nodes) := p.nodes.reset
  { p with nodes := nodes, live := p.live - removed.length }

def memory (p : BufferPool) : Nat := (p.live + p.nodes.leavingCount) * p.nodeBytes

def wasted (p : BufferPool) : Nat := (p.nodes.freeCount + p.nodes.pendingCount) * p.nodeBytes

end BufferPool

end RegionHeap
