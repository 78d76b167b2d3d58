import RegionHeap.Collection.MarkStack
import RegionHeap.Table

/-!
Workers that move objects between stacks of their own and a stack of chunks that they share. The
shared stack may be the one that marking uses, or the same with the words of its chunks in memory:
there a node keeps what its slots held when it is used again.
-/
set_option autoImplicit false

namespace RegionHeap

structure SharedStack (σ : Type) where
  push : σ → List Nat → Checked (List Nat × σ)
  pop : σ → List Nat → Checked (Bool × List Nat × σ)
  /-- Rounds end elsewhere, and with them transfers of nodes. -/
  withRounds : σ → Rounds → σ

def MarkStack.calls : SharedStack MarkStack where
  push := pushChunk
  pop s stack := .ok (s.popChunk stack)
  withRounds s rounds :=
    { s with pool := { s.pool with nodes := s.pool.nodes.withRounds rounds } }

/-- The memory of a buffer: how many of its slots are in use, how many it has, and the slots. -/
structure ChunkNode where
  used : Nat
  capacity : Nat
  slots : Nat → Nat

namespace ChunkNode

def clear (b : ChunkNode) (capacity : Nat) : ChunkNode :=
  { b with used := 0, capacity := capacity }

def push (b : ChunkNode) (word : Nat) : Checked (Bool × ChunkNode) := do
  if b.used = b.capacity then return (false, b)
  Fault.unless (b.used < b.capacity) .precondition
  return (true, { b with
    used := b.used + 1, slots := fun i => if i = b.used then word else b.slots i })

def pop (b : ChunkNode) : Checked (Option Nat × ChunkNode) := do
  if b.used = 0 then return (none, b)
  Fault.unless (b.used - 1 < b.capacity) .precondition
  return (some (b.slots (b.used - 1)), { b with used := b.used - 1 })

theorem used_pop {b b' : ChunkNode} {word : Nat} (h : b.pop = .ok (some word, b')) :
    b'.used < b.used := by
  unfold pop at h
  split at h
  · cases h
  · next hz =>
    cases hu : Fault.unless (decide (b.used - 1 < b.capacity)) .precondition with
    | error f => rw [hu] at h; cases h
    | ok u =>
      rw [hu] at h
      cases h
      exact Nat.sub_one_lt hz

def fill (b : ChunkNode) (objects : List Nat) : Checked ChunkNode :=
  objects.foldlM (fun b o => do
    let (taken, b) ← b.push o
    Fault.unless taken .precondition
    return b) b

def drain (b : ChunkNode) (stack : List Nat) : Checked (List Nat × ChunkNode) :=
  match _h : b.pop with
  | .error f => .error f
  | .ok (none, b') => .ok (stack, b')
  | .ok (some word, b') => b'.drain (word :: stack)
termination_by b.used
decreasing_by exact used_pop ‹_›

end ChunkNode

structure ChunkStore where
  pool : BufferPool
  nodes : Nat → ChunkNode
  /-- The node of the chunk pushed last is the first. -/
  chunks : List Nat := []
  count : Nat := 0

namespace ChunkStore

def create (rounds : Rounds) (nodes : Nat → ChunkNode) : Checked ChunkStore :=
  return { pool := ← BufferPool.create "Mark Stack" MarkStack.chunkCapacity rounds, nodes }

def setNode (s : ChunkStore) (node : Nat) (b : ChunkNode) : ChunkStore :=
  { s with nodes := fun n => if n = node then b else s.nodes n }

def allocate (s : ChunkStore) : Nat × ChunkStore :=
  let node := s.pool.allocate.1.node
  (node, { s with pool := s.pool.allocate.2 }.setNode node ((s.nodes node).clear s.pool.capacity))

def pushChunk (s : ChunkStore) (stack : List Nat) : Checked (List Nat × ChunkStore) := do
  if stack.isEmpty then return (stack, s)
  let (node, s) := s.allocate
  let kept := stack.length - min stack.length MarkStack.chunkCapacity
  let b ← (s.nodes node).fill (stack.drop kept).reverse
  return (stack.take kept,
    { s.setNode node b with chunks := node :: s.chunks, count := s.count + 1 })

def popChunk (s : ChunkStore) (stack : List Nat) : Checked (Bool × List Nat × ChunkStore) := do
  match s.chunks with
  | [] => return (false, stack, s)
  | node :: rest =>
    let (stack, b) ← (s.nodes node).drain stack
    return (true, stack, { s.setNode node b with
      pool := { s.pool with nodes := s.pool.nodes.release node }
      chunks := rest
      count := s.count - 1 })

def calls : SharedStack ChunkStore where
  push := pushChunk
  pop := popChunk
  withRounds s rounds :=
    { s with pool := { s.pool with nodes := s.pool.nodes.withRounds rounds } }

end ChunkStore

inductive ChunkEvent where
  | push (worker : Nat)
  | pop (worker : Nat)
  /-- A worker has worked on its own stack, which is now this one. -/
  | work (worker : Nat) (stack : List Nat)
  | pass (rounds : Rounds)
  deriving DecidableEq, Repr

def ChunkEvent.worker? : ChunkEvent → Option Nat
  | push worker | pop worker | work worker _ => some worker
  | pass _ => none

structure ChunkExchange (σ : Type) where
  shared : σ
  locals : List (List Nat)

namespace ChunkExchange

variable {σ : Type} (calls : SharedStack σ)

def own (x : ChunkExchange σ) (worker : Nat) : Checked (List Nat) :=
  match x.locals[worker]? with
  | some stack => .ok stack
  | none => .error .outOfBounds

def push (x : ChunkExchange σ) (worker : Nat) : Checked (ChunkExchange σ) := do
  let (stack, shared) ← calls.push x.shared (← x.own worker)
  return ⟨shared, x.locals.set worker stack⟩

def pop (x : ChunkExchange σ) (worker : Nat) : Checked (Bool × ChunkExchange σ) := do
  let (found, stack, shared) ← calls.pop x.shared (← x.own worker)
  return (found, ⟨shared, x.locals.set worker stack⟩)

def step (x : ChunkExchange σ) : ChunkEvent → Checked (Option Bool × ChunkExchange σ)
  | .push worker => return (none, ← x.push calls worker)
  | .pop worker => do
    let (found, x) ← x.pop calls worker
    return (some found, x)
  | .work worker stack => do
    let _ ← x.own worker
    return (none, { x with locals := x.locals.set worker stack })
  | .pass rounds => return (none, { x with shared := calls.withRounds x.shared rounds })

end ChunkExchange

end RegionHeap
