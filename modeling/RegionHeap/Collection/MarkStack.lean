import RegionHeap.Alloc.BufferPool

/-!
The mark stack that marking workers share. Workers move whole chunks of objects between their own
stacks and the shared one.
-/
set_option autoImplicit false

namespace RegionHeap

structure MarkStack where
  pool : BufferPool
  /-- The chunk pushed last is the first. -/
  chunks : List Buffer := []
  count : Nat := 0
  deriving DecidableEq, Repr, Inhabited

namespace MarkStack

def chunkCapacity : Nat := 64

def stackLimit : Nat := 2 * chunkCapacity

def create (rounds : Rounds) : Checked MarkStack :=
  return { pool := ← BufferPool.create "Mark Stack" chunkCapacity rounds }

def isEmpty (s : MarkStack) : Bool := s.count == 0

def fill (b : Buffer) (objects : List Nat) : Checked Buffer :=
  objects.foldlM (fun b o => do
    let (taken, b) := b.push o
    Fault.unless taken .precondition
    return b) b

/-- Moves up to a chunk of the oldest objects of a stack to the shared one. The newest object of a
stack is its first. -/
def pushChunk (s : MarkStack) (stack : List Nat) : Checked (List Nat × MarkStack) := do
  if stack.isEmpty then return (stack, s)
  let (buffer, pool) := s.pool.allocate
  let kept := stack.length - min stack.length chunkCapacity
  let buffer ← fill buffer (stack.drop kept).reverse
  return (stack.take kept,
    { s with pool := pool, chunks := buffer :: s.chunks, count := s.count + 1 })

def popChunk (s : MarkStack) (stack : List Nat) : Bool × List Nat × MarkStack :=
  match s.chunks with
  | [] => (false, stack, s)
  | chunk :: rest =>
    (true, chunk.words.reverse ++ stack,
      { s with pool := s.pool.release chunk, chunks := rest, count := s.count - 1 })

end MarkStack

end RegionHeap
