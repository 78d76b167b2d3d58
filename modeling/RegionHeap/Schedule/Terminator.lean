import RegionHeap.Fault

/-!
Parallel work on shared items is over when all workers have offered to stop at once.
-/
set_option autoImplicit false

namespace RegionHeap

structure Terminator where
  workers : Nat
  offered : Nat := 0
  deriving DecidableEq, Repr

namespace Terminator

/-- Offers to stop. The offer stands if it is the last one missing; otherwise a worker that sees
work takes it back, and one that sees none waits with its offer standing. -/
def offer (t : Terminator) (hasWork : Bool) : Checked (Bool × Terminator) := do
  Fault.unless (t.offered + 1 ≤ t.workers) .precondition
  if t.offered + 1 = t.workers then return (true, { t with offered := t.workers })
  if hasWork then return (false, t)
  return (false, { t with offered := t.offered + 1 })

def join (t : Terminator) : Checked Terminator := do
  Fault.unless (t.offered + 1 ≤ t.workers) .precondition
  return { t with offered := t.offered + 1 }

def isOver (t : Terminator) : Bool := t.offered == t.workers

def leave (t : Terminator) (seen : Nat) : Bool × Terminator :=
  if t.offered = seen then (true, { t with offered := t.offered - 1 }) else (false, t)

def reset (t : Terminator) : Terminator := { t with offered := 0 }

end Terminator

end RegionHeap
