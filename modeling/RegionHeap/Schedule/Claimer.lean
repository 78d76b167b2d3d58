import RegionHeap.Table
import RegionHeap.Word

/-!
Lets the workers of a parallel iteration claim each region once. Every worker starts at an
offset of its own and wraps around.
-/
set_option autoImplicit false

namespace RegionHeap

structure Claimer where
  workers : Nat
  claimed : Array Bool
  deriving DecidableEq, Repr

namespace Claimer

def create (workers regions : Nat) : Checked Claimer := do
  Fault.unless (0 < workers) .precondition
  return ⟨workers, ← Table.replicate regions false⟩

def regions (c : Claimer) : Nat := c.claimed.size

/-- The region at which a worker starts. -/
def offset (c : Claimer) (worker : Nat) : Checked Nat := do
  Fault.unless (worker < c.workers) .precondition
  let product ← Word.mul c.regions worker
  return product / c.workers

def orderFrom (regions start : Nat) : List Nat :=
  (List.range regions).map fun i => (start + i) % regions

def order (c : Claimer) (worker : Nat) : Checked (List Nat) :=
  return orderFrom c.regions (← c.offset worker)

def claim (c : Claimer) (region : Nat) : Checked (Bool × Claimer) := do
  let taken ← Table.get c.claimed region
  if taken then return (false, c)
  return (true, { c with claimed := c.claimed.set! region true })

def claimSome (c : Claimer) : Nat → List Nat → Checked (List Nat × Claimer)
  | 0, _ => .ok ([], c)
  | _, [] => .ok ([], c)
  | n + 1, region :: rest => do
    let (new, c) ← c.claim region
    if new then
      let (taken, c) ← c.claimSome n rest
      return (region :: taken, c)
    c.claimSome (n + 1) rest

def claimAll (c : Claimer) : List Nat → Checked (List Nat × Claimer)
  | [] => .ok ([], c)
  | region :: rest => do
    let (new, c) ← c.claim region
    let (taken, c) ← c.claimAll rest
    return (if new then region :: taken else taken, c)

def claimEach (c : Claimer) : List (List Nat) → Checked (List (List Nat) × Claimer)
  | [] => .ok ([], c)
  | walk :: rest => do
    let (taken, c) ← c.claimAll walk
    let (others, c) ← c.claimEach rest
    return (taken :: others, c)

/-- What each worker of a list claims. All walk from the first region on, or each from its own
offset. -/
def share (c : Claimer) (fromStart : Bool) (workers : List Nat) : Checked (List (List Nat)) := do
  let walks ← workers.mapM fun w => if fromStart then .ok (List.range c.regions) else c.order w
  return (← c.claimEach walks).1

end Claimer

end RegionHeap
