import RegionHeap.Fault

/-!
A gang of workers of fixed size, of which some number is active.
-/
set_option autoImplicit false

namespace RegionHeap

structure Gang where
  size : Nat
  active : Nat
  deriving DecidableEq, Repr

namespace Gang

def create (size : Nat) : Checked Gang := do
  Fault.unless (0 < size) .precondition
  return ⟨size, size⟩

def clamp (g : Gang) (n : Nat) : Nat := min (max n 1) g.size

/-- Uses at least one worker, and at most those the gang has. -/
def activate (g : Gang) (n : Nat) : Gang := { g with active := g.clamp n }

def runWith (g : Gang) (n : Nat) : List Nat := List.range (g.clamp n)

def run (g : Gang) : List Nat := g.runWith g.active

end Gang

end RegionHeap
