import RegionHeap.Address.Arithmetic
import RegionHeap.Fault

/-!
Memory from the system: the names under which ranges are reserved, what the system answers, and what
a failed mapping reports.
-/
set_option autoImplicit false

namespace RegionHeap

def version : String := "0.31.0"

namespace Mapping

inductive Purpose where
  | heap
  | sideBitmap (name : String)
  | test (file : String) (line : Nat)
  deriving DecidableEq, Repr

def Purpose.label : Purpose → String
  | heap => "mmtk-g1:heap"
  | sideBitmap name => s!"mmtk-g1:bitmap:{name}"
  | test file line => s!"mmtk-g1:test:{file}:{line}"

def noMemory : Int := 12

def failure (errorNumber : Int) (bytes : Nat) : Fault :=
  if errorNumber = noMemory then .outOfMemory bytes else .mappingFailed

/-- What a system answers: an address or nothing, or else the number of an error. -/
structure System where
  /-- Where it maps a range of so many bytes. -/
  map : Purpose → Nat → Except Int Nat
  unlock : Nat → Nat → Except Int Unit

namespace System

/-- No system maps an empty range. -/
def reserve (s : System) (purpose : Purpose) (bytes : Nat) : Checked Nat := do
  Fault.unless (0 < bytes) .mappingFailed
  (s.map purpose bytes).mapError fun e => failure e bytes

def commit (s : System) (start bytes : Nat) : Checked Unit :=
  (s.unlock start bytes).mapError fun e => failure e bytes

/-- What systems promise: a range that they map does not start at address zero, and lies in the
lower half of the addresses, which is the half of the programs. -/
structure Lawful (s : System) : Prop where
  pos : ∀ {purpose bytes a}, s.map purpose bytes = .ok a → 0 < a
  low : ∀ {purpose bytes a}, s.map purpose bytes = .ok a → a + bytes ≤ 1 <<< 63

end System

end Mapping

end RegionHeap
