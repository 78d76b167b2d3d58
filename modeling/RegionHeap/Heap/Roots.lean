set_option autoImplicit false

namespace RegionHeap

inductive Strength where
  | strong
  | weak
  /-- Strong, unless a collection clears soft references. -/
  | soft
  deriving DecidableEq, Repr

namespace Strength

def name : Strength → String
  | strong => "strong"
  | weak => "weak"
  | soft => "soft"

def all : List Strength := [strong, weak, soft]

theorem mem_all (s : Strength) : s ∈ all := by cases s <;> decide

def ofName? (s : String) : Option Strength := all.find? fun k => k.name == s

end Strength

/-- The slots outside the heap from which objects are reached. Null slots hold zero. -/
structure Roots where
  strong : List Nat := []
  weak : List Nat := []
  soft : List Nat := []
  deriving DecidableEq, Repr, Inhabited

namespace Roots

def slots (r : Roots) : Strength → List Nat
  | .strong => r.strong
  | .weak => r.weak
  | .soft => r.soft

def setSlots (r : Roots) (k : Strength) (references : List Nat) : Roots :=
  match k with
  | .strong => { r with strong := references }
  | .weak => { r with weak := references }
  | .soft => { r with soft := references }

def add (r : Roots) (k : Strength) (object : Nat) : Roots :=
  r.setSlots k (r.slots k ++ [object])

theorem slots_setSlots (r : Roots) (k l : Strength) (references : List Nat) :
    (r.setSlots k references).slots l = if k = l then references else r.slots l := by
  cases k <;> cases l <;> rfl

end Roots

end RegionHeap
