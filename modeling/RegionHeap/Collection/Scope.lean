set_option autoImplicit false

namespace RegionHeap

structure Scope where
  explicitRequest : Bool
  clearSoft : Bool
  /-- Compact every region, whatever its live ratio, and move humongous objects. -/
  maximal : Bool
  /-- Regions with more live words than this are left in place. -/
  threshold : Nat
  deriving DecidableEq, Repr

def Scope.create (explicitRequest clearSoft maximal : Bool) (regionWords threshold : Nat) : Scope :=
  ⟨explicitRequest, clearSoft, maximal, if maximal then regionWords else threshold⟩

end RegionHeap
