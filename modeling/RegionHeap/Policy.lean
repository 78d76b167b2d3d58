import RegionHeap.Options
import RegionHeap.Region.Basic

/-!
Predictions of how long parts of an evacuation take. A policy may predict anything; by default it
works with constant costs.
-/
set_option autoImplicit false

namespace RegionHeap

/-- Costs and times are in milliseconds. -/
structure Policy where
  perByte : Float := 5.0e-6
  perCodeRootRegion : Float := 0.01
  perCard : Float := 0.0005
  perOldRegion : Float := 0.05
  mixedTarget : Nat := 8
  copyTime : Region → Float := fun r => Float.ofNat r.marked * perByte
  codeRootTime : Region → Float := fun _ => perCodeRootRegion
  mergeScanTime : Nat → Float := fun cards => Float.ofNat cards * perCard
  otherTime : Nat → Float := fun regions => Float.ofNat regions * perOldRegion
  /-- How many regions a mixed collection must take to finish so many candidates in time. -/
  minOldRegions : Nat → Nat := fun candidates => Word.divCeil candidates (max mixedTarget 1)

namespace Policy

def ofOptions (o : Options) : Policy := { mixedTarget := o.mixedTarget }

end Policy

def Region.efficiency (r : Region) (shared : SharedCards) (p : Policy) : Checked Float := do
  let cards ← r.remSet.occupied shared
  let time := p.copyTime r + p.codeRootTime r + p.mergeScanTime cards + p.otherTime 1
  return Float.ofNat r.reclaimable / time

/-- Negative if the first efficiency comes first: the larger one does, and two that cannot be
compared count as equal. -/
def compareEfficiency (x y : Float) : Ordering :=
  if y < x then .lt else if y > x then .gt else .eq

end RegionHeap
