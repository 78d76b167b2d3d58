set_option autoImplicit false

namespace RegionHeap

inductive RegionAttr where
  | free
  /-- Not marked through: all objects of the region count as live. -/
  | skipMarking
  /-- Marked, but the objects stay where they are. -/
  | skipCompacting
  | compacting
  deriving DecidableEq, Repr, Inhabited

namespace RegionAttr

def name : RegionAttr → String
  | free => "Free"
  | skipMarking => "SkipMarking"
  | skipCompacting => "SkipCompacting"
  | compacting => "Compacting"

def all : List RegionAttr := [free, skipMarking, skipCompacting, compacting]

theorem mem_all (a : RegionAttr) : a ∈ all := by cases a <;> decide

def ofName? (s : String) : Option RegionAttr := all.find? fun a => a.name == s

def isMarkedThrough : RegionAttr → Bool
  | skipCompacting | compacting => true
  | free | skipMarking => false

end RegionAttr

end RegionHeap
