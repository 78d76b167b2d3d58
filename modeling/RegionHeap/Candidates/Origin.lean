set_option autoImplicit false

namespace RegionHeap

/-- How a region became a candidate for evacuation; invalid for a region that is none. -/
inductive Origin where
  | invalid
  | marking
  | retained
  deriving DecidableEq, Repr, Inhabited

namespace Origin

def name : Origin → String
  | invalid => "Invalid"
  | marking => "Marking"
  | retained => "Retained"

def short : Origin → String
  | invalid => "Ci"
  | marking => "Cm"
  | retained => "Cr"

end Origin

/-- What a map can say of a region: how it became a candidate, or that a check has met it. -/
inductive OriginTag where
  | origin (o : Origin)
  | verify
  deriving DecidableEq, Repr, Inhabited

def OriginTag.name : OriginTag → String
  | origin o => o.name
  | verify => "Verify"

end RegionHeap
