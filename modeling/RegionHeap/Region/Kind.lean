set_option autoImplicit false

namespace RegionHeap

/-- What a heap region is used for. -/
inductive RegionKind where
  | free
  | eden
  | survivor
  | old
  | startsHumongous
  | continuesHumongous
  | openArchive
  | closedArchive
  deriving DecidableEq, Repr, Inhabited

namespace RegionKind

def name : RegionKind → String
  | free => "FREE"
  | eden => "EDEN"
  | survivor => "SURVIVOR"
  | old => "OLD"
  | startsHumongous => "STARTS_HUMONGOUS"
  | continuesHumongous => "CONTINUES_HUMONGOUS"
  | openArchive => "OPEN_ARCHIVE"
  | closedArchive => "CLOSED_ARCHIVE"

def short : RegionKind → String
  | free => "F"
  | eden => "E"
  | survivor => "S"
  | old => "O"
  | startsHumongous => "HS"
  | continuesHumongous => "HC"
  | openArchive => "OA"
  | closedArchive => "CA"

def all : List RegionKind :=
  [free, eden, survivor, old, startsHumongous, continuesHumongous, openArchive, closedArchive]

theorem mem_all (k : RegionKind) : k ∈ all := by cases k <;> decide

def ofName? (s : String) : Option RegionKind := all.find? fun k => k.name == s

def isFree (k : RegionKind) : Bool := k == free

def isYoung : RegionKind → Bool
  | eden | survivor => true
  | _ => false

def isOld (k : RegionKind) : Bool := k == old

def isStartsHumongous (k : RegionKind) : Bool := k == startsHumongous

def isContinuesHumongous (k : RegionKind) : Bool := k == continuesHumongous

def isHumongous (k : RegionKind) : Bool := k.isStartsHumongous || k.isContinuesHumongous

def isOpenArchive (k : RegionKind) : Bool := k == openArchive

def isClosedArchive (k : RegionKind) : Bool := k == closedArchive

def isArchive (k : RegionKind) : Bool := k.isOpenArchive || k.isClosedArchive

end RegionKind

end RegionHeap
