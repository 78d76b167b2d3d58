import RegionHeap.Fault

/-!
The states of a payload that is set up when it is first needed and may then hold data.
-/
set_option autoImplicit false

namespace RegionHeap

inductive LazyState where
  | uninitialized
  | initializing
  | initialized
  /-- The payload is ready and data has been recorded in it. -/
  | marked
  deriving DecidableEq, Repr, Inhabited

namespace LazyState

def name : LazyState → String
  | uninitialized => "Uninitialized"
  | initializing => "Initializing"
  | initialized => "Initialized"
  | marked => "Marked"

def isInitialized : LazyState → Bool
  | initialized | marked => true
  | uninitialized | initializing => false

def isMarked (s : LazyState) : Bool := s == marked

def begin : LazyState → Bool × LazyState
  | uninitialized => (true, initializing)
  | s => (false, s)

def complete (s : LazyState) : Checked LazyState := do
  Fault.unless (s == initializing) .precondition
  return initialized

/-- Makes the payload ready and tells whether it had to be set up. Nobody but the caller can
complete a set-up that is under way, so that one is refused. -/
def ensure (s : LazyState) : Checked (Bool × LazyState) :=
  if s.isInitialized then .ok (false, s)
  else if s.begin.1 then do
    let s ← s.begin.2.complete
    return (true, s)
  else .error .precondition

def mark (s : LazyState) : Checked (Bool × LazyState) := do
  Fault.unless s.isInitialized .precondition
  return (s == initialized, marked)

def toInitialized (s : LazyState) : Checked LazyState := do
  Fault.unless s.isInitialized .precondition
  return initialized

def toUninitialized (s : LazyState) : Checked LazyState := do
  Fault.unless (s == initialized) .precondition
  return uninitialized

end LazyState

end RegionHeap
