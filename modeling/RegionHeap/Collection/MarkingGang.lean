import RegionHeap.Collection.Mark

/-!
Workers that mark together. Each of them visits slots, scans the objects of its own stack and
exchanges chunks with the others through the shared one; out of work, it offers to stop and takes
the offer back when it sees chunks again. A schedule tells which worker takes the next step.
-/
set_option autoImplicit false

namespace RegionHeap

inductive MarkPhase where
  | marking
  /-- Found no chunk and offers to stop. -/
  | idle
  | offering
  /-- Saw a chunk when so many offers stood, and takes its own back. -/
  | leaving (offered : Nat)
  | stopped
  deriving DecidableEq, Repr

structure MarkWorker where
  references : List Nat := []
  stack : List Nat := []
  phase : MarkPhase := .marking
  deriving DecidableEq, Repr

structure MarkingGang where
  collector : Collector
  shared : MarkStack
  terminator : Terminator
  workers : List MarkWorker

namespace MarkingGang

def start (c : Collector) : Checked MarkingGang := do
  return {
    collector := c
    shared := ← MarkStack.create c.heap.table.shared.rounds
    terminator := { workers := c.workers }
    workers := { references := c.markingRoots } :: List.replicate (c.workers - 1) {} }

def put (g : MarkingGang) (i : Nat) (w : MarkWorker) : MarkingGang :=
  { g with workers := g.workers.set i w }

def turn (g : MarkingGang) (i : Nat) (w : MarkWorker) (terminator : Terminator)
    (phase : MarkPhase) : MarkingGang :=
  { g with terminator := terminator }.put i { w with phase := phase }

/-- Marks the object that a slot refers to; the other slots are visited later. -/
def visit (g : MarkingGang) (i : Nat) (w : MarkWorker) (object : Nat) (rest : List Nat) :
    Checked MarkingGang := do
  let k ← Marker.markReference ⟨g.collector, g.shared, w.stack⟩ object
  return { g with collector := k.collector, shared := k.shared }.put i
    { w with references := rest, stack := k.stack }

def seek (g : MarkingGang) (i : Nat) (w : MarkWorker) : MarkingGang :=
  match g.shared.popChunk [] with
  | (true, stack, shared) => { g with shared := shared }.put i { w with stack := stack }
  | (false, _, _) => g.turn i w g.terminator .idle

def advance (g : MarkingGang) (i : Nat) (w : MarkWorker) : Checked MarkingGang :=
  match w.references, w.stack with
  | object :: rest, _ => g.visit i w object rest
  | [], object :: rest =>
    let m := g.collector.memory
    return g.put i { w with references := (Object.slots m object).map m.read, stack := rest }
  | [], [] => return g.seek i w

def step (g : MarkingGang) (i : Nat) : Checked MarkingGang :=
  match g.workers[i]? with
  | none => .ok g
  | some w =>
    match w.phase with
    | .marking => g.advance i w
    | .idle => return g.turn i w (← g.terminator.join) .offering
    | .offering => do
      if g.terminator.isOver then
        Fault.unless g.shared.isEmpty .precondition
        return g.turn i w g.terminator .stopped
      return if g.shared.isEmpty then g
        else g.turn i w g.terminator (.leaving g.terminator.offered)
    | .leaving seen =>
      let (left, terminator) := g.terminator.leave seen
      return g.turn i w terminator (if left then .marking else .offering)
    | .stopped => .ok g

def run (g : MarkingGang) (schedule : List Nat) : Checked MarkingGang := schedule.foldlM step g

def isOver (g : MarkingGang) : Bool := g.workers.all fun w => w.phase == .stopped

end MarkingGang

end RegionHeap
