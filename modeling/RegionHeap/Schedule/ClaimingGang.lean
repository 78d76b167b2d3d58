import RegionHeap.Schedule.Claimer

/-!
Workers that claim regions together. Each of them goes along a walk of its own. It looks at the mark
of the next region, and if that is not set it exchanges the mark, which passes only if the mark is
still not set by then. A schedule tells which worker takes the next step; a worker that stops early
is one that the schedule does not name any more.
-/
set_option autoImplicit false

namespace RegionHeap

/-- The regions in the order in which a worker visits them, from the first one on or from its own
offset. -/
def Claimer.walk (c : Claimer) (fromStart : Bool) (worker : Nat) : Checked (List Nat) :=
  if fromStart then .ok (List.range c.regions) else c.order worker

structure ClaimWorker where
  walk : List Nat
  /-- Whether it has seen the next region unclaimed. -/
  looked : Bool := false
  taken : List Nat := []
  deriving DecidableEq, Repr

structure ClaimingGang where
  claimer : Claimer
  workers : List ClaimWorker
  deriving DecidableEq, Repr

namespace ClaimingGang

def start (c : Claimer) (fromStart : Bool) (workers : List Nat) : Checked ClaimingGang := do
  let walks ← workers.mapM (c.walk fromStart)
  return ⟨c, walks.map fun walk => { walk := walk }⟩

def taken (g : ClaimingGang) : List Nat := g.workers.flatMap ClaimWorker.taken

def put (g : ClaimingGang) (k : Nat) (w : ClaimWorker) : ClaimingGang :=
  { g with workers := g.workers.set k w }

def look (g : ClaimingGang) (k : Nat) (w : ClaimWorker) (region : Nat) (rest : List Nat) :
    Checked ClaimingGang := do
  let claimed ← Table.get g.claimer.claimed region
  return g.put k (if claimed then { w with walk := rest } else { w with looked := true })

def exchange (g : ClaimingGang) (k : Nat) (w : ClaimWorker) (region : Nat) (rest : List Nat) :
    Checked ClaimingGang := do
  let (new, claimer) ← g.claimer.claim region
  return { g with claimer := claimer }.put k
    ⟨rest, false, if new then w.taken ++ [region] else w.taken⟩

def step (g : ClaimingGang) (k : Nat) : Checked ClaimingGang :=
  match g.workers[k]? with
  | none => .ok g
  | some w =>
    match w.walk with
    | [] => .ok g
    | region :: rest => if w.looked then g.exchange k w region rest else g.look k w region rest

def run (g : ClaimingGang) (schedule : List Nat) : Checked ClaimingGang := schedule.foldlM step g

def someoneDone (g : ClaimingGang) : Bool := g.workers.any fun w => w.walk.isEmpty

end ClaimingGang

end RegionHeap
