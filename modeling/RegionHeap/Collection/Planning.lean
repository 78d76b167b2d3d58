import RegionHeap.Collection.Collector

/-!
Planning: which regions are freed, left in place or compacted, and where each live object goes.
Every worker slides the objects of its own regions. If that leaves no region empty, the tails of
all workers' lists are planned again as one, and a maximal compaction moves humongous objects too.
-/
set_option autoImplicit false

namespace RegionHeap.Collector

def setAttrs (c : Collector) (first count : Nat) (attr : RegionAttr) : Checked Collector :=
  return { c with
    attrs := ← (List.range' first count).foldlM (fun t i => t.set i attr) c.attrs }

/-- A humongous object stays if it is live or pinned, and then may move unless it is pinned. All
regions of a dead one are freed. -/
def sortHumongous (c : Collector) (r : Region) : Checked Collector := do
  let count := c.heap.humongousSpan r
  if (← c.liveness.isMarked r.bottom) || r.isPinned then
    let c ← c.setAttrs r.index count .skipCompacting
    return if r.isPinned then c else { c with humongousStarts := c.humongousStarts ++ [r.index] }
  (List.range' r.index count).foldlM freeRegion c

/-- Decides about one region. Those to be compacted are dealt to the workers in turn; the second
part of the answer is the worker who gets the next one. -/
def sortRegion (c : Collector) (next i : Nat) : Checked (Collector × Nat) := do
  let r ← c.region i
  match ← c.attrs.get i with
  | .free | .skipMarking => return (c, next)
  | attr =>
    if r.kind.isContinuesHumongous then return (c, next)
    if r.kind.isStartsHumongous then return (← c.sortHumongous r, next)
    let live ← c.liveWords i
    if attr == .skipCompacting then
      return (← if r.kind.isOpenArchive && live == 0 then c.freeRegion i else pure c, next)
    if live = 0 then return (← c.freeRegion i, next)
    if c.scope.threshold < live then
      return ({ c with attrs := ← c.attrs.keepInPlace i }, next)
    let point ← Table.get c.points next
    return ({ c with points := c.points.set! next (point.add i) }, (next + 1) % c.workers)

def sortRegions (c : Collector) : Checked Collector := do
  let (c, _) ← c.heap.table.indices.foldlM (fun (c, next) i => c.sortRegion next i) (c, 0)
  return c

def forgetReferences (c : Collector) : Checked Collector := do
  let table ← c.heap.table.indices.foldlM (fun t i => do
    if (← c.attrs.get i) == .free then return t
    t.update i fun r => return { r with remSet := r.remSet.clear false }) c.heap.table
  return c.setTable table

def plan (c : Collector) : Plan := ⟨c.heap.table, c.tops⟩

def setPlan (c : Collector) (s : Plan) : Collector :=
  { c.setTable s.table with tops := s.tops }

def emptyTarget (s : Plan) (i : Nat) : Checked Plan := do
  let s ← s.setTop i (← s.table.get i).bottom
  return { s with table := ← s.table.update i fun r => return r.resetBlocks }

def forwardRegion (liveness : LivenessMap) (which : Memory → Nat → Checked Bool)
    (p : CompactionPoint) (s : Plan) (i : Nat) : Checked (CompactionPoint × Plan) := do
  let r ← s.table.get i
  LivenessMap.walk (fun _ => liveness) (fun (p, s) object => do
    let words := Object.size s.table.memory object
    if ← which s.table.memory object then
      let (p, s) ← p.forward s object words
      return (words, p, s)
    return (words, p, s)) i r.top (p, s)

def planRegion (liveness : LivenessMap) (state : CompactionPoint × Plan) (i : Nat) :
    Checked (CompactionPoint × Plan) := do
  let (p, s) := state
  let s ← emptyTarget s i
  let p ← if p.isStarted then pure p else p.start s
  forwardRegion liveness (fun _ _ => .ok true) p s i

def planWorker (worker : Nat) (c : Collector) : Checked Collector := do
  let p ← Table.get c.points worker
  let (p, s) ← p.regions.foldlM (planRegion c.liveness) (p, c.plan)
  return { c.setPlan (← p.save s) with points := c.points.set! worker p }

def hasFreeTargets (c : Collector) : Bool :=
  (c.heap.gang.runWith c.workers).any fun worker =>
    match c.points[worker]? with
    | some p => p.hasRegions && !p.isAtLast
    | none => false

/-- Takes the current regions of all workers, and those behind them, and plans them again as one
ascending list. The lowest keeps what was forwarded into it. -/
def planSerially (c : Collector) : Checked Collector := do
  let taken := c.points.toList.map fun (p : CompactionPoint) =>
    if p.hasRegions then p.takeRest else ([], p)
  let c := { c with points := (taken.map Prod.snd).toArray }
  let p := (taken.flatMap Prod.fst).foldl CompactionPoint.add c.serial
  if !p.hasRegions then return { c with serial := p }
  let p ← (← p.sort).start c.plan
  let again := p.regions.drop 1
  let (p, s) ← again.foldlM (fun (state : CompactionPoint × Plan) i => do
    let (p, s) := state
    let s ← emptyTarget s i
    forwardRegion c.liveness (fun m object => do
      let region ← c.heap.regionOf (Object.destination m object)
      return again.contains region) p s i) (p, c.plan)
  return { c.setPlan (← p.save s) with serial := p }

/-- Moves live humongous objects down into runs of regions that will be empty: those that serial
planning left untouched, and the free ones. -/
def planHumongous (c : Collector) : Checked Collector := do
  let free ← c.heap.table.indices.filterM fun i => return (← c.attrs.get i) == .free
  let empty := c.serial.untouched ++ free
  match empty.min? with
  | none => return c
  | some lowest =>
    let span (start : Nat) : Checked Nat := return c.heap.humongousSpan (← c.region start)
    let starts := c.humongousStarts.filter (lowest < ·)
    let own ← starts.mapM fun start => return List.range' start (← span start)
    let p ← CompactionPoint.sort { regions := empty ++ own.flatten }
    let (c, _) ← starts.foldlM (fun (c, p) start => do
      let count ← span start
      let (target, p, table) ← CompactionPoint.forwardHumongous p c.heap.table start count
      let c := c.setTable table
      match target with
      | none => return (c, p)
      | some target =>
        let c ← c.setAttrs start count .compacting
        return ({ c with moves := c.moves ++ [⟨start, target, count⟩] }, p)) (c, p)
    return c

def noteCompacted (c : Collector) : Checked Collector := do
  let compacted := (c.points.toList.flatMap CompactionPoint.regions) ++ c.serial.regions
  let words ← compacted.mapM c.liveWords
  return { c with compacted := compacted, compactedLive := Word.total words }

def planCompaction (c : Collector) : Checked Collector := do
  let c ← c.sortRegions
  Fault.unless (0 < c.workers) .precondition
  let c ← c.forgetReferences
  let c ← c.run .plan planWorker
  let c ← if c.scope.maximal || !(c.hasFreeTargets || c.freed) then c.planSerially else pure c
  let c ← if c.scope.maximal && !c.humongousStarts.isEmpty then c.planHumongous else pure c
  c.noteCompacted

end RegionHeap.Collector
