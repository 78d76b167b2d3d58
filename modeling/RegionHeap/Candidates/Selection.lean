import RegionHeap.Candidates.Registry

/-!
Selecting candidates. Regions that a marking found worth collecting are grouped by efficiency,
and regions whose evacuation failed are retained; both are kept sorted by what a policy predicts.
-/
set_option autoImplicit false

namespace RegionHeap

structure Selection where
  table : RegionTable
  candidates : Registry := {}
  policy : Policy

namespace Selection

def candidate (s : Selection) (region : Nat) (efficiency : Option Float) : Checked Candidate := do
  match efficiency with
  | some e => return { region := region, efficiency := e }
  | none => return { region := region, efficiency := ← s.table.efficiency region s.policy }

/-- A region of a marking joins the group that is being built; a full group goes to the list. -/
structure Building where
  registry : Registry
  table : RegionTable
  group : Group
  size : Nat

def Building.add (b : Building) (c : Candidate) : Checked Building := do
  let r ← b.table.get c.region
  Fault.unless (!(← b.registry.contains r.index)) (.alreadyCandidate c.region)
  let registry ← b.registry.setOrigin c.region .marking
  let b ← if b.group.length = b.size then do
      let (group, table) := Group.create b.table
      let marking ← registry.marking.append b.group
      pure ({ registry with marking := marking }, table, group, Group.regularSize)
    else pure (registry, b.table, b.group, b.size)
  let (registry, table, group, size) := b
  let (group, table) ← group.add table c.region c
  return ⟨registry, table, group, size⟩

/-- Groups the regions that a marking selected, which are sorted by efficiency. The first group
takes as many as the next mixed collection has to. -/
def fromMarking (s : Selection) (cs : List Candidate) : Checked Selection := do
  if cs.isEmpty then return s
  Fault.unless s.candidates.marking.isEmpty .cycleNotFinished
  s.candidates.verify
  let (group, t) := Group.create s.table
  let b ← cs.foldlM Building.add
    ⟨s.candidates, t, group, max (s.policy.minOldRegions cs.length) 1⟩
  let marking ← b.registry.marking.append b.group
  Fault.unless (marking.regionCount == cs.length) .precondition
  let registry := { b.registry with marking := marking, lastMarking := cs.length }
  registry.verify
  return { s with table := b.table, candidates := registry }

def retain (s : Selection) (region : Nat) : Checked Selection := do
  let r ← s.table.get region
  Fault.unless (!(← s.candidates.contains r.index)) (.alreadyCandidate r.index)
  let registry ← s.candidates.setOrigin r.index .retained
  let (group, t) := Group.create s.table
  let (group, t) ← group.addRegion t s.policy region
  let registry := { registry with retained := ← registry.retained.append group }
  return { s with table := t, candidates := registry }

def sortMarking (s : Selection) : Checked Selection := do
  let marking ← (← s.candidates.marking.withEfficiencies s.table s.policy).sort
  marking.verify
  return { s with candidates := { s.candidates with marking := marking } }

def sortRetained (s : Selection) : Checked Selection := do
  s.candidates.marking.verify
  let retained ← (← s.candidates.retained.withEfficiencies s.table s.policy).sort
  retained.verify
  return { s with candidates := { s.candidates with retained := retained } }

def forget (s : Selection) (region : Nat) : Checked Selection := do
  Fault.unless (← s.candidates.contains region) (.notCandidate region)
  return { s with candidates := ← s.candidates.setOrigin region .invalid }

def clear (s : Selection) : Checked Selection := do
  let (retained, t) ← s.candidates.retained.abandon s.table
  let (marking, t) ← s.candidates.marking.abandon t
  let registry := ⟨s.candidates.origins.map fun _ => .invalid, marking, retained, 0⟩
  return { s with table := t, candidates := registry }

end Selection

end RegionHeap
