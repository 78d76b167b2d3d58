import RegionHeap.Candidates.Selection

/-!
What a program does with the candidates, one operation after the other. In between, the regions go
on living, and the policy may change.
-/
set_option autoImplicit false

namespace RegionHeap.Selection

inductive Change where
  | policy (p : Policy)
  /-- A region becomes another one. Its index and what it remembers stay. -/
  | region (i : Nat) (r : Region)
  | record (i slot : Nat)
  | clear (i : Nat)
  | rounds (r : Rounds)

inductive Operation where
  | fromMarking (candidates : List Candidate)
  | retain (region : Nat)
  | sortMarking
  | sortRetained
  | clear
  | abandon (list : Origin)
  | takeFirst (list : Origin) (count : Nat) (spent : Bool)
  | take (list : Origin) (groups : List Nat) (spent : Bool)
  | between (c : Change)

def change (s : Selection) : Change → Checked Selection
  | .policy p => return { s with policy := p }
  | .region i r => do
    let t ← s.table.update i fun old => return { r with index := old.index, remSet := old.remSet }
    return { s with table := t }
  | .record i slot => return { s with table := (← s.table.addReference i slot).2 }
  | .clear i => return { s with table := ← s.table.update i fun r => return r.clear }
  | .rounds r => return { s with table := s.table.withRounds r }

/-- Abandons the groups of one list. Their regions are not forgotten. -/
def abandonGroups (s : Selection) (list : Origin) : Checked Selection := do
  let (l, t) ← (s.candidates.groups list).abandon s.table
  return { s with table := t, candidates := s.candidates.setGroups list l }

def takeOut (s : Selection) (list : Origin) (taken : List Group) (rest : GroupList)
    (spent : Bool) : Checked Selection := do
  let t ← if spent then taken.foldlM (fun t g => return (← g.clear t).2) s.table else pure s.table
  let s := { s with table := t, candidates := s.candidates.setGroups list rest }
  (taken.flatMap Group.regions).foldlM forget s

def perform (s : Selection) : Operation → Checked (List Group × Selection)
  | .fromMarking candidates => return ([], ← s.fromMarking candidates)
  | .retain region => return ([], ← s.retain region)
  | .sortMarking => return ([], ← s.sortMarking)
  | .sortRetained => return ([], ← s.sortRetained)
  | .clear => return ([], ← s.clear)
  | .abandon list => return ([], ← s.abandonGroups list)
  | .takeFirst list count spent => do
    let (taken, rest) ← (s.candidates.groups list).takeFirst count
    return (taken, ← s.takeOut list taken rest spent)
  | .take list groups spent => do
    let (taken, rest) ← (s.candidates.groups list).take groups
    return (taken, ← s.takeOut list taken rest spent)
  | .between c => return ([], ← s.change c)

def performNext (done : List Group × Selection) (op : Operation) :
    Checked (List Group × Selection) := do
  let (taken, s) ← done.2.perform op
  return (done.1 ++ taken, s)

/-- All groups that are taken out on the way, and what is left. -/
def run (s : Selection) (ops : List Operation) : Checked (List Group × Selection) :=
  ops.foldlM performNext ([], s)

end RegionHeap.Selection
