import RegionHeap.Candidates.Registry

/-!
The check of a registry against a map that it writes itself. The check goes through the groups of
both lists and tags each region that it meets; then it compares its own map with that of the
origins. It is meant for registries in any state: the map of origins and the lists need not agree,
and the map may even hold the tag of a check.
-/
set_option autoImplicit false

namespace RegionHeap

/-- A registry whose map may say anything of the regions. -/
structure TaggedRegistry where
  tags : Array OriginTag
  marking : GroupList
  retained : GroupList
  deriving Repr, Inhabited

def Registry.tagged (c : Registry) : TaggedRegistry :=
  ⟨c.origins.map .origin, c.marking, c.retained⟩

structure ListCheck where
  met : Array OriginTag
  fromMarking : Nat := 0
  deriving Repr, Inhabited

namespace TaggedRegistry

def meet (c : TaggedRegistry) (expected : Origin) (s : ListCheck) (region : Nat) :
    Checked ListCheck := do
  let found ← Table.get c.tags region
  Fault.unless (found == .origin expected) (.groupedAs region found expected)
  let before ← Table.get s.met region
  Fault.unless (before == .origin .invalid) (.inTwoGroups region)
  return {
    met := ← Table.set s.met region .verify
    fromMarking := if found = .origin .marking then s.fromMarking + 1 else s.fromMarking }

def checkList (c : TaggedRegistry) (expected : Origin) (l : GroupList) (met : Array OriginTag) :
    Checked ListCheck :=
  l.groups.foldlM (fun s g => g.regions.foldlM (c.meet expected) s) { met := met }

def compare (c : TaggedRegistry) (met : Array OriginTag) (region : Nat) : Checked Unit := do
  let verified ← Table.get met region
  let found ← Table.get c.tags region
  Fault.unless (found == verified || found != .origin .invalid && verified == .verify)
    (.originDiffers region found verified)

def verify (c : TaggedRegistry) : Checked Unit := do
  let s ← c.checkList .marking c.marking (Array.replicate c.tags.size (.origin .invalid))
  Fault.unless (s.fromMarking == c.marking.regionCount) .precondition
  let s ← c.checkList .retained c.retained s.met
  Fault.unless (s.fromMarking == 0) .precondition
  (List.range s.met.size).forM (c.compare s.met)

end TaggedRegistry

end RegionHeap
