import RegionHeap.Region.Table

/-!
Objects that span whole regions. The first region starts the object and the others continue it;
what is left of the last one is a filler, or lies above its top if it is too small for one.
-/
set_option autoImplicit false

namespace RegionHeap.RegionTable

/-- Makes the free regions from a first one on those of an object at its bottom. -/
def placeHumongous (t : RegionTable) (first count object words : Nat) : Checked RegionTable := do
  let head ← t.get first
  let last := first + count - 1
  let tail ← t.get last
  Fault.unless (object == head.bottom) .precondition
  let objectTop ← Address.addWords object words
  Fault.unless (objectTop ≤ tail.limit && tail.bottom < objectTop) .precondition
  let gap := (tail.limit - objectTop) / 8
  let fillWords := if Object.minFillWords ≤ gap then gap else 0
  let t ← if fillWords = 0 then pure t else t.fill objectTop fillWords
  let t ← t.update first fun r => r.startHumongous objectTop fillWords
  let later := List.range' (first + 1) (count - 1)
  let t ← later.foldlM (fun t i => do
    let head ← t.get first
    t.update i fun r => r.continueHumongous head) t
  let t ← if 1 < count ∧ 0 < fillWords then
      t.update last fun r => r.recordBlock objectTop (objectTop + 8 * fillWords)
    else pure t
  let t ← (List.range' first (count - 1)).foldlM (fun t i => t.update i fun r => r.setTop r.limit) t
  t.update last fun r => r.setTop (r.limit - 8 * (gap - fillWords))

end RegionHeap.RegionTable
