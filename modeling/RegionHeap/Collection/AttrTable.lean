import RegionHeap.Table

set_option autoImplicit false

namespace RegionHeap

structure AttrTable where
  attrs : Array RegionAttr
  deriving DecidableEq, Repr, Inhabited

namespace AttrTable

def create (regions : Nat) : Checked AttrTable := return ⟨← Table.replicate regions .free⟩

def get (t : AttrTable) (region : Nat) : Checked RegionAttr := Table.get t.attrs region

def set (t : AttrTable) (region : Nat) (attr : RegionAttr) : Checked AttrTable :=
  return ⟨← Table.set t.attrs region attr⟩

def keepInPlace (t : AttrTable) (region : Nat) : Checked AttrTable := do
  let attr ← t.get region
  Fault.unless (attr == .compacting) (.notCompacting region attr)
  t.set region .skipCompacting

def allowMoving (t : AttrTable) (region : Nat) : Checked AttrTable := do
  let attr ← t.get region
  Fault.unless (attr == .skipCompacting) (.notSkipped region attr)
  t.set region .compacting

end AttrTable

end RegionHeap
