import RegionHeap.Word

set_option autoImplicit false

namespace RegionHeap.Table

/-- A table of so many equal entries, each of which takes a byte. -/
def replicate {α : Type} (count : Nat) (x : α) : Checked (Array α) := do
  Fault.unless (count ≤ Word.maxBytes) .listTooLong
  return Array.replicate count x

def get {α : Type} (xs : Array α) (i : Nat) : Checked α :=
  match xs[i]? with
  | some x => .ok x
  | none => .error .outOfBounds

def set {α : Type} (xs : Array α) (i : Nat) (x : α) : Checked (Array α) :=
  if i < xs.size then .ok (xs.set! i x) else .error .outOfBounds

def slice {α : Type} (xs : List α) (start stop : Nat) : Checked (List α) :=
  if start ≤ stop ∧ stop ≤ xs.length then .ok ((xs.take stop).drop start)
  else .error .outOfBounds

theorem get_eq_ok {α : Type} {xs : Array α} {i : Nat} {x : α} :
    get xs i = .ok x ↔ xs[i]? = some x := by
  unfold get; split <;> simp_all

end RegionHeap.Table
