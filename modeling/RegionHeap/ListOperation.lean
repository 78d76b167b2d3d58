import RegionHeap.LinkTable

/-!
What a program does with lists of ids, one command after the other. The lists go by names, and it
does not matter how they are kept.
-/
set_option autoImplicit false

namespace RegionHeap

namespace IndexList

inductive Operation where
  | insertFirst (id : Nat)
  | insertLast (id : Nat)
  | insertBefore (place id : Nat)
  | insertAfter (place id : Nat)
  | remove (id : Nat)
  | removeFirst
  | removeLast
  | clear
  | drain (count : Nat)
  deriving DecidableEq, Repr

inductive Command where
  | create (name capacity : Nat)
  | edit (name : Nat) (operation : Operation)
  | append (name other : Nat)
  deriving DecidableEq, Repr

inductive Answer where
  | done
  | found (listed : Bool)
  | taken (ids : List Nat)
  deriving DecidableEq, Repr

/-- A way to keep lists. -/
structure Keeping (α : Type) where
  create : Nat → Checked α
  perform : α → Operation → Checked (Answer × α)
  append : α → α → Checked (α × α)

namespace Keeping

variable {α : Type}

def put (lists : Nat → α) (name : Nat) (list : α) : Nat → α :=
  fun n => if n = name then list else lists n

def step (k : Keeping α) (lists : Nat → α) : Command → Checked (Answer × (Nat → α))
  | .create name capacity => return (.done, put lists name (← k.create capacity))
  | .edit name operation => do
    let (answer, list) ← k.perform (lists name) operation
    return (answer, put lists name list)
  | .append name other => do
    Fault.unless (name ≠ other) .precondition
    let (list, emptied) ← k.append (lists name) (lists other)
    return (.done, put (put lists name list) other emptied)

def run (k : Keeping α) (lists : Nat → α) (commands : List Command) :
    Checked (List Answer × (Nat → α)) :=
  Checked.runAll k.step lists commands

end Keeping

def perform (l : IndexList) : Operation → Checked (Answer × IndexList)
  | .insertFirst id => return (.done, ← l.insertFirst id)
  | .insertLast id => return (.done, ← l.insertLast id)
  | .insertBefore place id => return (.done, ← l.insertBefore place id)
  | .insertAfter place id => return (.done, ← l.insertAfter place id)
  | .remove id => return (.found (l.contains id), l.erase id)
  | .removeFirst => return (.taken l.removeFirst.1.toList, l.removeFirst.2)
  | .removeLast => return (.taken l.removeLast.1.toList, l.removeLast.2)
  | .clear => return (.done, {})
  | .drain count => return (.taken (l.drain count).1, (l.drain count).2)

def keeping : Keeping IndexList where
  create := withCapacity
  perform := perform
  append l other := return (← l.append other, {})

inductive End where
  | front
  | back
  deriving DecidableEq, Repr

def Walk.pull (w : Walk) (l : IndexList) : End → Option Nat × Walk
  | .front => w.pullFront l
  | .back => w.pullBack l

def Walk.pulls (l : IndexList) : List End → Walk → List (Option Nat) × Walk
  | [], w => ([], w)
  | e :: ends, w =>
    let (id, w) := w.pull l e
    let (ids, w) := pulls l ends w
    (id :: ids, w)

/-- The ids that were pulled from one end. -/
def pulledFrom (e : End) : List End → List (Option Nat) → List Nat
  | e' :: ends, id :: ids => (if e' = e then id.toList else []) ++ pulledFrom e ends ids
  | _, _ => []

end IndexList

namespace LinkTable

open IndexList

def perform (t : LinkTable) : Operation → Checked (Answer × LinkTable)
  | .insertFirst id => return (.done, ← t.insertFirst id)
  | .insertLast id => return (.done, ← t.insertLast id)
  | .insertBefore place id => return (.done, ← t.insertBefore place id)
  | .insertAfter place id => return (.done, ← t.insertAfter place id)
  | .remove id => do
    let (listed, t) ← t.remove id
    return (.found listed, t)
  | .removeFirst => do
    let (id, t) ← t.removeFirst
    return (.taken id.toList, t)
  | .removeLast => do
    let (id, t) ← t.removeLast
    return (.taken id.toList, t)
  | .clear => return (.done, ← t.clear)
  | .drain count => do
    let (ids, t) ← t.drain count
    return (.taken ids, t)

def keeping : Keeping LinkTable where
  create := withCapacity
  perform := perform
  append := append

def Walk.pull (w : Walk) (t : LinkTable) : End → Checked (Option Nat × Walk)
  | .front => w.pullFront t
  | .back => w.pullBack t

def Walk.pulls (t : LinkTable) : List End → Walk → Checked (List (Option Nat) × Walk)
  | [], w => .ok ([], w)
  | e :: ends, w => do
    let (id, w) ← w.pull t e
    let (ids, w) ← pulls t ends w
    return (id :: ids, w)

end LinkTable

end RegionHeap
