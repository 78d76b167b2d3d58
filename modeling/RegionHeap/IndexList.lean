import RegionHeap.Fault
import RegionHeap.Word

/-!
An ordered list of distinct ids, such as region indices, in which an id can be found, inserted
and removed at any place.
-/
set_option autoImplicit false

namespace RegionHeap

structure IndexList where
  ids : List Nat := []
  deriving DecidableEq, Repr, Inhabited

namespace IndexList

/-- A link takes three words, and all links lie in one block of memory. -/
def maxIds : Nat := Word.maxBytes / 24

/-- An empty list with room for the ids below a capacity. -/
def withCapacity (capacity : Nat) : Checked IndexList := do
  Fault.unless (capacity ≤ maxIds) .listTooLong
  return {}

def length (l : IndexList) : Nat := l.ids.length

def isEmpty (l : IndexList) : Bool := l.ids.isEmpty

def contains (l : IndexList) (id : Nat) : Bool := l.ids.contains id

def first? (l : IndexList) : Option Nat := l.ids.head?

def last? (l : IndexList) : Option Nat := l.ids.getLast?

/-- The id behind the first occurrence of another. -/
def successor? (id : Nat) : List Nat → Option Nat
  | [] => none
  | x :: xs => if x = id then xs.head? else successor? id xs

def requireListed (l : IndexList) (id : Nat) : Checked Unit :=
  Fault.unless (l.contains id) (.notListed id)

/-- Only an id that the table of links can hold, and that is not in the list, may come in. -/
def requireNew (l : IndexList) (id : Nat) : Checked Unit := do
  Fault.unless (id + 1 < Word.limit) .precondition
  Fault.unless (id < maxIds) .listTooLong
  Fault.unless (!l.contains id) (.alreadyListed id)

def next? (l : IndexList) (id : Nat) : Checked (Option Nat) := do
  l.requireListed id
  return successor? id l.ids

def previous? (l : IndexList) (id : Nat) : Checked (Option Nat) := do
  l.requireListed id
  return successor? id l.ids.reverse

def insertFirst (l : IndexList) (id : Nat) : Checked IndexList := do
  l.requireNew id
  return ⟨id :: l.ids⟩

def insertLast (l : IndexList) (id : Nat) : Checked IndexList := do
  l.requireNew id
  return ⟨l.ids ++ [id]⟩

def putBefore (place id : Nat) : List Nat → List Nat
  | [] => []
  | x :: xs => if x = place then id :: x :: xs else x :: putBefore place id xs

def putAfter (place id : Nat) : List Nat → List Nat
  | [] => []
  | x :: xs => if x = place then x :: id :: xs else x :: putAfter place id xs

def insertBefore (l : IndexList) (place id : Nat) : Checked IndexList := do
  l.requireListed place
  l.requireNew id
  return ⟨putBefore place id l.ids⟩

def insertAfter (l : IndexList) (place id : Nat) : Checked IndexList := do
  l.requireListed place
  l.requireNew id
  return ⟨putAfter place id l.ids⟩

def erase (l : IndexList) (id : Nat) : IndexList := ⟨l.ids.erase id⟩

def removeFirst (l : IndexList) : Option Nat × IndexList :=
  match l.ids with
  | [] => (none, l)
  | id :: rest => (some id, ⟨rest⟩)

def removeLast (l : IndexList) : Option Nat × IndexList := (l.last?, ⟨l.ids.dropLast⟩)

/-- Takes at most so many ids from the front. -/
def drain (l : IndexList) (count : Nat) : List Nat × IndexList :=
  (l.ids.take count, ⟨l.ids.drop count⟩)

def append (l other : IndexList) : Checked IndexList :=
  other.ids.foldlM (fun l id => l.insertLast id) l

/-- A walk of a list from both of its ends. -/
structure Walk where
  front : Option Nat
  back : Option Nat
  remaining : Nat
  deriving DecidableEq, Repr

def walk (l : IndexList) : Walk := ⟨l.first?, l.last?, l.length⟩

def Walk.pullFront (w : Walk) (l : IndexList) : Option Nat × Walk :=
  match w.remaining with
  | 0 => (none, w)
  | n + 1 => (w.front, { w with front := w.front.bind (successor? · l.ids), remaining := n })

def Walk.pullBack (w : Walk) (l : IndexList) : Option Nat × Walk :=
  match w.remaining with
  | 0 => (none, w)
  | n + 1 => (w.back, { w with back := w.back.bind (successor? · l.ids.reverse), remaining := n })

@[simp] theorem requireListed_eq_ok {l : IndexList} {id : Nat} {u : Unit} :
    l.requireListed id = .ok u ↔ id ∈ l.ids := by
  simp [requireListed, contains]

end IndexList

end RegionHeap
