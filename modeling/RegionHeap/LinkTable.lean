import RegionHeap.IndexList
import RegionHeap.Table

/-!
The links behind a list of ids. They lie in a table beside the things that are listed, one entry
for each id, and the table grows when an id beyond its end comes in.
-/
set_option autoImplicit false

namespace RegionHeap

/-- The word that stands for no id. -/
def nowhere : Nat := Word.limit - 1

structure Link where
  previous : Nat := nowhere
  next : Nat := nowhere
  linked : Bool := false
  deriving DecidableEq, Repr, Inhabited

structure LinkTable where
  links : Array Link := #[]
  head : Nat := nowhere
  tail : Nat := nowhere
  length : Nat := 0
  deriving DecidableEq, Repr, Inhabited

namespace LinkTable

def withCapacity (capacity : Nat) : Checked LinkTable := do
  Fault.unless (capacity ≤ IndexList.maxIds) .listTooLong
  return { links := Array.replicate capacity {} }

def wrap (id : Nat) : Option Nat := if id = nowhere then none else some id

def isEmpty (t : LinkTable) : Bool := t.length == 0

def contains (t : LinkTable) (id : Nat) : Bool := t.links[id]?.any Link.linked

def first? (t : LinkTable) : Option Nat := wrap t.head

def last? (t : LinkTable) : Option Nat := wrap t.tail

def requireListed (t : LinkTable) (id : Nat) : Checked Unit :=
  Fault.unless (t.contains id) (.notListed id)

def next? (t : LinkTable) (id : Nat) : Checked (Option Nat) := do
  t.requireListed id
  return wrap (← Table.get t.links id).next

def previous? (t : LinkTable) (id : Nat) : Checked (Option Nat) := do
  t.requireListed id
  return wrap (← Table.get t.links id).previous

def resize (t : LinkTable) (size : Nat) : Checked LinkTable := do
  Fault.unless (size ≤ IndexList.maxIds) .listTooLong
  return { t with links := t.links ++ Array.replicate (size - t.links.size) {} }

/-- Makes room for an id that is to come in. -/
def ensureSlot (t : LinkTable) (id : Nat) : Checked LinkTable := do
  Fault.unless (id + 1 < Word.limit) .precondition
  let t ← if id < t.links.size then pure t else t.resize (id + 1)
  Fault.unless (!(← Table.get t.links id).linked) (.alreadyListed id)
  return t

/-- Names the id behind another one, or the first of all. -/
def setNext (t : LinkTable) (id next : Nat) : Checked LinkTable :=
  if id = nowhere then
    .ok { t with head := next }
  else do
    let link ← Table.get t.links id
    return { t with links := ← Table.set t.links id { link with next } }

/-- Names the id before another one, or the last of all. -/
def setPrevious (t : LinkTable) (id previous : Nat) : Checked LinkTable :=
  if id = nowhere then
    .ok { t with tail := previous }
  else do
    let link ← Table.get t.links id
    return { t with links := ← Table.set t.links id { link with previous } }

def link (t : LinkTable) (id previous next : Nat) : Checked LinkTable := do
  let t := { t with links := ← Table.set t.links id ⟨previous, next, true⟩ }
  let t ← t.setNext previous id
  let t ← t.setPrevious next id
  return { t with length := ← Word.add t.length 1 }

def insertFirst (t : LinkTable) (id : Nat) : Checked LinkTable := do
  let t ← t.ensureSlot id
  t.link id nowhere t.head

def insertLast (t : LinkTable) (id : Nat) : Checked LinkTable := do
  let t ← t.ensureSlot id
  t.link id t.tail nowhere

def insertBefore (t : LinkTable) (place id : Nat) : Checked LinkTable := do
  t.requireListed place
  let t ← t.ensureSlot id
  t.link id (← Table.get t.links place).previous place

def insertAfter (t : LinkTable) (place id : Nat) : Checked LinkTable := do
  t.requireListed place
  let t ← t.ensureSlot id
  t.link id place (← Table.get t.links place).next

def unlink (t : LinkTable) (id : Nat) : Checked LinkTable := do
  let link ← Table.get t.links id
  let t ← t.setNext link.previous link.next
  let t ← t.setPrevious link.next link.previous
  return { t with
    links := ← Table.set t.links id {}
    length := ← Word.sub t.length 1 }

def remove (t : LinkTable) (id : Nat) : Checked (Bool × LinkTable) := do
  if t.contains id then return (true, ← t.unlink id) else return (false, t)

def removeFirst (t : LinkTable) : Checked (Option Nat × LinkTable) :=
  match t.first? with
  | none => .ok (none, t)
  | some id => do return (some id, (← t.remove id).2)

def removeLast (t : LinkTable) : Checked (Option Nat × LinkTable) :=
  match t.last? with
  | none => .ok (none, t)
  | some id => do return (some id, (← t.remove id).2)

/-- Takes at most so many ids from the front, one by one. -/
def drain (t : LinkTable) : Nat → Checked (List Nat × LinkTable)
  | 0 => .ok ([], t)
  | count + 1 => do
    match ← t.removeFirst with
    | (none, t) => return ([], t)
    | (some id, t) =>
      let (ids, t) ← t.drain count
      return (id :: ids, t)

/-- Every pass takes one id, and the last one finds none. -/
def clear (t : LinkTable) : Checked LinkTable := Prod.snd <$> t.drain (t.length + 1)

def moveFrom (t other : LinkTable) : Nat → Checked (LinkTable × LinkTable)
  | 0 => .ok (t, other)
  | count + 1 => do
    match ← other.removeFirst with
    | (none, other) => return (t, other)
    | (some id, other) => (← t.insertLast id).moveFrom other count

def append (t other : LinkTable) : Checked (LinkTable × LinkTable) :=
  t.moveFrom other (other.length + 1)

/-- A walk of a list from both of its ends. -/
structure Walk where
  front : Nat
  back : Nat
  remaining : Nat
  deriving DecidableEq, Repr

def walk (t : LinkTable) : Walk := ⟨t.head, t.tail, t.length⟩

def Walk.pullFront (w : Walk) (t : LinkTable) : Checked (Option Nat × Walk) :=
  match w.remaining with
  | 0 => .ok (none, w)
  | n + 1 => do
    let link ← Table.get t.links w.front
    return (some w.front, { w with front := link.next, remaining := n })

def Walk.pullBack (w : Walk) (t : LinkTable) : Checked (Option Nat × Walk) :=
  match w.remaining with
  | 0 => .ok (none, w)
  | n + 1 => do
    let link ← Table.get t.links w.back
    return (some w.back, { w with back := link.previous, remaining := n })

end LinkTable

end RegionHeap
