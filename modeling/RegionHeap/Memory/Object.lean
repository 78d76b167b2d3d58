import RegionHeap.Memory.Basic
import RegionHeap.Fault
import RegionHeap.Word

/-!
The layout of objects. Word 0 of an object is zero or the address it is forwarded to. Word 1 holds
its size in words (32 bits), the number of its reference fields (31 bits) and, in the top bit,
whether it is a filler. The fields follow, then the payload. An object is denoted by its address,
and the null reference by zero.
-/
set_option autoImplicit false

namespace RegionHeap.Object

/-- The words in front of the fields, and so the smallest size of an object. -/
def headerWords : Nat := 2

def minFillWords : Nat := 2

def sizeLimit : Nat := 1 <<< 32

def fieldLimit : Nat := 1 <<< 31

def fillerBit : Nat := 1 <<< 63

def klass (m : Memory) (o : Nat) : Nat := m.read (o + 8)

def size (m : Memory) (o : Nat) : Nat := klass m o % sizeLimit

def limit (m : Memory) (o : Nat) : Nat := o + 8 * size m o

def fieldCount (m : Memory) (o : Nat) : Nat := klass m o / sizeLimit % fieldLimit

def isFiller (m : Memory) (o : Nat) : Bool := (klass m o).testBit 63

def slot (o i : Nat) : Nat := o + 8 * (headerWords + i)

def slots (m : Memory) (o : Nat) : List Nat := (List.range (fieldCount m o)).map (slot o)

def forwardee? (m : Memory) (o : Nat) : Option Nat :=
  let target := m.read o
  if target = 0 then none else some target

def destination (m : Memory) (o : Nat) : Nat := (forwardee? m o).getD o

def forwardTo (m : Memory) (o target : Nat) : Memory := m.write o target

def unforward (m : Memory) (o : Nat) : Memory := m.write o 0

def format (m : Memory) (o words fields : Nat) : Checked Memory := do
  let need ← Word.add headerWords fields
  Fault.unless (need ≤ words) (.fieldsDoNotFit words fields)
  let m := (m.write o 0).write (o + 8) (words ||| (fields <<< 32) % Word.limit)
  return m.zero (o + 16) (words - headerWords)

def fill (m : Memory) (o words : Nat) : Checked Memory := do
  Fault.unless (minFillWords ≤ words) .precondition
  return (m.write o 0).write (o + 8) (words ||| fillerBit)

def field (m : Memory) (o i : Nat) : Checked Nat := do
  Fault.unless (i < fieldCount m o) .precondition
  return m.read (slot o i)

def setField (m : Memory) (o i target : Nat) : Checked Memory := do
  Fault.unless (i < fieldCount m o) .precondition
  return m.write (slot o i) target

def hasPayload (m : Memory) (o : Nat) : Bool := headerWords + fieldCount m o < size m o

/-- The last word of the object, if it lies behind the fields. -/
def payload? (m : Memory) (o : Nat) : Option Nat :=
  if hasPayload m o then some (m.read (o + 8 * (size m o - 1))) else none

/-- The place of the last word of an object. One without a size has none, which is refused. -/
def idSlot (m : Memory) (o : Nat) : Checked Nat := return o + 8 * (← Word.sub (size m o) 1)

def id (m : Memory) (o : Nat) : Checked Nat := return m.read (← idSlot m o)

def setId (m : Memory) (o value : Nat) : Checked Memory := do
  Fault.unless (hasPayload m o) .precondition
  return m.write (← idSlot m o) value

/-- The objects from a place on up to a top, one behind the other. An object without a size ends
the walk. -/
def walkFrom (m : Memory) (top : Nat) : Nat → Nat → List Nat
  | 0, _ => []
  | n + 1, o =>
    if o < top then o :: (if size m o = 0 then [] else walkFrom m top n (limit m o)) else []

def walk (m : Memory) (bottom top : Nat) : List Nat := walkFrom m top (top - bottom) bottom

def walkEnd (m : Memory) (bottom top : Nat) : Nat :=
  ((walk m bottom top).getLast?.map (limit m)).getD bottom

/-- The last of the objects from a place on that starts at or below an address; each object
between has to have a size. -/
def coveringFrom (m : Memory) (a : Nat) : Nat → Nat → Checked Nat
  | 0, o => .ok o
  | n + 1, o => do
    Fault.unless (0 < size m o) (.emptyBlock o)
    if a < limit m o then return o
    coveringFrom m a n (limit m o)

/-- The object of the sequence from a start on that covers an address no lower than the start. -/
def covering (m : Memory) (start a : Nat) : Checked Nat := coveringFrom m a (a - start + 1) start

end RegionHeap.Object
