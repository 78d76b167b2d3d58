import RegionHeap.Word

set_option autoImplicit false

namespace RegionHeap.Address

/-- The distance in bytes from the second address up to the first. -/
def distance (a b : Nat) : Checked Nat :=
  if b ≤ a then .ok (a - b) else .error (.addressOrder a b)

/-- The bits of the word count that do not fit behind the shift are lost. -/
def addWords (a : Nat) (words : Nat) : Checked Nat :=
  Word.add a ((words <<< logBytesInWord) % Word.limit)

def wordsFrom (a b : Nat) : Checked Nat :=
  if b ≤ a then .ok ((a - b) >>> logBytesInWord) else .error .precondition

def alignUp (a : Nat) (align : Nat) : Checked Nat := do
  Fault.unless (Word.isPowerOfTwo align) .precondition
  let past ← Word.add a align
  return (past - 1) &&& Word.complement (align - 1)

def alignDown (a : Nat) (align : Nat) : Checked Nat := do
  Fault.unless (Word.isPowerOfTwo align) .precondition
  return a &&& Word.complement (align - 1)

def isAlignedTo (a : Nat) (align : Nat) : Checked Bool := do
  let mask ← Word.sub align 1
  return a &&& mask == 0

def isWordAligned (a : Nat) : Bool := a % bytesInWord == 0

def isZero (a : Nat) : Bool := a == 0

@[simp] theorem distance_eq_ok {a b n : Nat} : distance a b = .ok n ↔ b ≤ a ∧ a - b = n := by
  unfold distance; split <;> simp <;> omega

theorem wordsFrom_eq_ok {a b n : Nat} : wordsFrom a b = .ok n ↔ b ≤ a ∧ (a - b) / 8 = n := by
  unfold wordsFrom; split <;> simp [logBytesInWord, Nat.shiftRight_eq_div_pow] <;> omega

/-- No bit is lost as long as the words themselves fit in the address space. -/
theorem addWords_of_lt {a words : Nat} (h : words * 8 < Word.limit) :
    addWords a words = Word.add a (words * 8) := by
  simp [addWords, logBytesInWord, Nat.shiftLeft_eq, Nat.mod_eq_of_lt h]

theorem addWords_of {a words : Nat} (h : a + 8 * words < Word.limit) :
    addWords a words = .ok (a + 8 * words) := by
  rw [addWords_of_lt (by omega), Word.add_eq_ok]
  omega

end RegionHeap.Address
