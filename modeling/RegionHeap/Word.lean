import RegionHeap.Fault

/-!
Arithmetic on unsigned 64-bit words, kept as natural numbers below `Word.limit`. An operation
whose result is no word is refused, and never wraps, unless its name says so.
-/
set_option autoImplicit false

namespace RegionHeap.Word

def limit : Nat := 1 <<< 64

/-- The largest size of one block of memory. -/
def maxBytes : Nat := 1 <<< 63 - 1

def add (a b : Nat) : Checked Nat := if a + b < limit then .ok (a + b) else .error .overflow

def sub (a b : Nat) : Checked Nat := if b ≤ a then .ok (a - b) else .error .overflow

def mul (a b : Nat) : Checked Nat := if a * b < limit then .ok (a * b) else .error .overflow

/-- Bits that are shifted out are lost; only the distance is checked. -/
def shiftLeft (a k : Nat) : Checked Nat :=
  if k < 64 then .ok ((a <<< k) % limit) else .error .overflow

def shiftRight (a k : Nat) : Checked Nat := if k < 64 then .ok (a >>> k) else .error .overflow

def addSaturating (a b : Nat) : Nat := min (a + b) (limit - 1)

def mulSaturating (a b : Nat) : Nat := min (a * b) (limit - 1)

def addWrapping (a b : Nat) : Nat := (a + b) % limit

def subWrapping (a b : Nat) : Nat := (a + limit - b) % limit

def complement (a : Nat) : Nat := limit - 1 - a

def isPowerOfTwo (a : Nat) : Bool := a != 0 && a &&& (a - 1) == 0

/-- Rounds up to a multiple of a power of two. For other alignments, and for values too close to
the end of the words, this is what the masks give. -/
def roundUp (a align : Nat) : Nat :=
  subWrapping (addWrapping a align) 1 &&& complement (subWrapping align 1)

/-- The least number of units that hold a, counted without an intermediate sum. -/
def divCeil (a unit : Nat) : Nat := if a % unit = 0 then a / unit else a / unit + 1

/-- How many bits lie below the lowest one that is set. There are 64 below none. -/
def trailingZeros (a : Nat) : Nat := ((List.range 64).find? a.testBit).getD 64

def total : List Nat → Nat
  | [] => 0
  | n :: ns => n + total ns

@[simp] theorem total_append (ms ns : List Nat) : total (ms ++ ns) = total ms + total ns := by
  induction ms with
  | nil => simp [total]
  | cons m ms ih => simp [total, ih, Nat.add_assoc]

@[simp] theorem add_eq_ok {a b c : Nat} : add a b = .ok c ↔ a + b < limit ∧ a + b = c := by
  unfold add; split <;> simp <;> omega

@[simp] theorem sub_eq_ok {a b c : Nat} : sub a b = .ok c ↔ b ≤ a ∧ a - b = c := by
  unfold sub; split <;> simp <;> omega

@[simp] theorem mul_eq_ok {a b c : Nat} : mul a b = .ok c ↔ a * b < limit ∧ a * b = c := by
  unfold mul
  split
  · simp [*]
  · simp only [reduceCtorEq, false_iff, not_and]
    intro h
    contradiction

theorem le_divCeil_mul (a : Nat) {unit : Nat} (h : 0 < unit) : a ≤ divCeil a unit * unit := by
  unfold divCeil
  have := Nat.div_add_mod a unit
  split
  · rw [Nat.mul_comm]; omega
  · have := Nat.mod_lt a h
    rw [Nat.add_mul, Nat.mul_comm]; omega

end RegionHeap.Word
