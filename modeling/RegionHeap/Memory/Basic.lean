import Std.Data.ExtTreeMap

/-!
Memory in words. A word that was never written reads as zero, and only other words are kept, so
two memories are equal as soon as all their words are.
-/
set_option autoImplicit false

namespace RegionHeap

structure Memory where
  words : Std.ExtTreeMap Nat Nat
  nonzero : ∀ a : Nat, words[a]? ≠ some 0
  deriving DecidableEq, Repr

namespace Memory

def empty : Memory := ⟨∅, by simp⟩

instance : Inhabited Memory := ⟨empty⟩

def read (m : Memory) (a : Nat) : Nat := (m.words[a]?).getD 0

def write (m : Memory) (a v : Nat) : Memory :=
  if h : v = 0 then
    ⟨m.words.erase a, fun b => by
      rw [Std.ExtTreeMap.getElem?_erase]
      split
      · simp
      · exact m.nonzero b⟩
  else
    ⟨m.words.insert a v, fun b => by
      rw [Std.ExtTreeMap.getElem?_insert]
      split
      · simpa using h
      · exact m.nonzero b⟩

def writeAll (m : Memory) (a : Nat) : List Nat → Memory
  | [] => m
  | v :: vs => (m.write a v).writeAll (a + 8) vs

def readAll (m : Memory) (a count : Nat) : List Nat :=
  (List.range count).map fun i => m.read (a + 8 * i)

def zero (m : Memory) (a count : Nat) : Memory := m.writeAll a (List.replicate count 0)

/-- Moves words to another place, which may overlap their own. -/
def move (m : Memory) (source target count : Nat) : Memory :=
  m.writeAll target (m.readAll source count)

@[simp] theorem read_empty (a : Nat) : empty.read a = 0 := by simp [read, empty]

theorem read_write (m : Memory) (a v b : Nat) :
    (m.write a v).read b = if a = b then v else m.read b := by
  unfold write
  split <;> simp only [read, Std.ExtTreeMap.getElem?_erase, Std.ExtTreeMap.getElem?_insert,
    Nat.compare_eq_eq] <;> split <;> simp_all

@[simp] theorem read_write_self (m : Memory) (a v : Nat) : (m.write a v).read a = v := by
  simp [read_write]

theorem read_write_of_ne (m : Memory) (v : Nat) {a b : Nat} (h : a ≠ b) :
    (m.write a v).read b = m.read b := by
  simp [read_write, h]

theorem ext {m n : Memory} (h : ∀ a, m.read a = n.read a) : m = n := by
  obtain ⟨s, hs⟩ := m
  obtain ⟨t, ht⟩ := n
  have e : s = t := by
    apply Std.ExtTreeMap.ext_getElem?
    intro a
    have h := h a
    have hs := hs a
    have ht := ht a
    simp only [read] at h
    cases h1 : s[a]? <;> cases h2 : t[a]? <;> simp_all
  subst e
  rfl

theorem read_writeAll_of_lt (m : Memory) {a b : Nat} (vs : List Nat) (h : b < a) :
    (m.writeAll a vs).read b = m.read b := by
  induction vs generalizing m a with
  | nil => rfl
  | cons v vs ih =>
    rw [writeAll, ih _ (by omega), read_write_of_ne _ _ (by omega)]

theorem read_writeAll_of_ge (m : Memory) {a b : Nat} (vs : List Nat)
    (h : a + 8 * vs.length ≤ b) : (m.writeAll a vs).read b = m.read b := by
  induction vs generalizing m a with
  | nil => rfl
  | cons v vs ih =>
    simp only [List.length_cons] at h
    rw [writeAll, ih _ (by omega), read_write_of_ne _ _ (by omega)]

theorem read_writeAll (m : Memory) {a i : Nat} {vs : List Nat} (h : i < vs.length) :
    (m.writeAll a vs).read (a + 8 * i) = vs[i] := by
  induction vs generalizing m a i with
  | nil => simp at h
  | cons v vs ih =>
    cases i with
    | zero => rw [writeAll, read_writeAll_of_lt _ _ (by omega)]; simp
    | succ i =>
      rw [writeAll, show a + 8 * (i + 1) = a + 8 + 8 * i by omega, ih]
      · simp
      · simpa using h

@[simp] theorem length_readAll (m : Memory) (a count : Nat) :
    (m.readAll a count).length = count := by
  simp [readAll]

/-- What lies at the target after a move is what lay at the source before it. -/
theorem read_move (m : Memory) (source target : Nat) {i count : Nat} (h : i < count) :
    (m.move source target count).read (target + 8 * i) = m.read (source + 8 * i) := by
  unfold move
  rw [read_writeAll _ (by simpa using h)]
  simp [readAll]

theorem read_move_of_outside (m : Memory) (source : Nat) {target count b : Nat}
    (h : b < target ∨ target + 8 * count ≤ b) :
    (m.move source target count).read b = m.read b := by
  unfold move
  rcases h with h | h
  · exact read_writeAll_of_lt _ _ h
  · exact read_writeAll_of_ge _ _ (by simpa using h)

end Memory

end RegionHeap
