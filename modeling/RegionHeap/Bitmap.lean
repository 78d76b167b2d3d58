import RegionHeap.Memory.Basic

/-!
A set of numbers, one bit each. Only words that hold a member take up room. What a bitmap means is
`Bitmap.get`; every operation below is described by what it does to that.
-/
set_option autoImplicit false

namespace RegionHeap

structure Bitmap where
  /-- Words of 64 bits, by position. -/
  words : Memory
  deriving DecidableEq, Repr, Inhabited

namespace Bitmap

def empty : Bitmap := ⟨.empty⟩

def word (b : Bitmap) (k : Nat) : Nat := b.words.read k

def get (b : Bitmap) (i : Nat) : Bool := (b.word (i / 64)).testBit (i % 64)

def insert (b : Bitmap) (i : Nat) : Bitmap :=
  ⟨b.words.write (i / 64) (b.word (i / 64) ||| 1 <<< (i % 64))⟩

def erase (b : Bitmap) (i : Nat) : Bitmap :=
  let w := b.word (i / 64)
  if w.testBit (i % 64) then ⟨b.words.write (i / 64) (w ^^^ 1 <<< (i % 64))⟩ else b

/-- The least member from a number on, within so many steps, or the limit if there is none below
it. An empty word is passed in one step. -/
def nextIn (b : Bitmap) (limit : Nat) : Nat → Nat → Nat
  | 0, _ => limit
  | n + 1, i =>
    if limit ≤ i then limit
    else
      let w := b.word (i / 64)
      if w = 0 then b.nextIn limit n (64 * (i / 64 + 1))
      else if w.testBit (i % 64) then i
      else b.nextIn limit n (i + 1)

/-- The least member that is no less than the start, or the limit. -/
def next (b : Bitmap) (start limit : Nat) : Nat := b.nextIn limit (limit - start) start

def toList (b : Bitmap) (bound : Nat) : List Nat := (List.range bound).filter b.get

def population (w : Nat) : Nat := if w = 0 then 0 else (List.range 64).countP w.testBit

/-- Adds the members that lie in the words below a position to those already found. -/
def countWords (b : Bitmap) : Nat → Nat → Nat
  | 0, found => found
  | k + 1, found => b.countWords k (found + population (b.word k))

/-- How many members lie in the words below a position. -/
def count (b : Bitmap) (words : Nat) : Nat := b.countWords words 0

theorem testBit_one_shiftLeft (k j : Nat) : (1 <<< k).testBit j = decide (k = j) := by
  rw [Nat.one_shiftLeft, Nat.testBit_two_pow]

@[simp] theorem get_empty (i : Nat) : empty.get i = false := by simp [get, word, empty]

theorem word_write (b : Bitmap) (k v j : Nat) :
    Bitmap.word ⟨b.words.write k v⟩ j = if k = j then v else b.word j := by
  simp [word, Memory.read_write]

theorem get_insert (b : Bitmap) (i j : Nat) :
    (b.insert i).get j = (decide (i = j) || b.get j) := by
  unfold get insert
  rw [word_write]
  by_cases h : i / 64 = j / 64
  · rw [if_pos h, Nat.testBit_or, testBit_one_shiftLeft, Bool.or_comm, h]
    have e : (i % 64 = j % 64) ↔ i = j := by omega
    simp [e]
  · have e : i ≠ j := by intro e; exact h (by rw [e])
    simp [h, e]

theorem get_erase (b : Bitmap) (i j : Nat) :
    (b.erase i).get j = (!decide (i = j) && b.get j) := by
  unfold erase
  by_cases hb : (b.word (i / 64)).testBit (i % 64)
  · simp only [hb, if_true]
    unfold get
    rw [word_write]
    by_cases h : i / 64 = j / 64
    · have e : (i % 64 = j % 64) ↔ i = j := by omega
      rw [if_pos h, Nat.testBit_xor, testBit_one_shiftLeft]
      by_cases hij : i = j
      · subst hij; simp [hb]
      · have : i % 64 ≠ j % 64 := fun h' => hij (e.mp h')
        simp [hij, this, h]
    · have e : i ≠ j := by intro e; exact h (by rw [e])
      simp [h, e]
  · simp only [hb]
    by_cases hij : i = j
    · subst hij; simpa [get] using hb
    · simp [hij]

theorem not_get_of_word_eq_zero {b : Bitmap} {i : Nat} (h : b.word (i / 64) = 0) :
    b.get i = false := by
  simp [get, h]

/-- The least member from a number on, or the limit if there is none below it. -/
structure Leads (b : Bitmap) (limit i r : Nat) : Prop where
  ge : i ≤ r
  le : r ≤ limit
  passes : ∀ j, i ≤ j → j < r → b.get j = false
  found : r < limit → b.get r = true

namespace Leads

variable {b : Bitmap} {limit i k r : Nat}

theorem ended (h : i ≤ limit) (hclear : ∀ j, i ≤ j → j < limit → b.get j = false) :
    b.Leads limit i limit :=
  ⟨h, Nat.le_refl _, hclear, fun hlt => absurd hlt (Nat.lt_irrefl _)⟩

theorem here (h : i ≤ limit) (hb : b.get i = true) : b.Leads limit i i :=
  ⟨Nat.le_refl _, h, fun _ hle hlt => absurd hlt (Nat.not_lt.mpr hle), fun _ => hb⟩

theorem behind (s : b.Leads limit k r) (hik : i ≤ k)
    (hclear : ∀ j, i ≤ j → j < k → b.get j = false) : b.Leads limit i r where
  ge := Nat.le_trans hik s.ge
  le := s.le
  passes := fun j hij hjr => by
    by_cases hjk : j < k
    · exact hclear j hij hjk
    · exact s.passes j (Nat.le_of_not_lt hjk) hjr
  found := s.found

end Leads

/-- With enough steps the search stops at the limit or at a member, and passes none. -/
theorem nextIn_leads {b : Bitmap} {limit n i : Nat} (hi : i ≤ limit) (hn : limit - i ≤ n) :
    b.Leads limit i (b.nextIn limit n i) := by
  induction n generalizing i with
  | zero =>
    obtain rfl : i = limit := by omega
    exact .ended hi fun j hle hlt => absurd hlt (Nat.not_lt.mpr hle)
  | succ n ih =>
    unfold nextIn
    split
    · obtain rfl : i = limit := by omega
      exact .ended hi fun j hle hlt => absurd hlt (Nat.not_lt.mpr hle)
    · simp only
      split
      · next hw =>
        -- an empty word has no members
        have hclear : ∀ j, i ≤ j → j < 64 * (i / 64 + 1) → b.get j = false := fun j h h' => by
          apply not_get_of_word_eq_zero
          rwa [show j / 64 = i / 64 by omega]
        by_cases hl : 64 * (i / 64 + 1) ≤ limit
        · exact (ih hl (by omega)).behind (by omega) hclear
        · have hend : b.nextIn limit n (64 * (i / 64 + 1)) = limit := by
            cases n with
            | zero => rfl
            | succ n => unfold nextIn; rw [if_pos (by omega)]
          rw [hend]
          exact .ended hi fun j h h' => hclear j h (by omega)
      · split
        · next hb => exact .here hi hb
        · next hb =>
          refine (ih (by omega) (by omega)).behind (Nat.le_succ i) fun j h h' => ?_
          obtain rfl : i = j := by omega
          simpa [get] using hb

theorem next_leads (b : Bitmap) {start limit : Nat} (h : start ≤ limit) :
    b.Leads limit start (b.next start limit) :=
  nextIn_leads h (Nat.le_refl _)

theorem le_next (b : Bitmap) {start limit : Nat} (h : start ≤ limit) :
    start ≤ b.next start limit :=
  (b.next_leads h).ge

theorem next_le (b : Bitmap) {start limit : Nat} (h : start ≤ limit) :
    b.next start limit ≤ limit :=
  (b.next_leads h).le

theorem not_get_of_lt_next {b : Bitmap} {start limit j : Nat} (h : start ≤ limit) (hs : start ≤ j)
    (hj : j < b.next start limit) : b.get j = false :=
  (b.next_leads h).passes j hs hj

theorem get_next {b : Bitmap} {start limit : Nat} (h : start ≤ limit)
    (hl : b.next start limit < limit) : b.get (b.next start limit) = true :=
  (b.next_leads h).found hl

theorem population_eq (w : Nat) : population w = (List.range 64).countP w.testBit := by
  unfold population
  split
  · next h => subst h; decide
  · rfl

theorem length_toList_word (b : Bitmap) (k : Nat) :
    (b.toList (64 * (k + 1))).length = (b.toList (64 * k)).length + population (b.word k) := by
  have split : List.range (64 * (k + 1)) =
      List.range (64 * k) ++ (List.range 64).map (64 * k + ·) := by
    rw [Nat.mul_succ, List.range_add]
  unfold toList
  rw [split, List.filter_append, List.length_append, ← List.countP_eq_length_filter (l := _),
    ← List.countP_eq_length_filter, List.countP_map, population_eq]
  congr 1
  apply List.countP_congr
  intro j hj
  have := List.mem_range.mp hj
  simp only [Function.comp_apply, get]
  rw [show (64 * k + j) / 64 = k by omega, show (64 * k + j) % 64 = j by omega]

theorem countWords_eq (b : Bitmap) (k found : Nat) :
    b.countWords k found = found + (b.toList (64 * k)).length := by
  induction k generalizing found with
  | zero => simp [countWords, toList]
  | succ k ih => rw [countWords, ih, length_toList_word]; omega

theorem count_eq (b : Bitmap) (words : Nat) : b.count words = (b.toList (64 * words)).length := by
  simp [count, countWords_eq]

end Bitmap

end RegionHeap
