import RegionHeap.Order.Runs

/-!
The sort itself. Short lists are sorted by insertion. Longer ones are sorted by their runs, and
what is in no order at all is divided around pivots.
-/
set_option autoImplicit false

namespace RegionHeap.Sorter

def median (less : Nat → Nat → Bool) (a b c : Nat) : Nat :=
  if less a b == less a c then if less b c == less a b then b else c else a

def pseudoMedian (less : Nat → Nat → Bool) (n a b c : Nat) : Nat :=
  if 8 ≤ n then
    let part (x : Nat) := pseudoMedian less (n / 8) x (x + n / 8 * 4) (x + n / 8 * 7)
    median less (part a) (part b) (part c)
  else median less a b c
termination_by n

def pivot {α : Type} (s : Sorter α) (xs : List α) : Nat :=
  let elements := xs.toArray
  let less (i j : Nat) : Bool := match elements[i]?, elements[j]? with
    | some x, some y => s.before x y
    | _, _ => false
  let n := xs.length / 8
  pseudoMedian less n 0 (n * 4) (n * 7)

/-- The elements that go to the left and those that go to the right, in their order. The pivot is
not compared with itself. -/
def divide {α : Type} (left : α → Bool) (pivotLeft : Bool) (front : List α) (pivot : α)
    (back : List α) : List α × List α :=
  let (a, b) := front.partition left
  let (c, d) := back.partition left
  if pivotLeft then (a ++ pivot :: c, b ++ d) else (a ++ c, b ++ pivot :: d)

/-- Divides a list around pivots, up to a number of times in each part, and then sorts it by runs.
If no element is before the pivot, or the pivot is not behind the one that everything in the list
is known not to be before, those elements are set aside that the pivot is not before. -/
def divideAndSort {α : Type} (s : Sorter α) : Nat → Option α → List α → Checked (List α)
  | limit, least, xs =>
    if xs.length ≤ shortLength then s.sortShort xs
    else match limit with
      | 0 => s.sortRuns true .ok xs
      | limit + 1 =>
        let position := s.pivot xs
        match xs.drop position with
        | [] => .ok xs
        | pivot :: back => do
          let front := xs.take position
          let (low, high) := divide (s.before · pivot) false front pivot back
          if low.isEmpty || least.any (!s.before · pivot) then
            let (same, high) := divide (!s.before pivot ·) true front pivot back
            return same ++ (← s.divideAndSort limit none high)
          return (← s.divideAndSort limit least low) ++
            (← s.divideAndSort limit (some pivot) high)

def sortLong {α : Type} (s : Sorter α) (xs : List α) : Checked (List α) :=
  s.divideAndSort (2 * Nat.log2 xs.length) none xs

/-- A stable sort. If the comparison is no order, the result is some arrangement of the elements or
a fault. -/
def sort {α : Type} (s : Sorter α) (xs : List α) : Checked (List α) :=
  if xs.length ≤ 20 then .ok (Order.insertionSort s.before xs)
  else s.sortRuns (xs.length ≤ 2 * shortLength) s.sortLong xs

theorem exchange_perm {α : Type} (a b c d : List α) :
    (a ++ c ++ (b ++ d)).Perm (a ++ b ++ (c ++ d)) := by
  simp only [List.append_assoc]
  exact (List.perm_append_comm_assoc c b d).append_left a

theorem partition_perm {α : Type} (left : α → Bool) (xs : List α) :
    ((xs.partition left).1 ++ (xs.partition left).2).Perm xs := by
  rw [List.partition_eq_filter_filter]
  exact List.filter_append_perm left xs

theorem divide_perm {α : Type} (left : α → Bool) (pivotLeft : Bool) (front : List α) (pivot : α)
    (back : List α) :
    ((divide left pivotLeft front pivot back).1 ++ (divide left pivotLeft front pivot back).2).Perm
      (front ++ pivot :: back) := by
  have hf := partition_perm left front
  have hb := partition_perm left back
  unfold divide
  simp only
  split
  · exact (exchange_perm _ _ _ _).trans (hf.append (hb.cons pivot))
  · exact (exchange_perm _ _ _ _).trans (hf.append (List.perm_middle.trans (hb.cons pivot)))

theorem divideAndSort_perm {α : Type} (s : Sorter α) (limit : Nat) (least : Option α) :
    Run.Permutes (s.divideAndSort limit least) := by
  induction limit generalizing least with
  | zero =>
    intro xs ys h
    unfold divideAndSort at h
    split at h
    · exact sortShort_perm h
    · exact sortRuns_perm (fun xs ys h => by cases h; exact .refl _) _ _ h
  | succ limit ih =>
    intro xs ys h
    unfold divideAndSort at h
    split at h
    · exact sortShort_perm h
    · simp only at h
      split at h
      · cases h; exact .refl _
      · next pivot back hd =>
        have hx : xs.take (s.pivot xs) ++ pivot :: back = xs := by
          rw [← hd, List.take_append_drop]
        simp only [bind, Except.bind] at h
        split at h
        · split at h
          · cases h
          · next high hh =>
            cases h
            exact ((ih _ _ _ hh).append_left _).trans
              ((divide_perm _ _ _ _ _).trans (.of_eq hx))
        · split at h
          · cases h
          · next low hl =>
            split at h
            · cases h
            · next high hh =>
              cases h
              exact ((ih _ _ _ hl).append (ih _ _ _ hh)).trans
                ((divide_perm _ _ _ _ _).trans (.of_eq hx))

theorem sort_perm {α : Type} {s : Sorter α} {xs ys : List α} (h : s.sort xs = .ok ys) :
    ys.Perm xs := by
  unfold sort at h
  split at h
  · cases h; exact Order.insertionSort_perm _ _
  · exact sortRuns_perm (fun xs ys h => s.divideAndSort_perm _ none xs ys h) _ _ h

end RegionHeap.Sorter
