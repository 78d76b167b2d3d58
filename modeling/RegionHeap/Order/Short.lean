import RegionHeap.Order.Insertion
import RegionHeap.Order.Merge

/-!
Sorting of short lists: each half is sorted on its own, its first elements by a fixed scheme of
comparisons and the others by insertion, and the halves are merged from both ends.
-/
set_option autoImplicit false

namespace RegionHeap

structure Sorter (α : Type) where
  before : α → α → Bool
  /-- Whether elements are so small that the fixed scheme is worth it for eight of them, not only
  for four. -/
  small : Bool

namespace Sorter

def shortLength : Nat := 32

def sortTwo {α : Type} (s : Sorter α) (x y : α) : α × α := if s.before y x then (y, x) else (x, y)

/-- Sorts four elements by five comparisons. Two pairs are put in order, then their lesser and
their greater elements are compared, and last the two elements that are neither first nor last. -/
def sortFour {α : Type} (s : Sorter α) : List α → List α
  | [w, x, y, z] =>
    let (a, b) := s.sortTwo w x
    let (c, d) := s.sortTwo y z
    let between (first l r last : α) : List α := [first, (s.sortTwo l r).1, (s.sortTwo l r).2, last]
    match s.before c a, s.before d b with
    | false, false => between a b c d
    | false, true => between a c d b
    | true, false => between c a b d
    | true, true => between c a d b
  | xs => xs

def sortEight {α : Type} (s : Sorter α) (xs : List α) : Checked (List α) :=
  Order.mergeEnds s.before (s.sortFour (xs.take 4)) (s.sortFour (xs.drop 4))

def sortHalf {α : Type} (s : Sorter α) (length : Nat) (xs : List α) : Checked (List α) := do
  if s.small && 16 ≤ length then
    return Order.insertAll s.before (← s.sortEight (xs.take 8)) (xs.drop 8)
  if 8 ≤ length then return Order.insertAll s.before (s.sortFour (xs.take 4)) (xs.drop 4)
  return Order.insertionSort s.before xs

def sortShort {α : Type} (s : Sorter α) (xs : List α) : Checked (List α) := do
  if xs.length < 2 then return xs
  let half := xs.length / 2
  let front ← s.sortHalf xs.length (xs.take half)
  let back ← s.sortHalf xs.length (xs.drop half)
  Order.mergeEnds s.before front back

theorem sortTwo_perm {α : Type} (s : Sorter α) (x y : α) :
    [(s.sortTwo x y).1, (s.sortTwo x y).2].Perm [x, y] := by
  unfold sortTwo
  split
  · exact .swap _ _ _
  · exact .refl _

theorem between_perm {α : Type} (s : Sorter α) (first l r last : α) :
    [first, (s.sortTwo l r).1, (s.sortTwo l r).2, last].Perm [first, l, r, last] :=
  ((s.sortTwo_perm l r).append_right [last]).cons first

theorem sortFour_perm {α : Type} (s : Sorter α) (xs : List α) : (s.sortFour xs).Perm xs := by
  unfold sortFour
  split
  · next w x y z =>
    have h := (s.sortTwo_perm w x).append (s.sortTwo_perm y z)
    generalize s.sortTwo w x = p at h ⊢
    generalize s.sortTwo y z = q at h ⊢
    obtain ⟨a, b⟩ := p
    obtain ⟨c, d⟩ := q
    simp only [List.cons_append, List.nil_append] at h ⊢
    have hbd : [c, d, b].Perm [b, c, d] := @List.perm_append_comm _ [c, d] [b]
    split <;> refine ((s.between_perm _ _ _ _).trans ?_).trans h
    · exact .refl _
    · exact hbd.cons a
    · exact (@List.perm_append_comm _ [c] [a, b]).append_right [d]
    · exact ((@List.perm_append_comm _ [c] [a]).append_right [d, b]).trans (hbd.cons a)
  · exact .refl _

theorem length_sortFour {α : Type} (s : Sorter α) (xs : List α) :
    (s.sortFour xs).length = xs.length := (s.sortFour_perm xs).length_eq

theorem sortEight_perm {α : Type} {s : Sorter α} {xs ys : List α} (hx : xs.length = 8)
    (h : s.sortEight xs = .ok ys) : ys.Perm xs := by
  have hp := Order.mergeEnds_perm (by simp [length_sortFour]; omega)
    (by simp [length_sortFour]; omega) h
  refine hp.trans (((s.sortFour_perm _).append (s.sortFour_perm _)).trans ?_)
  rw [List.take_append_drop]

theorem sortHalf_perm {α : Type} {s : Sorter α} {length : Nat} {xs ys : List α}
    (hx : length / 2 ≤ xs.length) (h : s.sortHalf length xs = .ok ys) : ys.Perm xs := by
  unfold sortHalf at h
  split at h
  · next hc =>
    simp only [Bool.and_eq_true, decide_eq_true_eq] at hc
    cases he : s.sortEight (xs.take 8) with
    | error e => rw [he] at h; cases h
    | ok zs =>
      rw [he] at h
      cases h
      have hp := sortEight_perm (by simp; omega) he
      refine (Order.insertAll_perm _ _ _).trans ((hp.append_right _).trans ?_)
      rw [List.take_append_drop]
  · split at h
    · cases h
      refine (Order.insertAll_perm _ _ _).trans (((s.sortFour_perm _).append_right _).trans ?_)
      rw [List.take_append_drop]
    · cases h
      exact Order.insertionSort_perm _ _

theorem sortShort_perm {α : Type} {s : Sorter α} {xs ys : List α} (h : s.sortShort xs = .ok ys) :
    ys.Perm xs := by
  unfold sortShort at h
  split at h
  · cases h; exact .refl _
  · simp only at h
    cases hf : s.sortHalf xs.length (xs.take (xs.length / 2)) with
    | error e => rw [hf] at h; cases h
    | ok front =>
      cases hb : s.sortHalf xs.length (xs.drop (xs.length / 2)) with
      | error e => rw [hf, hb] at h; cases h
      | ok back =>
        rw [hf, hb] at h
        have pf := sortHalf_perm (by simp; omega) hf
        have pb := sortHalf_perm (by simp; omega) hb
        have lf := pf.length_eq
        have lb := pb.length_eq
        simp only [List.length_take, List.length_drop] at lf lb
        refine (Order.mergeEnds_perm (by omega) (by omega) h).trans ((pf.append pb).trans ?_)
        rw [List.take_append_drop]

end Sorter

end RegionHeap
