/-!
Insertion: the elements are taken one by one, each put behind the elements that it does not come
before. It is defined for any comparison, also for one that is no order.
-/
set_option autoImplicit false

namespace RegionHeap.Order

/-- Puts an element into a list that is kept back to front. -/
def insertBack {α : Type} (before : α → α → Bool) (x : α) : List α → List α
  | [] => [x]
  | y :: ys => if before x y then y :: insertBack before x ys else x :: y :: ys

def insertAll {α : Type} (before : α → α → Bool) (sorted xs : List α) : List α :=
  (xs.foldl (fun back x => insertBack before x back) sorted.reverse).reverse

def insertionSort {α : Type} (before : α → α → Bool) (xs : List α) : List α :=
  insertAll before [] xs

theorem insertBack_perm {α : Type} (before : α → α → Bool) (x : α) (ys : List α) :
    (insertBack before x ys).Perm (x :: ys) := by
  induction ys with
  | nil => exact .refl _
  | cons y ys ih =>
    unfold insertBack
    split
    · exact (ih.cons y).trans (.swap x y ys)
    · exact .refl _

theorem foldl_insertBack_perm {α : Type} (before : α → α → Bool) (xs back : List α) :
    (xs.foldl (fun s x => insertBack before x s) back).Perm (back ++ xs) := by
  induction xs generalizing back with
  | nil => simp
  | cons x xs ih =>
    refine (ih _).trans ?_
    have h := (insertBack_perm before x back).append_right xs
    exact h.trans (List.perm_middle.symm)

theorem insertAll_perm {α : Type} (before : α → α → Bool) (sorted xs : List α) :
    (insertAll before sorted xs).Perm (sorted ++ xs) := by
  have h := foldl_insertBack_perm before xs sorted.reverse
  exact (List.reverse_perm _).trans (h.trans ((List.reverse_perm _).append_right xs))

theorem insertionSort_perm {α : Type} (before : α → α → Bool) (xs : List α) :
    (insertionSort before xs).Perm xs := insertAll_perm before [] xs

end RegionHeap.Order
