import RegionHeap.Fault

/-!
Merging of two sorted lists. Elements of the first list go before those of the second that they
do not differ from.
-/
set_option autoImplicit false

namespace RegionHeap.Order

/-- The merge works from the end at which the shorter list is used up. For an order both ends give
the same. -/
def merge {α : Type} (before : α → α → Bool) (xs ys : List α) : List α :=
  if xs.length ≤ ys.length then List.merge xs ys fun x y => !before y x
  else (List.merge ys.reverse xs.reverse fun y x => !before y x).reverse

def mergeFront {α : Type} (before : α → α → Bool) : Nat → List α → List α → List α × Nat
  | n + 1, x :: xs, y :: ys =>
    if before y x then
      let (taken, count) := mergeFront before n (x :: xs) ys
      (y :: taken, count)
    else
      let (taken, count) := mergeFront before n xs (y :: ys)
      (x :: taken, count + 1)
  | _, _, _ => ([], 0)

/-- Merges a list with one that is as long or longer by one, half of the elements from the front
and half from the back. Without knowing where the other half ends, the first list is continued by
the second one. The two ends meet if the comparison is an order; if they do not, it is none. -/
def mergeEnds {α : Type} (before : α → α → Bool) (xs ys : List α) : Checked (List α) := do
  let n := xs.length
  let odd := ys.length - n
  let (front, i) := mergeFront before n (xs ++ ys) ys
  let (back, j) := mergeFront (fun x y => before y x) n (xs ++ ys).reverse xs.reverse
  if i < j then
    Fault.unless (i + odd == j) .noOrder
    return front ++ ((xs.drop i).take odd ++ back.reverse)
  Fault.unless (i == j) .noOrder
  return front ++ ((ys.drop (n - i)).take odd ++ back.reverse)

theorem merge_perm {α : Type} (before : α → α → Bool) (xs ys : List α) :
    (merge before xs ys).Perm (xs ++ ys) := by
  unfold merge
  split
  · exact List.merge_perm_append _
  · refine (List.reverse_perm _).trans ((List.merge_perm_append _).trans ?_)
    exact ((List.reverse_perm ys).append (List.reverse_perm xs)).trans List.perm_append_comm

theorem mergeFront_count_le {α : Type} (before : α → α → Bool) (n : Nat) (xs ys : List α) :
    (mergeFront before n xs ys).2 ≤ n := by
  fun_induction mergeFront before n xs ys <;> (simp_all; try omega)

/-- What is taken stands at the front of the two lists. -/
theorem mergeFront_perm {α : Type} (before : α → α → Bool) (n : Nat) (xs ys : List α)
    (hx : n ≤ xs.length) (hy : n ≤ ys.length) :
    (mergeFront before n xs ys).1.Perm (xs.take (mergeFront before n xs ys).2 ++
      ys.take (n - (mergeFront before n xs ys).2)) := by
  induction n generalizing xs ys with
  | zero => simp [mergeFront]
  | succ n ih =>
    match xs, ys, hx, hy with
    | x :: xs, y :: ys, hx, hy =>
      simp only [List.length_cons, Nat.add_le_add_iff_right] at hx hy
      unfold mergeFront
      split
      · have h := ih (x :: xs) ys (by simp; omega) hy
        have hc := mergeFront_count_le before n (x :: xs) ys
        simp only
        rw [show n + 1 - (mergeFront before n (x :: xs) ys).2
          = (n - (mergeFront before n (x :: xs) ys).2) + 1 by omega, List.take_succ_cons]
        exact (h.cons y).trans List.perm_middle.symm
      · have h := ih xs (y :: ys) hx (by simp; omega)
        simp only
        rw [Nat.add_sub_add_right, List.take_succ_cons]
        exact h.cons x

theorem take_append_take_append_drop {α : Type} (xs : List α) (i k : Nat) :
    xs.take i ++ ((xs.drop i).take k ++ xs.drop (i + k)) = xs := by
  rw [← List.drop_drop, List.take_append_drop, List.take_append_drop]

theorem ends_perm {α : Type} (a c m d e : List α) :
    (a ++ c ++ (m ++ (d ++ e))).Perm (a ++ (m ++ e) ++ (c ++ d)) := by
  simp only [List.append_assoc]
  refine List.Perm.append_left a ?_
  refine (List.perm_append_comm_assoc c m (d ++ e)).trans (List.Perm.append_left m ?_)
  rw [← List.append_assoc]
  exact List.perm_append_comm

theorem front_perm {α : Type} {before : α → α → Bool} {xs ys front : List α} {i : Nat}
    (hl : xs.length ≤ ys.length) (h : mergeFront before xs.length (xs ++ ys) ys = (front, i)) :
    front.Perm (xs.take i ++ ys.take (xs.length - i)) := by
  have hcount := mergeFront_count_le before xs.length (xs ++ ys) ys
  have hperm := mergeFront_perm before xs.length (xs ++ ys) ys (by simp) hl
  simp only [h] at hcount hperm
  rwa [List.take_append_of_le_length hcount] at hperm

theorem back_perm {α : Type} {before : α → α → Bool} {xs ys back : List α} {j : Nat}
    (hl : xs.length ≤ ys.length)
    (h : mergeFront before xs.length (xs ++ ys).reverse xs.reverse = (back, j)) :
    back.reverse.Perm (ys.drop (ys.length - j) ++ xs.drop j) := by
  have hcount := mergeFront_count_le before xs.length (xs ++ ys).reverse xs.reverse
  have hperm := mergeFront_perm before xs.length (xs ++ ys).reverse xs.reverse (by simp) (by simp)
  simp only [h] at hcount hperm
  rw [List.reverse_append, List.take_append_of_le_length (by simp; omega), List.take_reverse,
    List.take_reverse, Nat.sub_sub_self hcount] at hperm
  exact (List.reverse_perm _).trans
    (hperm.trans ((List.reverse_perm _).append (List.reverse_perm _)))

theorem mergeEnds_perm {α : Type} {before : α → α → Bool} {xs ys zs : List α}
    (hl : xs.length ≤ ys.length) (hu : ys.length ≤ xs.length + 1)
    (h : mergeEnds before xs ys = .ok zs) : zs.Perm (xs ++ ys) := by
  unfold mergeEnds at h
  rcases hf : mergeFront before xs.length (xs ++ ys) ys with ⟨front, i⟩
  rcases hb : mergeFront (fun x y => before y x) xs.length (xs ++ ys).reverse xs.reverse
    with ⟨back, j⟩
  have hi : i ≤ xs.length := by simpa [hf] using mergeFront_count_le before xs.length (xs ++ ys) ys
  have hends := fun middle : List α =>
    (front_perm hl hf).append ((List.Perm.refl middle).append (back_perm hl hb))
  simp only [hf, hb] at h
  split at h
  · next hlt =>
    -- what neither end has taken is the next element of the first list
    obtain ⟨hok, rfl⟩ := Fault.unless_then_eq_ok.mp h
    rw [beq_iff_eq] at hok
    have hdrop : ys.length - j = xs.length - i := by omega
    rw [hdrop] at hends
    refine (hends _).trans ((ends_perm _ _ _ _ _).trans ?_)
    rw [← hok, take_append_take_append_drop, List.take_append_drop]
  · next hlt =>
    -- it is the next element of the second list, if that is longer
    obtain ⟨hok, rfl⟩ := Fault.unless_then_eq_ok.mp h
    obtain rfl : i = j := by simpa using hok
    have hdrop : ys.length - i = xs.length - i + (ys.length - xs.length) := by omega
    rw [hdrop] at hends
    have hmiddle := take_append_take_append_drop ys (xs.length - i) (ys.length - xs.length)
    have hjoin : xs.take i ++ ys.take (xs.length - i) ++
        ((ys.drop (xs.length - i)).take (ys.length - xs.length) ++
          (ys.drop (xs.length - i + (ys.length - xs.length)) ++ xs.drop i)) =
        xs.take i ++ (ys ++ xs.drop i) := by
      simp only [List.append_assoc]
      simp only [← List.append_assoc _ _ (xs.drop i), hmiddle]
    refine (hends _).trans ?_
    rw [hjoin]
    refine (List.Perm.append_left _ List.perm_append_comm).trans ?_
    rw [← List.append_assoc, List.take_append_drop]

end RegionHeap.Order
