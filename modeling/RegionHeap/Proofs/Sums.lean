import RegionHeap.Proofs.Checked
import RegionHeap.Word

/-!
Sums over lists, and lists of which one entry changes or that gain one.
-/
set_option autoImplicit false

namespace RegionHeap

theorem Word.total_perm {ms ns : List Nat} (h : ms.Perm ns) : total ms = total ns := by
  induction h with
  | nil => rfl
  | cons _ _ ih => simp only [total, ih]
  | swap => simp only [total]; omega
  | trans _ _ ih₁ ih₂ => rw [ih₁, ih₂]

theorem Word.total_filter {α : Type} {xs : List α} {p : α → Bool} {f g : α → Nat}
    (hp : ∀ x ∈ xs, p x = true → f x = g x) (hn : ∀ x ∈ xs, p x = false → g x = 0) :
    total ((xs.filter p).map f) = total (xs.map g) := by
  induction xs with
  | nil => rfl
  | cons x xs ih =>
    have hi := ih (fun y hy => hp y (by simp [hy])) fun y hy => hn y (by simp [hy])
    cases hx : p x with
    | true =>
      rw [List.filter_cons_of_pos hx, List.map_cons, List.map_cons, total, total, hi,
        hp x (by simp) hx]
    | false =>
      rw [List.filter_cons_of_neg (by simp [hx]), List.map_cons, total, hi, hn x (by simp) hx]
      omega

theorem Word.total_flatMap {α β : Type} (xs : List α) (f : α → List β) (g : β → Nat) :
    total ((xs.flatMap f).map g) = total (xs.map fun x => total ((f x).map g)) := by
  induction xs with
  | nil => rfl
  | cons x xs ih => simp [total, ih]

theorem Word.divCeil_pos {a unit : Nat} (ha : 0 < a) (hu : 0 < unit) : 0 < divCeil a unit := by
  have := le_divCeil_mul a hu
  refine Nat.pos_of_ne_zero fun hz => ?_
  rw [hz] at this
  omega

theorem Word.divCeil_mul_lt {a unit : Nat} (hu : 0 < unit) (h : 0 < divCeil a unit) :
    (divCeil a unit - 1) * unit < a := by
  have hm := Nat.div_add_mod a unit
  unfold divCeil at h ⊢
  split at h
  · next hz =>
    rw [if_pos hz]
    have hmul := Nat.mul_le_mul_right unit h
    rw [Nat.sub_mul, Nat.mul_comm (a / unit)]
    rw [Nat.mul_comm (a / unit)] at hmul
    omega
  · next hz =>
    rw [if_neg hz, Nat.add_sub_cancel, Nat.mul_comm]
    omega

theorem eq_of_ascending {xs ys : List Nat} (hx : xs.Pairwise (· < ·)) (hy : ys.Pairwise (· < ·))
    (h : ∀ z, z ∈ xs ↔ z ∈ ys) : xs = ys :=
  ((List.perm_ext_iff_of_nodup (hx.imp Nat.ne_of_lt) (hy.imp Nat.ne_of_lt)).mpr h).eq_of_pairwise
    (fun _ _ _ _ hlt hlt' => absurd hlt (Nat.lt_asymm hlt')) hx hy

theorem ascending_mergeSort {xs : List Nat} (h : xs.Nodup) :
    (xs.mergeSort (· ≤ ·)).Pairwise (· < ·) := by
  have hs : (xs.mergeSort (· ≤ ·)).Pairwise fun a b => decide (a ≤ b) = true :=
    List.pairwise_mergeSort (fun a b c hab hbc => by simp only [decide_eq_true_eq] at *; omega)
      (fun a b => by simp only [Bool.or_eq_true, decide_eq_true_eq]; omega) xs
  have hn : (xs.mergeSort (· ≤ ·)).Nodup := (List.mergeSort_perm xs _).nodup_iff.mpr h
  refine hs.imp₂ (fun a b hab hne => ?_) hn
  simp only [decide_eq_true_eq] at hab
  omega

theorem filter_perm_cons {α : Type} [DecidableEq α] {p q : α → Bool} {x : α} {xs : List α}
    (hn : xs.Nodup) (hx : x ∈ xs) (hp : p x = false)
    (hq : ∀ y ∈ xs, q y = (decide (y = x) || p y)) :
    (xs.filter q).Perm (x :: xs.filter p) := by
  induction xs with
  | nil => simp at hx
  | cons y ys ih =>
    obtain ⟨hy, hn⟩ := List.nodup_cons.mp hn
    have hqy := hq y (by simp)
    by_cases hxy : y = x
    · subst hxy
      have he : ys.filter q = ys.filter p := by
        apply List.filter_congr
        intro z hz
        have hne : z ≠ y := fun e => hy (e ▸ hz)
        rw [hq z (by simp [hz])]
        simp [hne]
      simp [hqy, hp, he]
    · have hxs : x ∈ ys := by
        rcases List.mem_cons.mp hx with rfl | hx
        · exact absurd rfl hxy
        · exact hx
      have hi := ih hn hxs fun z hz => hq z (by simp [hz])
      have hqp : q y = p y := by simp [hqy, hxy]
      cases hpy : p y with
      | true =>
        rw [List.filter_cons_of_pos (by rw [hqp, hpy]), List.filter_cons_of_pos hpy]
        exact (hi.cons y).trans (List.Perm.swap ..)
      | false =>
        rw [List.filter_cons_of_neg (by simp [hqp, hpy]), List.filter_cons_of_neg (by simp [hpy])]
        exact hi

theorem split_of_getElem? {α : Type} {l : List α} {i : Nat} {x : α} (h : l[i]? = some x) :
    ∃ before after, l = before ++ x :: after ∧ ∀ y, l.set i y = before ++ y :: after := by
  induction l generalizing i with
  | nil => simp at h
  | cons z l ih =>
    cases i with
    | zero =>
      obtain rfl : z = x := by simpa using h
      exact ⟨[], l, rfl, fun _ => rfl⟩
    | succ i =>
      obtain ⟨before, after, hl, hs⟩ := ih (by simpa using h)
      exact ⟨z :: before, after, by rw [hl]; rfl, fun y => by rw [List.set_cons_succ, hs]; rfl⟩

theorem set_of_getElem? {α : Type} {l : List α} {i : Nat} {x : α} (h : l[i]? = some x) :
    l.set i x = l := by
  obtain ⟨before, after, hl, hs⟩ := split_of_getElem? h
  rw [hs, hl]

theorem flatMap_set_of_eq {α β : Type} {l : List α} {i : Nat} {x y : α} {f : α → List β}
    (h : l[i]? = some x) (hf : f y = f x) : (l.set i y).flatMap f = l.flatMap f := by
  obtain ⟨before, after, hl, hs⟩ := split_of_getElem? h
  rw [hs, hl, List.flatMap_append, List.flatMap_append, List.flatMap_cons, List.flatMap_cons, hf]

theorem flatMap_set_perm {α β : Type} {l : List α} {i : Nat} {x y : α} {f : α → List β}
    (gone come : List β) (h : l[i]? = some x) (hf : (f y ++ gone).Perm (f x ++ come)) :
    ((l.set i y).flatMap f ++ gone).Perm (l.flatMap f ++ come) := by
  obtain ⟨before, after, hl, hs⟩ := split_of_getElem? h
  rw [hs, hl, List.flatMap_append, List.flatMap_append, List.flatMap_cons, List.flatMap_cons]
  have hswap : ∀ ys zs : List β, (before.flatMap f ++ (ys ++ after.flatMap f) ++ zs).Perm
      (before.flatMap f ++ (ys ++ zs ++ after.flatMap f)) := fun ys zs => by
    simp only [List.append_assoc]
    exact (List.perm_append_comm.append_left _).append_left _
  exact (hswap _ _).trans (((hf.append_right _).append_left _).trans (hswap _ _).symm)

end RegionHeap
