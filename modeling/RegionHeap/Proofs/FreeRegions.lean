import RegionHeap.Heap.Basic
import RegionHeap.Proofs.Checked

/-!
The free list. It holds the indices of the free regions in ascending order, and goes on doing so
when regions are taken from it or come back.
-/
set_option autoImplicit false

namespace RegionHeap

namespace IndexList

variable {n i k first : Nat} {p : Nat → Bool}

theorem erase_filter (n i : Nat) (p : Nat → Bool) :
    (⟨(List.range n).filter p⟩ : IndexList).erase i =
      ⟨(List.range n).filter fun j => p j && !decide (j = i)⟩ := by
  rw [erase, List.Nodup.erase_eq_filter (List.nodup_range.filter p), List.filter_filter]
  congr 2
  funext j
  by_cases h : j = i <;> simp [h]

theorem eraseRange_filter (n first k : Nat) (p : Nat → Bool) :
    (List.range' first k).foldl erase ⟨(List.range n).filter p⟩ =
      ⟨(List.range n).filter fun j => p j && !decide (first ≤ j ∧ j < first + k)⟩ := by
  induction k generalizing first p with
  | zero =>
    simp only [List.range'_zero, List.foldl_nil]
    congr 2
    funext j
    rw [decide_eq_false (by omega)]
    simp
  | succ k ih =>
    rw [List.range'_succ, List.foldl_cons, erase_filter, ih]
    congr 2
    funext j
    rw [Bool.and_assoc, ← Bool.not_or, ← Bool.decide_or]
    congr 3
    exact propext (by omega)

theorem putBefore_append {before after : List Nat} {place : Nat} (h : place ∉ before) (id : Nat) :
    putBefore place id (before ++ place :: after) = before ++ id :: place :: after := by
  induction before with
  | nil => simp [putBefore]
  | cons x before ih =>
    rw [List.mem_cons, not_or] at h
    rw [List.cons_append, putBefore, if_neg (Ne.symm h.1), ih h.2]
    rfl

theorem filter_range_split (h : i < n) (p : Nat → Bool) :
    (List.range n).filter p = (List.range i).filter p ++ ((if p i then [i] else []) ++
      (List.range' (i + 1) (n - (i + 1))).filter p) := by
  obtain ⟨k, rfl⟩ := Nat.exists_eq_add_of_lt h
  rw [show i + k + 1 - (i + 1) = k by omega, List.range_eq_range', List.range_eq_range',
    show i + k + 1 = i + (k + 1) by omega, ← List.range'_append_1, List.filter_append,
    Nat.zero_add, List.range'_succ, List.filter_cons]
  split <;> rfl

theorem requireNew_of {l : IndexList} (hs : 512 * n < Word.limit) (hi : i < n) (h : i ∉ l.ids) :
    l.requireNew i = .ok () := by
  have hsucc : decide (i + 1 < Word.limit) = true := decide_eq_true (by omega)
  have hmax : decide (i < maxIds) = true := by
    rw [decide_eq_true_iff]
    simp only [maxIds, Word.maxBytes, Word.limit] at hs ⊢
    omega
  rw [requireNew, Checked.unless_of hsucc, Checked.ok_bind, Checked.unless_of hmax, Checked.ok_bind,
    Checked.unless_of (by simpa [contains] using h)]

theorem insertLast_of {l : IndexList} (hs : 512 * n < Word.limit) (hi : i < n) (h : i ∉ l.ids) :
    l.insertLast i = .ok ⟨l.ids ++ [i]⟩ :=
  Checked.bind_of (requireNew_of hs hi h) _

end IndexList

namespace Heap

variable {n i : Nat} {p : Nat → Bool}

theorem insertFree_between {h : Heap} {before after : List Nat}
    (hl : h.freeList.ids = before ++ after) (hs : 512 * n < Word.limit) (hi : i < n)
    (hlow : ∀ j ∈ before, j < i) (hhigh : ∀ j ∈ after, i < j) :
    h.insertFree i = .ok { h with freeList := ⟨before ++ i :: after⟩ } := by
  have hnew : i ∉ h.freeList.ids := by
    rw [hl, List.mem_append]
    rintro (hj | hj)
    · exact Nat.lt_irrefl i (hlow i hj)
    · exact Nat.lt_irrefl i (hhigh i hj)
  have hrequire := IndexList.requireNew_of hs hi hnew
  have hfind : before.find? (fun j => decide (i < j)) = none :=
    List.find?_eq_none.mpr fun j hj => by simpa using Nat.le_of_lt (hlow j hj)
  rw [insertFree, Checked.unless_of (by simpa [IndexList.contains] using hnew), Checked.ok_bind]
  -- behind the last free region, or before the lowest one above
  cases after with
  | nil =>
    have hnone : h.freeList.ids.find? (fun j => decide (i < j)) = none := by
      rw [hl, List.append_nil]
      exact hfind
    rw [hnone]
    dsimp only
    rw [IndexList.insertLast_of hs hi hnew, hl, List.append_nil]
    rfl
  | cons later after =>
    have hlater : i < later := hhigh later (by simp)
    have hsome : h.freeList.ids.find? (fun j => decide (i < j)) = some later := by
      rw [hl, List.find?_append, hfind, Option.none_or,
        List.find?_cons_of_pos (by simpa using hlater)]
    have hlisted : h.freeList.requireListed later = .ok () := by
      rw [IndexList.requireListed_eq_ok, hl]
      simp
    have hplace : later ∉ before := fun hj => Nat.lt_asymm hlater (hlow later hj)
    rw [hsome]
    dsimp only
    rw [IndexList.insertBefore, hlisted, Checked.ok_bind, hrequire, hl, Checked.ok_bind,
      IndexList.putBefore_append hplace]
    rfl

/-- A region comes back to its place in the free list. -/
theorem insertFree_of {h : Heap} (hl : h.freeList = ⟨(List.range n).filter p⟩)
    (hs : 512 * n < Word.limit) (hi : i < n) (hp : p i = false) :
    h.insertFree i = .ok { h with
      freeList := ⟨(List.range n).filter fun j => p j || decide (j = i)⟩ } := by
  have hlow : ∀ j ∈ List.range i, j < i := fun j hj => List.mem_range.mp hj
  have hhigh : ∀ j ∈ List.range' (i + 1) (n - (i + 1)), i < j :=
    fun j hj => (List.mem_range'_1.mp hj).1
  have hsame : ∀ l : List Nat, (∀ j ∈ l, j ≠ i) →
      l.filter (fun j => p j || decide (j = i)) = l.filter p := fun l hl =>
    List.filter_congr fun j hj => by simp [hl j hj]
  have hids : h.freeList.ids = (List.range i).filter p ++
      (List.range' (i + 1) (n - (i + 1))).filter p := by
    rw [hl, IndexList.filter_range_split hi, hp]
    rfl
  rw [insertFree_between hids hs hi (fun j hj => hlow j (List.mem_filter.mp hj).1)
      fun j hj => hhigh j (List.mem_filter.mp hj).1,
    IndexList.filter_range_split hi fun j => p j || decide (j = i),
    hsame _ fun j hj => Nat.ne_of_lt (hlow j hj), hsame _ fun j hj => Nat.ne_of_gt (hhigh j hj)]
  simp

end Heap

end RegionHeap
