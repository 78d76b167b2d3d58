import RegionHeap.Order.Short
import RegionHeap.Word

/-!
Sorting by runs. A list is cut into runs, long ones that are sorted already where there are some,
and neighbouring runs are joined in a nearly balanced tree.
-/
set_option autoImplicit false

namespace RegionHeap

structure Run (α : Type) where
  elements : List α
  sorted : Bool

namespace Run

def length {α : Type} (r : Run α) : Nat := r.elements.length

def settle {α : Type} (sortAll : List α → Checked (List α)) (r : Run α) : Checked (List α) :=
  if r.sorted then .ok r.elements else sortAll r.elements

/-- Joins neighbours. Two unsorted runs make a longer unsorted one. -/
def join {α : Type} (before : α → α → Bool) (sortAll : List α → Checked (List α)) (l r : Run α) :
    Checked (Run α) := do
  if l.sorted || r.sorted then
    return ⟨Order.merge before (← l.settle sortAll) (← r.settle sortAll), true⟩
  return ⟨l.elements ++ r.elements, false⟩

/-- The length of the run at the front in which each element is strictly before the previous one,
or each is not. -/
def naturalLength {α : Type} (before : α → α → Bool) (falling : Bool) : List α → Nat
  | x :: y :: rest =>
    if before y x == falling then naturalLength before falling (y :: rest) + 1 else 1
  | [_] => 1
  | [] => 0

def falls {α : Type} (before : α → α → Bool) : List α → Bool
  | x :: y :: _ => before y x
  | _ => false

/-- A sorted run has to be so long to be worth keeping in a list of so many elements: half of the
list or 64 elements, for long lists about the square root of the length. -/
def goodLength (n : Nat) : Nat :=
  if n ≤ 4096 then min (n - n / 2) 64
  else
    let shift := (1 + Nat.log2 n) / 2
    (1 <<< shift + n >>> shift) / 2

/-- The first run of a list, and the elements behind it. Eager cutting makes short sorted runs where
there is no long one, otherwise unsorted ones are made. -/
def cut {α : Type} (s : Sorter α) (good : Nat) (eager : Bool) (xs : List α) :
    Checked (Run α × List α) := do
  let falling := falls s.before xs
  let n := naturalLength s.before falling xs
  if good ≤ n then
    return (⟨if falling then (xs.take n).reverse else xs.take n, true⟩, xs.drop n)
  if eager then
    return (⟨← s.sortShort (xs.take Sorter.shortLength), true⟩, xs.drop Sorter.shortLength)
  return (⟨xs.take good, false⟩, xs.drop good)

def cutAll {α : Type} (s : Sorter α) (good : Nat) (eager : Bool) :
    Nat → List α → Checked (List (Run α))
  | _, [] => .ok []
  | 0, xs => .ok [⟨xs, false⟩]
  | n + 1, xs => do
    let (run, rest) ← cut s good eager xs
    return run :: (← cutAll s good eager n rest)

/-- How deep in the tree two neighbouring runs are joined that reach from one position over a
second to a third. The middles of the two, as fractions of the list, differ first in this bit. -/
def depth (scale start mid stop : Nat) : Nat :=
  let differing := (scale * (start + mid)) ^^^ (scale * (mid + stop))
  if differing = 0 then 64 else 63 - Nat.log2 differing

def collapse {α : Type} (join : Run α → Run α → Checked (Run α)) (depth : Nat) :
    Run α → List (Run α × Nat) → Checked (Run α × List (Run α × Nat))
  | last, [] => .ok (last, [])
  | last, (run, d) :: rest =>
    if depth ≤ d then do collapse join depth (← join run last) rest
    else .ok (last, (run, d) :: rest)

/-- Joins runs from left to right. The last run seen ends at a position; the runs before it wait,
the nearest first, with the depths at which they are joined with what follows them. -/
def joinAll {α : Type} (join : Run α → Run α → Checked (Run α)) (scale : Nat) :
    List (Run α) → Nat → Run α → List (Run α × Nat) → Checked (Run α)
  | [], _, last, waiting => return (← collapse join 0 last waiting).1
  | next :: rest, mid, last, waiting => do
    let stop := mid + next.length
    let depth := depth scale (mid - last.length) mid stop
    let (run, waiting) ← collapse join depth last waiting
    joinAll join scale rest stop next ((run, depth) :: waiting)

def Permutes {α : Type} (sortAll : List α → Checked (List α)) : Prop :=
  ∀ xs ys, sortAll xs = .ok ys → ys.Perm xs

theorem settle_perm {α : Type} {sortAll : List α → Checked (List α)} (hs : Permutes sortAll)
    {r : Run α} {ys : List α} (h : r.settle sortAll = .ok ys) : ys.Perm r.elements := by
  unfold settle at h
  split at h
  · cases h; exact .refl _
  · exact hs _ _ h

theorem join_perm {α : Type} {before : α → α → Bool} {sortAll : List α → Checked (List α)}
    (hs : Permutes sortAll) {l r run : Run α} (h : l.join before sortAll r = .ok run) :
    run.elements.Perm (l.elements ++ r.elements) := by
  unfold join at h
  split at h
  · cases hl : l.settle sortAll with
    | error e => rw [hl] at h; cases h
    | ok xs =>
      cases hr : r.settle sortAll with
      | error e => rw [hl, hr] at h; cases h
      | ok ys =>
        rw [hl, hr] at h
        cases h
        exact (Order.merge_perm _ _ _).trans ((settle_perm hs hl).append (settle_perm hs hr))
  · cases h; exact .refl _

theorem cut_perm {α : Type} {s : Sorter α} {good : Nat} {eager : Bool} {xs rest : List α}
    {run : Run α} (h : cut s good eager xs = .ok (run, rest)) :
    (run.elements ++ rest).Perm xs := by
  unfold cut at h
  simp only at h
  split at h
  · cases h
    split
    · exact ((List.reverse_perm _).append_right _).trans (.of_eq (List.take_append_drop _ _))
    · exact .of_eq (List.take_append_drop _ _)
  · split at h
    · cases hs : s.sortShort (xs.take Sorter.shortLength) with
      | error e => rw [hs] at h; cases h
      | ok ys =>
        rw [hs] at h
        cases h
        refine ((Sorter.sortShort_perm hs).append_right _).trans ?_
        exact .of_eq (List.take_append_drop _ _)
    · cases h
      exact .of_eq (List.take_append_drop _ _)

theorem cutAll_perm {α : Type} {s : Sorter α} {good : Nat} {eager : Bool} {n : Nat} {xs : List α}
    {runs : List (Run α)} (h : cutAll s good eager n xs = .ok runs) :
    (runs.flatMap Run.elements).Perm xs := by
  induction n generalizing xs runs with
  | zero =>
    cases xs <;> cases h <;> simp
  | succ n ih =>
    cases xs with
    | nil => cases h; simp
    | cons x xs =>
      unfold cutAll at h
      cases hc : cut s good eager (x :: xs) with
      | error e => rw [hc] at h; cases h
      | ok p =>
        obtain ⟨run, rest⟩ := p
        simp only [hc, bind, Except.bind] at h
        split at h
        · cases h
        · next later hr =>
          cases h
          exact ((ih hr).append_left _).trans (cut_perm hc)

def waitingElements {α : Type} : List (Run α × Nat) → List α
  | [] => []
  | (run, _) :: rest => waitingElements rest ++ run.elements

theorem collapse_perm {α : Type} {join : Run α → Run α → Checked (Run α)}
    (hj : ∀ l r run, join l r = .ok run → run.elements.Perm (l.elements ++ r.elements))
    {depth : Nat} {last run : Run α} {waiting rest : List (Run α × Nat)}
    (h : collapse join depth last waiting = .ok (run, rest)) :
    (waitingElements rest ++ run.elements).Perm (waitingElements waiting ++ last.elements) := by
  induction waiting generalizing last with
  | nil => cases h; exact .refl _
  | cons w ws ih =>
    obtain ⟨first, d⟩ := w
    unfold collapse at h
    split at h
    · cases hf : join first last with
      | error e => rw [hf] at h; cases h
      | ok joined =>
        rw [hf] at h
        refine (ih h).trans (((hj _ _ _ hf).append_left _).trans ?_)
        simp [waitingElements]
    · cases h; exact .refl _

theorem collapse_zero {α : Type} {join : Run α → Run α → Checked (Run α)} {last run : Run α}
    {waiting rest : List (Run α × Nat)} (h : collapse join 0 last waiting = .ok (run, rest)) :
    rest = [] := by
  induction waiting generalizing last with
  | nil => cases h; rfl
  | cons w ws ih =>
    obtain ⟨first, d⟩ := w
    simp only [collapse, Nat.zero_le, if_true] at h
    cases hf : join first last with
    | error e => rw [hf] at h; cases h
    | ok joined => rw [hf] at h; exact ih h

theorem joinAll_perm {α : Type} {join : Run α → Run α → Checked (Run α)}
    (hj : ∀ l r run, join l r = .ok run → run.elements.Perm (l.elements ++ r.elements))
    {scale mid : Nat} {runs : List (Run α)} {last run : Run α} {waiting : List (Run α × Nat)}
    (h : joinAll join scale runs mid last waiting = .ok run) :
    run.elements.Perm (waitingElements waiting ++ last.elements ++ runs.flatMap Run.elements) := by
  induction runs generalizing mid last waiting with
  | nil =>
    unfold joinAll at h
    cases hc : collapse join 0 last waiting with
    | error e => rw [hc] at h; cases h
    | ok p =>
      obtain ⟨all, rest⟩ := p
      rw [hc] at h
      cases h
      have hp := collapse_perm hj hc
      rw [collapse_zero hc] at hp
      simpa [waitingElements] using hp
  | cons next runs ih =>
    simp only [joinAll] at h
    cases hc : collapse join (depth scale (mid - last.length) mid (mid + next.length)) last
        waiting with
    | error e => rw [hc] at h; cases h
    | ok p =>
      obtain ⟨joined, rest⟩ := p
      rw [hc] at h
      refine (ih h).trans ?_
      rw [List.flatMap_cons, ← List.append_assoc]
      exact (((collapse_perm hj hc).append_right _).append_right _)

end Run

namespace Sorter

def sortRuns {α : Type} (s : Sorter α) (eager : Bool) (sortAll : List α → Checked (List α))
    (xs : List α) : Checked (List α) := do
  match ← Run.cutAll s (Run.goodLength xs.length) eager xs.length xs with
  | [] => return []
  | first :: rest =>
    let scale := Word.divCeil (1 <<< 62) xs.length
    let all ← Run.joinAll (Run.join s.before sortAll) scale rest first.length first []
    all.settle sortAll

theorem sortRuns_perm {α : Type} {s : Sorter α} {eager : Bool}
    {sortAll : List α → Checked (List α)} (hs : Run.Permutes sortAll) :
    Run.Permutes (s.sortRuns eager sortAll) := by
  intro xs ys h
  unfold sortRuns at h
  cases hc : Run.cutAll s (Run.goodLength xs.length) eager xs.length xs with
  | error e => rw [hc] at h; cases h
  | ok runs =>
    rw [hc] at h
    have hp := Run.cutAll_perm hc
    cases runs with
    | nil => cases h; exact hp
    | cons first rest =>
      simp only [bind, Except.bind] at h
      split at h
      · cases h
      · next all ha =>
        have hall := Run.joinAll_perm (fun _ _ _ => Run.join_perm hs) ha
        refine (Run.settle_perm hs h).trans (hall.trans ?_)
        simpa [Run.waitingElements] using hp

end Sorter

end RegionHeap
