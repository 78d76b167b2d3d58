import RegionHeap.Memory.Object
import RegionHeap.Proofs.Checked

/-!
Objects one behind the other. A chain is what a walk over a dense range of memory meets; objects
of a chain do not overlap, and each address of the range lies in exactly one of them.
-/
set_option autoImplicit false

namespace RegionHeap.Object

/-- From one address up to another the memory consists of these objects. -/
inductive Chain (m : Memory) : Nat → List Nat → Nat → Prop where
  | nil (a : Nat) : Chain m a [] a
  | cons {o b : Nat} {os : List Nat} : 0 < size m o → Chain m (limit m o) os b →
      Chain m o (o :: os) b

theorem lt_limit {m : Memory} {o : Nat} (h : 0 < size m o) : o < limit m o := by
  unfold limit
  omega

theorem size_congr {m m' : Memory} {o : Nat} (h : klass m' o = klass m o) :
    size m' o = size m o := by
  simp only [size, h]

theorem limit_congr {m m' : Memory} {o : Nat} (h : klass m' o = klass m o) :
    limit m' o = limit m o := by
  simp only [limit, size_congr h]

theorem fieldCount_congr {m m' : Memory} {o : Nat} (h : klass m' o = klass m o) :
    fieldCount m' o = fieldCount m o := by
  simp only [fieldCount, h]

theorem slots_congr {m m' : Memory} {o : Nat} (h : klass m' o = klass m o) :
    slots m' o = slots m o := by
  simp only [slots, fieldCount_congr h]

namespace Chain

variable {m : Memory} {a b o p : Nat} {os : List Nat}

theorem le (h : Chain m a os b) : a ≤ b := by
  induction h with
  | nil => exact Nat.le_refl _
  | cons hs _ ih =>
    have := lt_limit hs
    omega

theorem mem_bounds (h : Chain m a os b) (ho : o ∈ os) :
    a ≤ o ∧ limit m o ≤ b ∧ 0 < size m o := by
  induction h with
  | nil => simp at ho
  | cons hs hc ih =>
    have := lt_limit hs
    rcases List.mem_cons.mp ho with rfl | ho
    · exact ⟨Nat.le_refl _, hc.le, hs⟩
    · have := ih ho
      exact ⟨by omega, this.2⟩

theorem le_of_mem (h : Chain m a os b) (ho : o ∈ os) : a ≤ o := (h.mem_bounds ho).1

theorem limit_le (h : Chain m a os b) (ho : o ∈ os) : limit m o ≤ b := (h.mem_bounds ho).2.1

theorem size_pos (h : Chain m a os b) (ho : o ∈ os) : 0 < size m o := (h.mem_bounds ho).2.2

theorem lt_of_mem (h : Chain m a os b) (ho : o ∈ os) : o < b :=
  Nat.lt_of_lt_of_le (lt_limit (h.size_pos ho)) (h.limit_le ho)

theorem limit_le_of_lt (h : Chain m a os b) (ho : o ∈ os) (hp : p ∈ os) (hlt : o < p) :
    limit m o ≤ p := by
  induction h with
  | nil => simp at ho
  | cons hs hc ih =>
    rcases List.mem_cons.mp ho with rfl | ho'
    · rcases List.mem_cons.mp hp with rfl | hp'
      · omega
      · exact hc.le_of_mem hp'
    · rcases List.mem_cons.mp hp with rfl | hp'
      · have := hc.le_of_mem ho'
        have := lt_limit hs
        omega
      · exact ih ho' hp'

theorem sorted (h : Chain m a os b) : os.Pairwise (· < ·) := by
  induction h with
  | nil => exact List.Pairwise.nil
  | cons hs hc ih =>
    refine List.Pairwise.cons (fun p hp => ?_) ih
    have := hc.le_of_mem hp
    have := lt_limit hs
    omega

theorem aligned (h : Chain m a os b) (ha : a % 8 = 0) : b % 8 = 0 ∧ ∀ o ∈ os, o % 8 = 0 := by
  induction h with
  | nil => exact ⟨ha, by simp⟩
  | cons hs hc ih =>
    obtain ⟨hb, ho⟩ := ih (by unfold limit; omega)
    refine ⟨hb, fun o hm => ?_⟩
    rcases List.mem_cons.mp hm with rfl | hm
    · exact ha
    · exact ho o hm

theorem append {c : Nat} {ps : List Nat} (h : Chain m a os b) (h' : Chain m b ps c) :
    Chain m a (os ++ ps) c := by
  induction h with
  | nil => exact h'
  | cons hs _ ih => exact .cons hs (ih h')

theorem snoc (h : Chain m a os b) (hs : 0 < size m b) : Chain m a (os ++ [b]) (limit m b) :=
  h.append (.cons hs (.nil _))

theorem congr {m' : Memory} (h : Chain m a os b) (hk : ∀ o ∈ os, size m' o = size m o) :
    Chain m' a os b := by
  induction h with
  | nil => exact .nil _
  | @cons o b os hs hc ih =>
    have e := hk o (by simp)
    refine .cons (by rwa [e]) ?_
    have : limit m' o = limit m o := by simp only [limit, e]
    rw [this]
    exact ih fun p hp => hk p (by simp [hp])

theorem walkFrom_eq (h : Chain m a os b) {n : Nat} (hn : b - a ≤ n) :
    walkFrom m b n a = os := by
  induction h generalizing n with
  | nil a => cases n <;> simp [walkFrom]
  | @cons o b os hs hc ih =>
    have hl := lt_limit hs
    have hb := hc.le
    cases n with
    | zero => omega
    | succ n =>
      have hz : size m o ≠ 0 := by omega
      simp [walkFrom, show o < b by omega, hz, ih (n := n) (by omega)]

theorem walk_eq (h : Chain m a os b) : walk m a b = os := h.walkFrom_eq (Nat.le_refl _)

theorem getLast_limit (h : Chain m a os b) : (os.getLast?.map (limit m)).getD a = b := by
  induction h with
  | nil => simp
  | @cons o b os hs hc ih =>
    cases os with
    | nil =>
      cases hc
      simp
    | cons p ps =>
      rw [List.getLast?_cons_cons]
      simpa [List.getLast?_cons] using ih

theorem walkEnd_eq (h : Chain m a os b) : walkEnd m a b = b := by
  rw [walkEnd, h.walk_eq, h.getLast_limit]

theorem first_mem (h : Chain m a os b) (hab : a < b) : a ∈ os := by
  cases h with
  | nil => omega
  | cons => simp

/-- Each address of the range lies in an object of the chain. -/
theorem exists_covering (h : Chain m a os b) {x : Nat} (ha : a ≤ x) (hb : x < b) :
    ∃ o ∈ os, o ≤ x ∧ x < limit m o := by
  induction h with
  | nil => omega
  | @cons o b os hs hc ih =>
    by_cases hx : x < limit m o
    · exact ⟨o, by simp, ha, hx⟩
    · obtain ⟨p, hp, h⟩ := ih (by omega) hb
      exact ⟨p, by simp [hp], h⟩

theorem coveringFrom_eq {x n s : Nat} (h : Chain m a os b) (hs : s ∈ os) (ho : o ∈ os)
    (hso : s ≤ o) (hx : o ≤ x) (hx' : x < limit m o) (hn : o - s < n) :
    coveringFrom m x n s = .ok o := by
  induction h generalizing n s with
  | nil => simp at ho
  | @cons q b qs hq hc ih =>
    obtain ⟨n, rfl⟩ : ∃ k, n = k + 1 := ⟨n - 1, by omega⟩
    rcases List.mem_cons.mp hs with rfl | hs
    · rw [coveringFrom, Checked.unless_of (by simpa using hq), Checked.ok_bind]
      rcases List.mem_cons.mp ho with rfl | ho
      · rw [if_pos hx']
        rfl
      · have hle := hc.le_of_mem ho
        rw [if_neg (by omega)]
        -- the next object is in the rest of the chain, which is not empty
        cases hc with
        | nil => simp at ho
        | cons hp hc' =>
          exact ih (List.mem_cons_self ..) ho hle (by have := lt_limit hq; omega)
    · have hle := hc.le_of_mem hs
      have hlt := lt_limit hq
      rcases List.mem_cons.mp ho with rfl | ho
      · omega
      · exact ih hs ho hso hn

theorem covering_eq {x s : Nat} (h : Chain m a os b) (hs : s ∈ os) (ho : o ∈ os)
    (hsx : s ≤ x) (hx : o ≤ x) (hx' : x < limit m o) : covering m s x = .ok o := by
  have hso : s ≤ o := by
    by_cases hso : s ≤ o
    · exact hso
    · have := h.limit_le_of_lt ho hs (by omega)
      omega
  exact h.coveringFrom_eq hs ho hso hx hx' (by omega)

end Chain

/-- The objects met by a walk that ends where it should are a chain. -/
theorem chain_of_walkFrom {m : Memory} {b n a : Nat} (hab : a ≤ b) (hn : b - a ≤ n)
    (hs : ∀ o ∈ walkFrom m b n a, 0 < size m o)
    (he : ((walkFrom m b n a).getLast?.map (limit m)).getD a = b) :
    Chain m a (walkFrom m b n a) b := by
  -- by induction on the bytes that are left to walk
  induction n generalizing a with
  | zero =>
    obtain rfl : a = b := by omega
    exact .nil a
  | succ n ih =>
    unfold walkFrom at hs he ⊢
    by_cases hlt : a < b
    · simp only [hlt, if_true] at hs he ⊢
      have hp : 0 < size m a := hs a (by simp)
      have hz : size m a ≠ 0 := by omega
      simp only [hz, if_false] at hs he ⊢
      have hl := lt_limit hp
      refine .cons hp ?_
      by_cases hle : limit m a ≤ b
      · apply ih hle (by omega) (fun o ho => hs o (by simp [ho]))
        cases hw : walkFrom m b n (limit m a) with
        | nil => simpa [hw] using he
        | cons p ps =>
          rw [hw, List.getLast?_cons_cons] at he
          simpa [List.getLast?_cons] using he
      · -- a first object that reaches past the end is also the last one of the walk
        have hw : walkFrom m b n (limit m a) = [] := by
          cases n with
          | zero => rfl
          | succ n => simp [walkFrom, show ¬ limit m a < b by omega]
        rw [hw] at he
        simp at he
        omega
    · obtain rfl : a = b := by omega
      simp only [Nat.lt_irrefl, if_false] at *
      exact .nil a

theorem chain_of_walk {m : Memory} {a b : Nat} (hab : a ≤ b)
    (hs : ∀ o ∈ walk m a b, 0 < size m o) (he : walkEnd m a b = b) : Chain m a (walk m a b) b :=
  chain_of_walkFrom hab (Nat.le_refl _) hs he

end RegionHeap.Object
