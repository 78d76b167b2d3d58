import RegionHeap.Collection.CompactionPoint
import RegionHeap.Proofs.Sums

/-!
Runs of consecutive numbers in ascending lists, and the search for a run that begins before a
given number.
-/
set_option autoImplicit false

namespace RegionHeap

variable {rs before after : List Nat} {n t x : Nat}

/-- A run with what lies before it and behind it. -/
structure IsRun (rs before after : List Nat) (t n : Nat) : Prop where
  split : rs = before ++ (List.range' t n ++ after)

/-- One of so many consecutive numbers is missing. -/
def Lacks (rs : List Nat) (t n : Nat) : Prop := ∃ x, t ≤ x ∧ x < t + n ∧ x ∉ rs

theorem Lacks.mono {rs' : List Nat} (h : Lacks rs t n)
    (hmem : ∀ x, t ≤ x → x < t + n → x ∈ rs' → x ∈ rs) : Lacks rs' t n := by
  obtain ⟨x, hfrom, hto, hx⟩ := h
  exact ⟨x, hfrom, hto, fun hx' => hx (hmem x hfrom hto hx')⟩

theorem length_le_of_ascending (h : rs.Pairwise (· < ·)) (hn : ∀ x ∈ rs, x < n) :
    rs.length ≤ n := by
  suffices h' : ∀ b, (∀ x ∈ rs, b ≤ x) → rs.length ≤ n - b from h' 0 fun _ _ => Nat.zero_le _
  induction rs with
  | nil => simp
  | cons x rs ih =>
    intro b hb
    obtain ⟨hx, hrs⟩ := List.pairwise_cons.mp h
    have hfirst := hn x (by simp)
    have hbelow := hb x (by simp)
    have hrest := ih hrs (fun y hy => hn y (by simp [hy])) (x + 1) fun y hy => hx y hy
    rw [List.length_cons]
    omega

theorem exists_isRun (h : rs.Pairwise (· < ·)) (hn : 0 < n)
    (hm : ∀ x, t ≤ x → x < t + n → x ∈ rs) : ∃ before after, IsRun rs before after t n := by
  obtain ⟨n, rfl⟩ : ∃ m, n = m + 1 := ⟨n - 1, by omega⟩
  clear hn
  -- by induction on the length, where the run grows by the id right behind it
  induction n with
  | zero =>
    obtain ⟨before, after, hs⟩ := List.append_of_mem (hm t (Nat.le_refl _) (by omega))
    exact ⟨before, after, ⟨hs⟩⟩
  | succ n ih =>
    obtain ⟨before, after, ⟨hs⟩⟩ := ih fun x hfrom hto => hm x hfrom (by omega)
    have hnext := hm (t + (n + 1)) (by omega) (by omega)
    subst hs
    rw [List.pairwise_append, List.pairwise_append] at h
    obtain ⟨-, ⟨-, hafter, hrun⟩, hbefore⟩ := h
    have hmem : t + (n + 1) ∈ after := by
      rcases List.mem_append.mp hnext with hb | hb
      · have := hbefore _ hb t (by simp)
        omega
      · rcases List.mem_append.mp hb with hb | hb
        · simp at hb
        · exact hb
    cases after with
    | nil => simp at hmem
    | cons y after =>
      have hy := hrun (t + n) (by simp) y (by simp)
      have hyt : y = t + (n + 1) := by
        rcases List.mem_cons.mp hmem with e | hmem
        · exact e.symm
        · have := (List.pairwise_cons.mp hafter).1 _ hmem
          omega
      subst hyt
      refine ⟨before, after, ⟨?_⟩⟩
      rw [List.range'_concat (s := t) (n := n + 1)]
      simp

namespace IsRun

variable (r : IsRun rs before after t n)

include r

theorem mem_of (h : t ≤ x) (h' : x < t + n) : x ∈ rs := by
  rw [r.split]
  simp [h, h']

theorem removed : rs.take before.length ++ rs.drop (before.length + n) = before ++ after := by
  rw [r.split, List.take_left', List.drop_append, List.drop_append]
  · simp
  · rfl

theorem mem_removed (h : rs.Pairwise (· < ·)) :
    x ∈ before ++ after ↔ x ∈ rs ∧ ¬(t ≤ x ∧ x < t + n) := by
  have hn : rs.Nodup := h.imp Nat.ne_of_lt
  rw [r.split, List.nodup_append, List.nodup_append] at hn
  rw [r.split]
  simp only [List.mem_append, List.mem_range'_1]
  constructor
  · rintro (hx | hx)
    · exact ⟨.inl hx, fun hr => hn.2.2 x hx x (by simp [hr]) rfl⟩
    · exact ⟨.inr (.inr hx), fun hr => hn.2.1.2.2 x (by simp [hr]) x hx rfl⟩
  · rintro ⟨hx | hx | hx, hr⟩
    · exact .inl hx
    · exact absurd hx hr
    · exact .inr hx

theorem ascending_removed (h : rs.Pairwise (· < ·)) : (before ++ after).Pairwise (· < ·) := by
  refine h.sublist ?_
  rw [r.split]
  exact (List.Sublist.refl _).append (List.sublist_append_right _ _)

theorem end_le : before.length + n ≤ rs.length := by
  rw [r.split]
  simp

theorem idxOf (h : rs.Pairwise (· < ·)) (hn : 0 < n) : rs.idxOf? t = some before.length := by
  obtain ⟨n, rfl⟩ : ∃ m, n = m + 1 := ⟨n - 1, by omega⟩
  have hb : ∀ x ∈ before, x ≠ t := by
    rw [r.split, List.pairwise_append] at h
    exact fun x hx => Nat.ne_of_lt (h.2.2 x hx t (by simp))
  rw [r.split, List.range'_succ, List.cons_append]
  clear r h hn
  induction before with
  | nil => simp [List.idxOf?_cons]
  | cons y before ih =>
    have hy := hb y (by simp)
    rw [List.cons_append, List.idxOf?_cons, ih fun x hx => hb x (by simp [hx])]
    simp [hy]

theorem mem_take (h : rs.Pairwise (· < ·)) (hn : 0 < n) (hx : x ∈ rs) (hlt : x < t + n) :
    x ∈ rs.take (before.length + n) := by
  have hs := r.split
  rw [← List.append_assoc] at hs
  rw [hs] at hx h
  rw [hs, List.take_left' (by simp)]
  rcases List.mem_append.mp hx with hx | hx
  · exact hx
  · have := (List.pairwise_append.mp h).2.2 (t + n - 1) (by simp; omega) x hx
    omega

theorem get (hn : 0 < n) : rs[before.length]? = some t := by
  obtain ⟨n, rfl⟩ : ∃ m, n = m + 1 := ⟨n - 1, by omega⟩
  rw [r.split, List.range'_succ]
  simp

end IsRun

namespace CompactionPoint

/-- The longest run that ends at a position of the list. -/
structure LongestRun (rs before after : List Nat) (t k : Nat) : Prop
    extends IsRun rs before after t k where
  pos : 0 < k
  apart : ∀ x ∈ before, x + 1 < t

/-- No run up to a position is as long as is asked for. -/
structure Searched (rs before list rest : List Nat) (t k count : Nat) : Prop
    extends LongestRun rs before (list ++ rest) t k where
  short : k < count
  lacks : ∀ u, Lacks (before ++ List.range' t k) u count

namespace Searched

variable {list rest : List Nat} {y k count : Nat}

theorem first (hc : 1 < count) (lowest last : Nat) (rest : List Nat) :
    Searched (lowest :: rest) [] (rest.take last) (rest.drop last) lowest 1 count := by
  refine ⟨⟨⟨by simp⟩, Nat.one_pos, by simp⟩, hc, fun u => ?_⟩
  by_cases e : u = lowest
  · exact ⟨u + 1, by omega, by omega, by simp; omega⟩
  · exact ⟨u, Nat.le_refl _, by omega, by simp; omega⟩

theorem lt_next (r : Searched rs before (y :: list) rest t k count) (h : rs.Pairwise (· < ·)) :
    ∀ x ∈ before ++ List.range' t k, x < y := by
  rw [r.split, ← List.append_assoc, List.cons_append, List.pairwise_append] at h
  exact fun x hx => h.2.2 x hx y (by simp)

/-- The run that ends with the next number. -/
theorem next_run (r : Searched rs before (y :: list) rest t k count)
    (h : rs.Pairwise (· < ·)) : ∃ before' t' k', LongestRun rs before' (list ++ rest) t' k' ∧
      k' = (if y = t + k then k + 1 else 1) ∧ before'.length + k' = before.length + k + 1 ∧
      t' + k' - 1 = y ∧ before' ++ List.range' t' k' = before ++ List.range' t k ++ [y] := by
  have hs := r.split
  have hpos := r.pos
  by_cases hy : y = t + k
  · refine ⟨before, t, k + 1, ⟨⟨?_⟩, by omega, r.apart⟩, by rw [if_pos hy], by omega, by omega, ?_⟩
    · rw [hs, hy, List.range'_concat]
      simp
    · rw [hy, List.range'_concat]
      simp
  · have hlast := r.lt_next h (t + k - 1) (by simp; omega)
    refine ⟨before ++ List.range' t k, y, 1, ⟨⟨?_⟩, Nat.one_pos, fun x hx => ?_⟩,
      by rw [if_neg hy], by simp, by omega, rfl⟩
    · rw [hs]
      simp
    · rcases List.mem_append.mp hx with hx | hx
      · have := r.apart x hx
        omega
      · rw [List.mem_range'_1] at hx
        omega

theorem next (r : Searched rs before (y :: list) rest t k count) {before' : List Nat} {t' k' : Nat}
    (r' : LongestRun rs before' (list ++ rest) t' k') (hshort : k' < count)
    (hlast : t' + k' - 1 = y)
    (hsame : before' ++ List.range' t' k' = before ++ List.range' t k ++ [y]) :
    Searched rs before' list rest t' k' count := by
  refine ⟨r', hshort, fun u => ?_⟩
  have hpos := r'.pos
  have hle : ∀ x ∈ before' ++ List.range' t' k', x ≤ y := by
    intro x hx
    rcases List.mem_append.mp hx with hx | hx
    · have := r'.apart x hx
      omega
    · rw [List.mem_range'_1] at hx
      omega
  by_cases hu : u + count ≤ y
  · -- all numbers of the run come before the next one
    refine (r.lacks u).mono fun x _ hlt hx => ?_
    rw [hsame] at hx
    rcases List.mem_append.mp hx with hx | hx
    · exact hx
    · obtain rfl : x = y := by simpa using hx
      omega
  · by_cases hlow : t' ≤ u
    · exact ⟨u + count - 1, by omega, by omega, fun hx => by
        have := hle _ hx
        omega⟩
    · -- the run would begin before the one that ends with the next number
      refine ⟨max u (t' - 1), by omega, by omega, fun hx => ?_⟩
      rcases List.mem_append.mp hx with hx | hx
      · have := r'.apart _ hx
        omega
      · rw [List.mem_range'_1] at hx
        omega

/-- A run that is found is the lowest one. -/
theorem lacks_of_lt (r : Searched rs before (y :: list) rest t k count) (h : rs.Pairwise (· < ·))
    {t' u : Nat} (hlast : t' + count - 1 = y) (hu : u < t') : Lacks rs u count := by
  refine (r.lacks u).mono fun x hfrom hto hx => ?_
  have hs := r.split
  rw [hs, ← List.append_assoc] at h hx
  rcases List.mem_append.mp hx with hx | hx
  · exact hx
  · have hle : y ≤ x := by
      rw [List.cons_append, List.pairwise_append, List.pairwise_cons] at h
      rcases List.mem_cons.mp hx with e | hx
      · omega
      · exact Nat.le_of_lt (h.2.1.1 x hx)
    omega

end Searched

theorem runFrom_of {count : Nat} {k : Nat} {list rest : List Nat} (h : rs.Pairwise (· < ·))
    (r : Searched rs before list rest t k count) (hs : ∀ x ∈ rs, x < Word.limit) :
    ∃ found, runFrom count list (before.length + k) (t + k - 1) k = .ok found ∧
      (found = none → ∀ u, Lacks (before ++ (List.range' t k ++ list)) u count) ∧
      ∀ start, found = some start → ∃ t' before' after', before'.length = start ∧
        IsRun rs before' after' t' count ∧ ∀ u, u < t' → Lacks rs u count := by
  -- by induction on the ids that are left; the run so far ends right before them
  induction list generalizing before t k with
  | nil =>
    refine ⟨none, rfl, fun _ u => ?_, by simp⟩
    rw [List.append_nil]
    exact r.lacks u
  | cons y list ih =>
    have hadd : Word.add (t + k - 1) 1 = .ok (t + k) := by
      have hpos := r.pos
      have hlast := r.lt_next h (t + k - 1) (by simp; omega)
      have := hs y (by rw [r.split]; simp)
      simp only [Word.add_eq_ok]
      omega
    obtain ⟨before₁, t₁, k₁, r₁, hlength, hpos, hlast, hsame⟩ := r.next_run h
    rw [runFrom, hadd, Checked.ok_bind, ← hlength]
    by_cases hc : k₁ = count
    · refine ⟨some (before.length + k + 1 - count), by rw [if_pos hc]; rfl, by simp,
        fun start he => ?_⟩
      obtain rfl := Option.some.inj he
      subst hc
      exact ⟨t₁, before₁, list ++ rest, by omega, r₁.toIsRun,
        fun u hu => r.lacks_of_lt h hlast hu⟩
    · have hshort : k₁ < count := by
        have := r.short
        split at hlength <;> omega
      have r' := r.next r₁ hshort hlast hsame
      obtain ⟨found, hf, hnone, hfound⟩ := ih r'
      refine ⟨found, ?_, fun he u => ?_, hfound⟩
      · rw [if_neg hc, ← hf, hpos, hlast]
      · have := hnone he u
        rw [← List.append_assoc, hsame] at this
        simpa using this

/-- The position at which the lowest run begins, if one begins before a region. -/
structure LowestRun (rs : List Nat) (region count : Nat) (found : Option Nat) : Prop where
  none : found = none → ∀ u, u < region → Lacks rs u count
  some : ∀ start, found = some start → ∃ t before after, t < region ∧ before.length = start ∧
    IsRun rs before after t count ∧ ∀ u, u < t → Lacks rs u count

theorem lowestRun_one {region lowest : Nat} {rest : List Nat}
    (h : (lowest :: rest).Pairwise (· < ·)) (hm : region ∈ lowest :: rest) :
    LowestRun (lowest :: rest) region 1 (if lowest = region then none else some 0) := by
  have hlow : ∀ u, u < lowest → Lacks (lowest :: rest) u 1 := fun u hu =>
    ⟨u, Nat.le_refl _, by omega, fun hm => by
      rcases List.mem_cons.mp hm with e | hm
      · omega
      · have := (List.pairwise_cons.mp h).1 u hm
        omega⟩
  by_cases e : lowest = region
  · rw [if_pos e]
    exact ⟨fun _ u hu => hlow u (e ▸ hu), by simp⟩
  · rw [if_neg e]
    refine ⟨by simp, fun start he => ?_⟩
    obtain rfl := Option.some.inj he
    have hlt : lowest < region := by
      rcases List.mem_cons.mp hm with e' | hm
      · exact absurd e'.symm e
      · exact (List.pairwise_cons.mp h).1 region hm
    exact ⟨lowest, [], rest, hlt, rfl, ⟨rfl⟩, hlow⟩

theorem lowestRun_of_runFrom {region count lowest : Nat} {rest : List Nat}
    (h : (lowest :: rest).Pairwise (· < ·)) (hc : 1 < count)
    (own : IsRun (lowest :: rest) before after region count)
    (hs : ∀ x ∈ lowest :: rest, x < Word.limit) :
    ∃ found, runFrom count (rest.take (min (before.length + count - 1) rest.length)) 1 lowest 1 =
        .ok found ∧
      LowestRun (lowest :: rest) region count
        (found.filter fun start => ((lowest :: rest)[start]?).getD region < region) := by
  obtain ⟨last, hlast⟩ : ∃ last, last = min (before.length + count - 1) rest.length := ⟨_, rfl⟩
  have htake : lowest :: rest.take last = (lowest :: rest).take (before.length + count) := by
    rw [hlast, show before.length + count = before.length + count - 1 + 1 by omega,
      List.take_succ_cons, Nat.add_sub_cancel, ← List.take_take, List.take_length]
  obtain ⟨found, hf, hnone, hfound⟩ := runFrom_of h (Searched.first hc lowest last rest) hs
  refine ⟨found, by rw [← hlast]; exact hf, fun he u hu => ?_, fun start he => ?_⟩
  · cases hfe : found with
    | none =>
      have hnil : [] ++ (List.range' lowest 1 ++ rest.take last) =
          (lowest :: rest).take (before.length + count) := htake
      refine (hnone hfe u).mono fun x _ hlt hx => ?_
      rw [hnil]
      exact own.mem_take h (by omega) hx (by omega)
    | some start =>
      -- the lowest run of all does not begin before the region
      obtain ⟨t, before', after', hb, r, hless⟩ := hfound start hfe
      have hget := r.get (by omega)
      rw [hb] at hget
      subst hfe
      simp only [Option.filter, hget, Option.getD_some] at he
      split at he
      · contradiction
      · next hge =>
        rw [decide_eq_true_eq] at hge
        exact hless u (by omega)
  · obtain ⟨he, hlt⟩ := Option.filter_eq_some_iff.mp he
    obtain ⟨t, before', after', hb, r, hless⟩ := hfound start he
    have hget := r.get (by omega)
    rw [hb] at hget
    simp only [hget, Option.getD_some, decide_eq_true_eq] at hlt
    exact ⟨t, before', after', hlt, hb, r, hless⟩

/-- The lowest run that begins before an object is found. -/
theorem runBefore_of {p : CompactionPoint} {region count : Nat} (h : p.regions.Pairwise (· < ·))
    (hc : 0 < count) (own : IsRun p.regions before after region count)
    (hs : ∀ x ∈ p.regions, x < Word.limit) (hl : p.regions.length < Word.limit) :
    ∃ found, p.runBefore region count = .ok found ∧ LowestRun p.regions region count found := by
  have hidx := own.idxOf h hc
  have hm := own.mem_of (Nat.le_refl _) (by omega)
  cases hrs : p.regions with
  | nil => simp [hrs] at hm
  | cons lowest rest =>
    rw [hrs] at hidx h own hm hs hl
    rw [runBefore]
    simp only [hrs, hidx, decide_eq_true hc, Checked.unless_true, Checked.ok_bind]
    by_cases hone : count = 1
    · subst hone
      exact ⟨_, rfl, lowestRun_one h hm⟩
    · have hadd : Word.add before.length count = .ok (before.length + count) :=
        Word.add_eq_ok.mpr ⟨Nat.lt_of_le_of_lt own.end_le hl, rfl⟩
      obtain ⟨found, hf, hlowest⟩ := lowestRun_of_runFrom h (by omega) own hs
      refine ⟨_, ?_, hlowest⟩
      simp only [hone, if_false, hadd, Checked.ok_bind, hf, Checked.pure_eq]

end CompactionPoint

end RegionHeap
