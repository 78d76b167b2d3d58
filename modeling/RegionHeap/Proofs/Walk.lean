import RegionHeap.Proofs.Marks

/-!
Walks over the marked words of a region. If the marked words are objects that do not overlap, a
walk is a loop over them in ascending order, whatever a visit does to marks that were passed.
-/
set_option autoImplicit false

namespace RegionHeap.LivenessMap

variable {l : LivenessMap} {L : Layout} {a c i limit : Nat}

/-- The marked words of a region in ascending order. -/
def marksOf (l : LivenessMap) (L : Layout) (i : Nat) : List Nat :=
  ((List.range L.words).filter (l.holds i)).map fun bit => L.bottom i + 8 * bit

theorem mem_marksOf (hi : i < L.count) :
    a ∈ l.marksOf L i ↔ L.IsWord a ∧ L.regionOf a = i ∧ l.marked L a = true := by
  have hm := L.bottom_mod i
  simp only [marksOf, List.mem_map, List.mem_filter, List.mem_range]
  constructor
  · rintro ⟨bit, ⟨hb, hh⟩, rfl⟩
    have hr : L.regionOf (L.bottom i + 8 * bit) = i :=
      Layout.regionOf_eq (by omega) (by rw [L.bytes_eq]; omega)
    refine ⟨Layout.isWord_of_le hi (by omega) (by rw [L.bytes_eq]; omega) (by omega), hr, ?_⟩
    rw [marked_eq_holds hr, show (L.bottom i + 8 * bit - L.bottom i) / 8 = bit by omega]
    exact hh
  · rintro ⟨hw, rfl, hk⟩
    obtain ⟨hbottom, hlimit⟩ := Layout.bounds_of_regionOf hw.start_le rfl
    have haligned := hw.aligned
    rw [L.bytes_eq] at hlimit
    exact ⟨(a - L.bottom (L.regionOf a)) / 8, ⟨by omega, hk⟩, by omega⟩

theorem sorted_marksOf (l : LivenessMap) (L : Layout) (i : Nat) :
    (l.marksOf L i).Pairwise (· < ·) := by
  unfold marksOf
  rw [List.pairwise_map]
  refine (List.Pairwise.filter _ (List.pairwise_lt_range (n := L.words))).imp fun h => ?_
  omega

/-- Within a region the search finds the lowest marked word. -/
theorem nextInRegion_of (h : l.Laid L) (hi : i < L.count) (hb : L.bottom i ≤ c)
    (hcl : c ≤ limit) (hl : limit ≤ L.bottom i + L.bytes) (hca : c % 8 = 0) (hla : limit % 8 = 0) :
    ∃ r, l.nextInRegion i c limit = .ok r ∧
      (∀ o, r = some o → L.IsWord o ∧ L.regionOf o = i ∧ c ≤ o ∧ o < limit ∧
        l.marked L o = true ∧ ∀ b, L.IsWord b → c ≤ b → b < o → l.marked L b = false) ∧
      (r = none → ∀ b, L.IsWord b → c ≤ b → b < limit → l.marked L b = false) := by
  have hbot := L.bottom_mod i
  have region : ∀ {b}, c ≤ b → b < limit → L.regionOf b = i := fun hcb hbl =>
    Layout.regionOf_eq (by omega) (by omega)
  cases hst : (l.sliceAt i).state.isMarked with
  | false =>
    refine ⟨none, by simp [nextInRegion, h.slice_of hi, hst], by simp, fun _ b hw hcb hbl => ?_⟩
    rw [marked_eq_holds (region hcb hbl)]
    simp [holds, hst]
  | true =>
    -- bits and words correspond, and the search for a bit is that of the bitmap
    have held : ∀ {b}, c ≤ b → b < limit →
        l.marked L b = (l.sliceAt i).bits.get ((b - L.bottom i) / 8) := by
      intro b hcb hbl
      rw [marked_eq_holds (region hcb hbl)]
      simp [holds, hst]
    have hse : (c - L.bottom i) / 8 ≤ (limit - L.bottom i) / 8 := by omega
    have hfrom := Bitmap.le_next (l.sliceAt i).bits hse
    have hto := Bitmap.next_le (l.sliceAt i).bits hse
    have hclear := fun j => Bitmap.not_get_of_lt_next (b := (l.sliceAt i).bits) (j := j) hse
    have hset := Bitmap.get_next (b := (l.sliceAt i).bits) hse
    have he : l.nextInRegion i c limit =
        .ok (if (l.sliceAt i).bits.next ((c - L.bottom i) / 8) ((limit - L.bottom i) / 8) <
            (limit - L.bottom i) / 8 then
          some (L.bottom i +
            8 * (l.sliceAt i).bits.next ((c - L.bottom i) / 8) ((limit - L.bottom i) / 8))
        else none) := by
      simp [nextInRegion, h.slice_of hi, hst, h.sliceWords_pos, h.regionStart_eq]
    generalize (l.sliceAt i).bits.next ((c - L.bottom i) / 8) ((limit - L.bottom i) / 8) = bit at *
    refine ⟨_, he, fun o ho => ?_, fun hn b hw hcb hbl => ?_⟩
    · split at ho
      · next hlt =>
        obtain rfl : L.bottom i + 8 * bit = o := Option.some.inj ho
        refine ⟨Layout.isWord_of_le hi (by omega) (by omega) (by omega),
          region (by omega) (by omega), by omega, by omega, ?_, fun b hw hcb hbl => ?_⟩
        · rw [held (by omega) (by omega),
            show (L.bottom i + 8 * bit - L.bottom i) / 8 = bit by omega]
          exact hset hlt
        · have := hw.aligned
          rw [held hcb (by omega)]
          exact hclear _ (by omega) (by omega)
      · contradiction
    · split at hn
      · contradiction
      · have := hw.aligned
        rw [held hcb hbl]
        exact hclear _ (by omega) (by omega)

theorem next_of (h : l.Laid L) (hi : i < L.count) (hb : L.bottom i ≤ c)
    (hl : limit ≤ L.bottom i + L.bytes) (hca : c % 8 = 0) (hla : limit % 8 = 0) :
    ∃ o, l.next c limit = .ok o ∧
      (o < limit → L.IsWord o ∧ L.regionOf o = i ∧ c ≤ o ∧ l.marked L o = true) ∧
      ∀ b, L.IsWord b → c ≤ b → b < limit → b < o → l.marked L b = false := by
  by_cases hcl : limit ≤ c
  · exact ⟨limit, by simp [next, nextFrom, hcl], by omega, fun b _ _ _ _ => by omega⟩
  · have hc : L.IsWord c := Layout.isWord_of_le hi hb (by omega) hca
    have hr : L.regionOf c = i := Layout.regionOf_eq hb (by omega)
    have hstop : min limit (l.regionStart (i + 1)) = limit := by
      rw [h.regionStart_eq, L.bottom_succ]
      omega
    obtain ⟨r, hn, hsome, hnone⟩ := nextInRegion_of h hi hb (by omega) hl hca hla
    have hstep : l.next c limit = match r with
        | some found => .ok found
        | none => l.nextFrom limit l.regions (l.regionStart (i + 1)) := by
      rw [next, nextFrom]
      simp only [hcl, if_false, h.regionOf_of hc, hr, hstop, hn, Checked.ok_bind]
      cases r <;> rfl
    cases r with
    | some o =>
      obtain ⟨hword, hregion, hco, hol, hmarked, hbelow⟩ := hsome o rfl
      exact ⟨o, hstep, fun _ => ⟨hword, hregion, hco, hmarked⟩,
        fun b hw hcb _ hbo => hbelow b hw hcb hbo⟩
    | none =>
      refine ⟨limit, ?_, by omega, fun b hw hcb hbl _ => hnone rfl b hw hcb hbl⟩
      rw [hstep]
      -- behind the region the limit is passed, whatever number of steps is left
      cases l.regions with
      | zero => rfl
      | succ n =>
        have : limit ≤ l.regionStart (i + 1) := by
          rw [h.regionStart_eq, L.bottom_succ]
          omega
        simp [nextFrom, this]

theorem next_of_nil (h : l.Laid L) (hi : i < L.count) (hb : L.bottom i ≤ c)
    (hl : limit ≤ L.bottom i + L.bytes) (hca : c % 8 = 0) (hla : limit % 8 = 0)
    (hnone : ∀ a, L.IsWord a → L.regionOf a = i → c ≤ a → l.marked L a = false) :
    ∃ o, l.next c limit = .ok o ∧ limit ≤ o := by
  obtain ⟨o, ho, hm, -⟩ := next_of h hi hb hl hca hla
  refine ⟨o, ho, Nat.le_of_not_lt fun hlt => ?_⟩
  obtain ⟨hword, hregion, hco, hmarked⟩ := hm hlt
  rw [hnone o hword hregion hco] at hmarked
  contradiction

theorem next_of_cons (h : l.Laid L) (hi : i < L.count) (hb : L.bottom i ≤ c)
    (hl : limit ≤ L.bottom i + L.bytes) (hca : c % 8 = 0) (hla : limit % 8 = 0) {p : Nat}
    (hp : L.IsWord p ∧ c ≤ p ∧ p < limit ∧ l.marked L p = true)
    (hlow : ∀ a, L.IsWord a → L.regionOf a = i → c ≤ a → l.marked L a = true → p ≤ a) :
    l.next c limit = .ok p := by
  obtain ⟨o, ho, hm, hbelow⟩ := next_of h hi hb hl hca hla
  have hop : o ≤ p := Nat.le_of_not_lt fun hlt => by
    rw [hbelow p hp.1 hp.2.1 hp.2.2.1 hlt] at hp
    exact Bool.false_ne_true hp.2.2.2
  obtain ⟨hword, hregion, hco, hmarked⟩ := hm (Nat.lt_of_le_of_lt hop hp.2.2.1)
  exact ho.trans (congrArg Except.ok (Nat.le_antisymm hop (hlow o hword hregion hco hmarked)))

section Walk

variable {σ : Type} {map : σ → LivenessMap} {visit : σ → Nat → Checked (Nat × σ)}

/-- A predicate of the objects that are left is an invariant of the walk over all of them. -/
structure WalkInvariant (map : σ → LivenessMap) (visit : σ → Nat → Checked (Nat × σ))
    (L : Layout) (i limit : Nat) (words : Nat → Nat) (os : List Nat) (I : List Nat → σ → Prop) :
    Prop where
  inside : ∀ o ∈ os, L.IsWord o ∧ L.regionOf o = i ∧ o < limit ∧ 0 < words o ∧
    o + 8 * words o < Word.limit
  laid : ∀ rest s, I rest s → (map s).Laid L
  only : ∀ rest s, I rest s → ∀ a, L.IsWord a → L.regionOf a = i →
    (map s).marked L a = true → a ∈ os
  all : ∀ rest s, I rest s → ∀ a ∈ rest, (map s).marked L a = true
  step : ∀ o rest s, I (o :: rest) s → ∃ s', visit s o = .ok (words o, s') ∧ I rest s'

variable {words : Nat → Nat} {os : List Nat} {I : List Nat → σ → Prop}

theorem walkFrom_of (v : WalkInvariant map visit L i limit words os I) (hi : i < L.count)
    (hl : limit ≤ L.bottom i + L.bytes) (hla : limit % 8 = 0)
    {done rest : List Nat} {n c : Nat} {s : σ} (hos : os = done ++ rest)
    (apart : rest.Pairwise fun o p => o + 8 * words o ≤ p) (hbc : L.bottom i ≤ c)
    (hca : c % 8 = 0) (hdone : ∀ o ∈ done, o < c) (hrest : ∀ o ∈ rest, c ≤ o)
    (hn : limit - c < n) (hI : I rest s) :
    ∃ s', walkFrom map visit limit n c s = .ok s' ∧ I [] s' := by
  -- by induction on the objects that are left: what is done lies below the cursor, the rest not
  induction rest generalizing done n c s with
  | nil =>
    obtain ⟨n, rfl⟩ : ∃ k, n = k + 1 := ⟨n - 1, by omega⟩
    obtain ⟨o, ho, hlo⟩ := next_of_nil (v.laid _ _ hI) hi hbc hl hca hla fun a hword hregion hca' =>
      Bool.eq_false_iff.mpr fun hmarked => by
        have := hdone a (by simpa [hos] using v.only _ _ hI a hword hregion hmarked)
        omega
    exact ⟨s, by simp [walkFrom, ho, hlo], hI⟩
  | cons p rest ih =>
    obtain ⟨n, rfl⟩ : ∃ k, n = k + 1 := ⟨n - 1, by omega⟩
    have hp : p ∈ os := by simp [hos]
    obtain ⟨hword, hregion, hbelow, hpos, hfits⟩ := v.inside p hp
    have hap := List.pairwise_cons.mp apart
    -- the first object that is left is the lowest marked word from here on
    have hnext : (map s).next c limit = .ok p := by
      refine next_of_cons (v.laid _ _ hI) hi hbc hl hca hla
        ⟨hword, hrest p (by simp), hbelow, v.all _ _ hI p (by simp)⟩ fun a hwa hra hpa hma => ?_
      have hmem := v.only _ _ hI a hwa hra hma
      rw [hos, List.mem_append, List.mem_cons] at hmem
      rcases hmem with hd | rfl | hr
      · have := hdone a hd
        omega
      · exact Nat.le_refl _
      · have := hap.1 a hr
        omega
    obtain ⟨s', hv, hI'⟩ := v.step p rest s hI
    have hadd : Address.addWords p (words p) = .ok (p + 8 * words p) :=
      Address.addWords_of (by omega)
    have hov := hword.aligned
    obtain ⟨s'', hw, hI''⟩ := ih (n := n) (c := p + 8 * words p) (s := s')
      (show os = (done ++ [p]) ++ rest by simp [hos]) hap.2
      (by have := hrest p (by simp); omega) (by omega)
      (fun q hq => by
        rcases List.mem_append.mp hq with hq | hq
        · have := hdone q hq
          have := hrest p (by simp)
          omega
        · simp at hq
          omega)
      hap.1 (by have := hrest p (by simp); omega) hI'
    refine ⟨s'', ?_, hI''⟩
    rw [walkFrom]
    simp only [hnext, show ¬ limit ≤ p by omega, if_false, hv, hpos, decide_true,
      Checked.unless_true, Checked.ok_bind, hadd, hw]

/-- The rule for walks. -/
theorem walk_of (v : WalkInvariant map visit L i limit words os I) (hi : i < L.count)
    (hl : limit ≤ L.bottom i + L.bytes) (hla : limit % 8 = 0)
    (apart : os.Pairwise fun o p => o + 8 * words o ≤ p) {s : σ} (hI : I os s) :
    ∃ s', walk map visit i limit s = .ok s' ∧ I [] s' := by
  have hm := v.laid _ _ hI
  cases hst : ((map s).sliceAt i).state.isMarked with
  | false =>
    have hnil : os = [] := by
      cases hos : os with
      | nil => rfl
      | cons o rest =>
        have ho : o ∈ os := by simp [hos]
        have := v.all _ _ hI o ho
        rw [marked_eq_holds (v.inside o ho).2.1, holds, hst] at this
        simp at this
    refine ⟨s, ?_, hnil ▸ hI⟩
    simp [walk, isRegionMarked, hm.slice_of hi, hst]
  | true =>
    have hw : walk map visit i limit s =
        walkFrom map visit limit (limit - L.bottom i + 1) (L.bottom i) s := by
      simp [walk, isRegionMarked, hm.slice_of hi, hst, hm.regionStart_eq]
    rw [hw]
    refine walkFrom_of v hi hl hla (show os = [] ++ os from rfl) apart (Nat.le_refl _)
      (L.bottom_mod i) (by simp) (fun o ho => ?_) (by omega) hI
    obtain ⟨hword, hregion, -⟩ := v.inside o ho
    exact hregion ▸ Layout.bottom_regionOf_le hword.start_le

end Walk

end RegionHeap.LivenessMap
