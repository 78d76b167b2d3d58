import RegionHeap.Liveness
import RegionHeap.Proofs.Layout

/-!
The liveness map as a set of marked words. Every operation on a word of the heap passes, and its
effect is stated on that set; a walk over a region visits the marked words in ascending order.
-/
set_option autoImplicit false

namespace RegionHeap.LivenessMap

variable {l : LivenessMap} {L : Layout} {a i : Nat}

def sliceAt (l : LivenessMap) (i : Nat) : LivenessSlice := Table.entry l.slices i

/-- Whether a bit of a region is set. The bits of a region that is not marked do not count. -/
def holds (l : LivenessMap) (i bit : Nat) : Bool :=
  (l.sliceAt i).state.isMarked && (l.sliceAt i).bits.get bit

/-- Whether a word of the heap is marked. -/
def marked (l : LivenessMap) (L : Layout) (a : Nat) : Bool :=
  l.holds (L.regionOf a) ((a - L.bottom (L.regionOf a)) / 8)

/-- The map covers the heap, nobody is setting up a slice, and a slice that is ready but not
marked holds no bits. -/
structure Laid (l : LivenessMap) (L : Layout) : Prop where
  start : l.start = L.start
  bytes : l.regionBytes = L.bytes
  size : l.slices.size = L.count
  ready : ∀ i, i < L.count → (l.sliceAt i).state ≠ .initializing
  clean : ∀ i, i < L.count → (l.sliceAt i).state = .initialized →
    ∀ bit, (l.sliceAt i).bits.get bit = false

theorem sliceAt_setSlice (hi : i < l.slices.size) (s : LivenessSlice) (j : Nat) :
    (l.setSlice i s).sliceAt j = if i = j then s else l.sliceAt j :=
  Table.entry_set hi s j

theorem Laid.regionStart_eq (h : l.Laid L) (i : Nat) : l.regionStart i = L.bottom i := by
  rw [regionStart, h.start, h.bytes, Layout.bottom]

theorem Laid.regionOf_of (h : l.Laid L) (ha : L.IsWord a) : l.regionOf a = .ok (L.regionOf a) := by
  have hr : (a - L.start) / L.bytes < L.count := ha.regionOf_lt
  simp only [regionOf, regions, h.start, h.bytes, h.size, ha.start_le, hr, decide_true,
    Checked.unless_true, Checked.ok_bind, Checked.pure_eq, Layout.regionOf]

theorem Laid.slice_of (h : l.Laid L) (hi : i < L.count) : l.slice i = .ok (l.sliceAt i) :=
  Table.get_of_lt (h.size ▸ hi)

theorem Laid.bitOf_of (h : l.Laid L) (ha : L.IsWord a) :
    l.bitOf i a = .ok ((a - L.bottom i) / 8) := by
  simp [bitOf, Address.isWordAligned, Address.bytesInWord, ha.aligned, h.regionStart_eq]

theorem Laid.sliceWords_pos (h : l.Laid L) : 0 < l.sliceWords := by
  have := L.words_pos
  have := L.cards
  rw [sliceWords, regionWords, h.bytes, Layout.bytes]
  omega

theorem Laid.setSlice (h : l.Laid L) {s : LivenessSlice} (hr : s.state ≠ .initializing)
    (hc : s.state = .initialized → ∀ bit, s.bits.get bit = false) (hi : i < L.count) :
    (l.setSlice i s).Laid L := by
  have hz : i < l.slices.size := h.size ▸ hi
  refine ⟨h.start, h.bytes, by simp [LivenessMap.setSlice, h.size], fun j hj => ?_,
    fun j hj => ?_⟩ <;> rw [sliceAt_setSlice hz]
  · split
    · exact hr
    · exact h.ready j hj
  · split
    · exact hc
    · exact h.clean j hj

theorem Laid.withCommitted (h : l.Laid L) (n : Nat) :
    ({ l with committed := n } : LivenessMap).Laid L :=
  ⟨h.start, h.bytes, h.size, h.ready, h.clean⟩

theorem bit_eq_iff {b : Nat} (ha : L.IsWord a) (hb : L.IsWord b)
    (hr : L.regionOf a = L.regionOf b) :
    (a - L.bottom (L.regionOf a)) / 8 = (b - L.bottom (L.regionOf b)) / 8 ↔ a = b := by
  have hfrom := Layout.bottom_regionOf_le ha.start_le
  have hfrom' := Layout.bottom_regionOf_le hb.start_le
  have hbottom := L.bottom_mod (L.regionOf a)
  have haligned := ha.aligned
  have haligned' := hb.aligned
  rw [← hr] at hfrom' ⊢
  omega

theorem marked_eq_holds (hi : L.regionOf a = i) :
    l.marked L a = l.holds i ((a - L.bottom i) / 8) := by
  subst hi; rfl

theorem markRegion_of (h : l.Laid L) (hi : i < L.count) :
    ∃ l', l.markRegion i = .ok l' ∧ l'.Laid L ∧ (l'.sliceAt i).state = .marked ∧
      ∀ j bit, l'.holds j bit = l.holds j bit := by
  have hz : i < l.slices.size := h.size ▸ hi
  have hs := h.slice_of hi
  cases hst : (l.sliceAt i).state with
  | initializing => exact absurd hst (h.ready i hi)
  | marked =>
    refine ⟨l, ?_, h, hst, fun _ _ => rfl⟩
    simp [markRegion, hs, hst, LazyState.isMarked]
  | initialized =>
    have hc := h.clean i hi hst
    refine ⟨l.setSlice i { l.sliceAt i with state := .marked }, ?_,
      h.setSlice (by simp) (by simp) hi, by simp [sliceAt_setSlice hz], fun j bit => ?_⟩
    · simp [markRegion, hs, hst, LazyState.isMarked, LazyState.ensure, LazyState.isInitialized,
        LazyState.mark]
    · unfold holds
      rw [sliceAt_setSlice hz]
      split
      · next e => subst e; simp [hc bit]
      · rfl
  | uninitialized =>
    refine ⟨{ l.setSlice i ⟨.marked, .empty⟩ with committed := l.committed + 1 }, ?_,
      (h.setSlice (by simp) (by simp) hi).withCommitted _,
      by simp [sliceAt, LivenessMap.setSlice, hz], fun j bit => ?_⟩
    · simp [markRegion, hs, hst, LazyState.isMarked, LazyState.ensure, LazyState.isInitialized,
        LazyState.mark, LazyState.begin, LazyState.complete, LivenessMap.setSlice]
    · have e : ∀ n, ({ l.setSlice i ⟨.marked, .empty⟩ with committed := n } : LivenessMap).sliceAt j
          = (l.setSlice i ⟨.marked, .empty⟩).sliceAt j := fun _ => rfl
      unfold holds
      rw [e, sliceAt_setSlice hz]
      split
      · next e => subst e; simp [hst, LazyState.isMarked]
      · rfl

theorem mark_of (h : l.Laid L) (ha : L.IsWord a) :
    ∃ l', l.mark a = .ok (l.marked L a, l') ∧ l'.Laid L ∧
      ∀ b, L.IsWord b → l'.marked L b = (decide (b = a) || l.marked L b) := by
  have hi := ha.regionOf_lt
  obtain ⟨l₁, hm, h₁, hst, hb⟩ := markRegion_of h hi
  have hz : L.regionOf a < l₁.slices.size := h₁.size ▸ hi
  have hget : (l₁.sliceAt (L.regionOf a)).bits.get ((a - L.bottom (L.regionOf a)) / 8) =
      l.marked L a := by
    unfold marked
    rw [← hb]
    simp [holds, hst, LazyState.isMarked]
  refine ⟨_, ?_, h₁.setSlice (s := { l₁.sliceAt (L.regionOf a) with
      bits := (l₁.sliceAt (L.regionOf a)).bits.insert ((a - L.bottom (L.regionOf a)) / 8) })
      (by simp [hst]) (by simp [hst]) hi, fun b hbw => ?_⟩
  · simp only [mark, h.regionOf_of ha, hm, h₁.bitOf_of ha, h₁.slice_of hi, Checked.ok_bind,
      Checked.pure_eq, hget]
  · unfold marked
    rw [← hb]
    unfold holds
    rw [sliceAt_setSlice hz]
    by_cases hr : L.regionOf a = L.regionOf b
    · have e := bit_eq_iff ha hbw hr
      rw [if_pos hr]
      simp only [hst, LazyState.isMarked, Bitmap.get_insert, hr.symm, eq_comm (a := b)]
      rw [hr] at e ⊢
      simp [← e]
    · have hne : b ≠ a := fun e => hr (by rw [e])
      simp [hr, hne]

theorem tryMark_of (h : l.Laid L) (ha : L.IsWord a) :
    ∃ l', l.tryMark a = .ok (!l.marked L a, l') ∧ l'.Laid L ∧
      ∀ b, L.IsWord b → l'.marked L b = (decide (b = a) || l.marked L b) := by
  obtain ⟨l', hm, hl, hb⟩ := mark_of h ha
  exact ⟨l', by simp [tryMark, hm], hl, hb⟩

theorem isMarked_of (h : l.Laid L) (ha : L.IsWord a) : l.isMarked a = .ok (l.marked L a) := by
  simp only [isMarked, h.regionOf_of ha, h.slice_of ha.regionOf_lt, h.bitOf_of ha,
    Checked.ok_bind, Checked.pure_eq]
  unfold marked holds
  cases (l.sliceAt (L.regionOf a)).state.isMarked <;> simp

theorem clear_of (h : l.Laid L) (ha : L.IsWord a) :
    ∃ l', l.clear a = .ok l' ∧ l'.Laid L ∧
      ∀ b, L.IsWord b → l'.marked L b = (!decide (b = a) && l.marked L b) := by
  have hi := ha.regionOf_lt
  have hz : L.regionOf a < l.slices.size := h.size ▸ hi
  cases hst : (l.sliceAt (L.regionOf a)).state.isMarked with
  | false =>
    refine ⟨l, by simp [clear, h.regionOf_of ha, h.slice_of hi, hst], h, fun b hbw => ?_⟩
    by_cases hba : b = a
    · subst hba
      simp [marked, holds, hst]
    · simp [hba]
  | true =>
    have hm : (l.sliceAt (L.regionOf a)).state = .marked := by
      simpa [LazyState.isMarked] using hst
    refine ⟨_, ?_, h.setSlice (s := { l.sliceAt (L.regionOf a) with
        bits := (l.sliceAt (L.regionOf a)).bits.erase ((a - L.bottom (L.regionOf a)) / 8) })
        (by simp [hm]) (by simp [hm]) hi, fun b hbw => ?_⟩
    · simp [clear, h.regionOf_of ha, h.slice_of hi, hst, h.bitOf_of ha]
    · unfold marked holds
      rw [sliceAt_setSlice hz]
      by_cases hr : L.regionOf a = L.regionOf b
      · have e := bit_eq_iff ha hbw hr
        rw [if_pos hr]
        simp only [hst, Bitmap.get_erase, eq_comm (a := b)]
        rw [hr] at e hst ⊢
        simp [← e, hst]
      · have hne : b ≠ a := fun e => hr (by rw [e])
        simp [hr, hne]

theorem marked_of_state (h : (l.sliceAt (L.regionOf a)).state.isMarked = false) :
    l.marked L a = false := by
  simp [marked, holds, h]

theorem reset_of (h : l.Laid L) (hi : i < L.count) :
    ∃ l', l.reset i = .ok l' ∧ l'.Laid L ∧
      (∀ b, l'.marked L b = (!decide (L.regionOf b = i) && l.marked L b)) ∧
      ∀ j, (l'.sliceAt j).state.isMarked =
        (!decide (j = i) && (l.sliceAt j).state.isMarked) := by
  have hz : i < l.slices.size := h.size ▸ hi
  cases hst : (l.sliceAt i).state.isMarked with
  | false =>
    refine ⟨l, by simp [reset, h.slice_of hi, hst], h, fun b => ?_, fun j => ?_⟩
    · by_cases hb : L.regionOf b = i
      · simp [marked, holds, hb, hst]
      · simp [hb]
    · by_cases hj : j = i
      · simp [hj, hst]
      · simp [hj]
  | true =>
    have hm : (l.sliceAt i).state = .marked := by simpa [LazyState.isMarked] using hst
    have hw : l.sliceWords ≠ 0 := Nat.ne_of_gt h.sliceWords_pos
    refine ⟨l.setSlice i ⟨.initialized, .empty⟩, ?_, h.setSlice (by simp) (by simp) hi,
      fun b => ?_, fun j => ?_⟩
    · simp [reset, h.slice_of hi, hm, LazyState.isMarked, LazyState.toInitialized,
        LazyState.isInitialized, clearedBits, hw]
    · unfold marked holds
      rw [sliceAt_setSlice hz]
      by_cases hb : L.regionOf b = i
      · simp [hb]
      · simp [hb, Ne.symm hb]
    · rw [sliceAt_setSlice hz]
      by_cases hj : i = j
      · simp [hj, LazyState.isMarked]
      · simp [hj, Ne.symm hj]

theorem resetAll_of (h : l.Laid L) :
    ∃ l', l.resetAll = .ok l' ∧ l'.Laid L ∧
      ∀ i, i < L.count → (l'.sliceAt i).state.isMarked = false := by
  obtain ⟨l', hf, hl, hm⟩ := Checked.foldlM_range_of (n := l.regions)
    (f := fun m region => LivenessMap.reset m region)
    (fun n m => m.Laid L ∧ ∀ i, i < n → (m.sliceAt i).state.isMarked = false)
    (fun i m hi ⟨hm, hb⟩ => by
      obtain ⟨m', he, hl, -, hk⟩ := reset_of hm (show i < L.count from h.size ▸ hi)
      refine ⟨m', he, hl, fun j hj => ?_⟩
      rw [hk]
      by_cases hji : j = i
      · simp [hji]
      · simp [hb j (by omega)])
    l ⟨h, fun i hi => by omega⟩
  exact ⟨l', hf, hl, fun i hi => hm i (show i < l.slices.size from h.size ▸ hi)⟩

end RegionHeap.LivenessMap
