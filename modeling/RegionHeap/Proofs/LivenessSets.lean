import RegionHeap.Proofs.LivenessStorage
import RegionHeap.Proofs.MarkedSet

/-!
The liveness map refines a set of marked words. It answers and is refused as the set is, and so does
its storage.
-/
set_option autoImplicit false

namespace RegionHeap

/-- What can be seen of a map between two operations. -/
structure LivenessView where
  isMarked : Nat → Checked Bool
  isRegionMarked : Nat → Checked Bool
  count : Nat → Checked Nat
  state : Nat → Checked LazyState
  committed : Nat

def LivenessStorage.view (s : LivenessStorage) : LivenessView where
  isMarked := s.isMarked
  isRegionMarked := s.isRegionMarked
  count := s.count
  state := Table.get s.states
  committed := s.committed

def LivenessMap.view (l : LivenessMap) : LivenessView where
  isMarked := l.isMarked
  isRegionMarked := l.isRegionMarked
  count := l.count
  state region := return (← l.slice region).state
  committed := l.committed

def MarkedSet.view (t : MarkedSet) : LivenessView where
  isMarked a := do
    t.checkBit (← t.regionOf a) a
    return decide (a ∈ t.words)
  isRegionMarked region := do
    t.checkRegion region
    return decide (region ∈ t.marked)
  count region := do
    t.checkRegion region
    return (t.wordsIn region).card
  state region := do
    t.checkRegion region
    return t.state region
  committed := ((Finset.range t.regions).filter fun r => (t.state r).isInitialized = true).card

theorem LivenessStorage.Stores.view {s : LivenessStorage} {l : LivenessMap} (h : s.Stores l) :
    s.view = l.view := by
  have hstate : Table.get s.states = fun r => (do return (← l.slice r).state) := funext fun r =>
    ((h.slice r).bind_right fun _ _ hx => hx.2.1).eq
  rw [LivenessStorage.view, LivenessMap.view, hstate, h.committed, funext h.isMarked,
    funext h.isRegionMarked, funext h.count]

namespace LivenessMap

open Checked MarkedSet

/-- The bits of the slices are the positions of the words. -/
structure Denotes (l : LivenessMap) (t : MarkedSet) : Prop where
  start : l.start = t.start
  bytes : l.regionBytes = t.regionBytes
  size : l.slices.size = t.regions
  whole : t.regionBytes = 512 * l.sliceWords
  some : 0 < l.sliceWords
  state : ∀ r, r < t.regions → (l.sliceAt r).state = t.state r
  bit : ∀ r, r < t.regions → ∀ i,
    (l.sliceAt r).bits.get i = true ↔ ∃ a ∈ t.wordsIn r, t.position a = i
  committed : l.committed = t.ready.card
  sound : t.Sound

variable {l : LivenessMap} {t : MarkedSet} {a r region : Nat}

namespace Denotes

theorem regionOf_eq (h : l.Denotes t) (a : Nat) : l.regionOf a = t.regionOf a := by
  rw [LivenessMap.regionOf, MarkedSet.regionOf, MarkedSet.region, h.start, h.bytes, regions, h.size]

theorem slice_of (h : l.Denotes t) (r : Nat) :
    Both (fun x _ => r < t.regions ∧ x = l.sliceAt r) (l.slice r) (t.checkRegion r) := by
  by_cases hr : r < t.regions
  · rw [LivenessMap.slice, Table.get_of_lt (h.size ▸ hr), checkRegion, decide_eq_true hr]
    exact .ok ⟨hr, rfl⟩
  · have hnone : l.slices[r]? = none := by
      rw [Array.getElem?_eq_none]
      rw [h.size]
      omega
    simp only [LivenessMap.slice, Table.get, hnone, checkRegion, hr, decide_false]
    exact .error _

theorem replace (h : l.Denotes t) (hr : region < t.regions) {slice : LivenessSlice}
    {words marked ready : Finset Nat} {n : Nat}
    (hstate : ∀ r, ({ t with words, marked, ready } : MarkedSet).state r =
      if region = r then slice.state else t.state r)
    (hothers : ∀ r, region ≠ r →
      ({ t with words, marked, ready } : MarkedSet).wordsIn r = t.wordsIn r)
    (hbit : ∀ i, slice.bits.get i = true ↔
      ∃ a ∈ ({ t with words, marked, ready } : MarkedSet).wordsIn region, t.position a = i)
    (hn : n = ready.card) (hs : ({ t with words, marked, ready } : MarkedSet).Sound) :
    ({ l.setSlice region slice with committed := n } : LivenessMap).Denotes
      { t with words, marked, ready } := by
  have hat : ∀ r, sliceAt { l.setSlice region slice with committed := n } r =
      if region = r then slice else l.sliceAt r := sliceAt_setSlice (h.size ▸ hr) slice
  refine ⟨h.start, h.bytes, by simp [setSlice, h.size], h.whole, h.some, fun r hlt => ?_,
    fun r hlt i => ?_, hn, hs⟩ <;> rw [hat]
  · rw [hstate, apply_ite LivenessSlice.state, h.state r hlt]
  · by_cases he : region = r
    · subst he
      rw [if_pos rfl]
      exact hbit i
    · rw [if_neg he, h.bit r hlt, hothers r he]
      rfl

theorem markRegion (h : l.Denotes t) (hr : region < t.regions) :
    ∃ l', l.markRegion region = .ok l' ∧ l'.Denotes (t.enter region) := by
  have hslice : l.slice region = .ok (l.sliceAt region) := Table.get_of_lt (h.size ▸ hr)
  have hst := h.state region hr
  have hsound := h.sound.enter hr
  rw [LivenessMap.markRegion, hslice, ok_bind, hst]
  by_cases hm : region ∈ t.marked
  · -- Nothing changes, in the set neither.
    have hsame : t.enter region = t := by
      simp [enter, Finset.insert_eq_of_mem hm, Finset.insert_eq_of_mem (h.sound.marked region hm)]
    refine ⟨l, ?_, hsame.symm ▸ h⟩
    simp [MarkedSet.state, hm, LazyState.isMarked]
  · have hempty := h.sound.wordsIn_of_unmarked hm
    by_cases hready : region ∈ t.ready
    · refine ⟨l.setSlice region { l.sliceAt region with state := .marked }, ?_,
        h.replace hr (fun _ => state_enter) (fun _ _ => rfl) (h.bit region hr) ?_ hsound⟩
      · simp [MarkedSet.state, hm, hready, LazyState.isMarked, LazyState.ensure,
          LazyState.isInitialized, LazyState.mark]
      · rw [h.committed, Finset.insert_eq_of_mem hready]
    · refine ⟨{ l.setSlice region ⟨.marked, .empty⟩ with committed := l.committed + 1 }, ?_,
        h.replace hr (fun _ => state_enter) (fun _ _ => rfl) (fun i => ?_) ?_ hsound⟩
      · simp [MarkedSet.state, hm, hready, LazyState.isMarked, LazyState.ensure,
          LazyState.isInitialized, LazyState.mark, LazyState.begin, LazyState.complete, setSlice]
      · change _ ↔ ∃ a ∈ t.wordsIn region, _
        simp [hempty]
      · rw [h.committed, Finset.card_insert_of_notMem hready]

theorem bitOf_eq (h : l.Denotes t) (a : Nat) : l.bitOf (t.region a) a = (do
    Fault.unless (Address.isWordAligned a) .precondition
    return t.position a) := by
  rw [bitOf, regionStart, h.start, h.bytes]
  rfl

theorem get_position (h : l.Denotes t) (hstart : t.start ≤ a) (hr : t.region a < t.regions)
    (haligned : a % 8 = 0) :
    (l.sliceAt (t.region a)).bits.get (t.position a) = decide (a ∈ t.words) := by
  rw [Bool.eq_iff_iff, h.bit _ hr, decide_eq_true_eq]
  constructor
  · rintro ⟨b, hb, hp⟩
    obtain ⟨hb, hbr⟩ := mem_wordsIn.mp hb
    obtain ⟨hbstart, hbligned, -⟩ := h.sound.words b hb
    exact position_inj hbstart hstart hbligned haligned hbr hp ▸ hb
  · exact fun ha => ⟨a, mem_wordsIn.mpr ⟨ha, rfl⟩, rfl⟩

theorem mark (h : l.Denotes t) (a : Nat) :
    Both (fun r _ => r.1 = decide (a ∈ t.words) ∧ r.2.Denotes (t.after (.mark a))) (l.mark a)
      (t.check (.mark a)) := by
  rw [LivenessMap.mark, check, h.regionOf_eq]
  refine .bind_same fun region hregion => ?_
  obtain ⟨hstart, hr, rfl⟩ := MarkedSet.regionOf_eq_ok.mp hregion
  obtain ⟨l₁, hl, h₁⟩ := h.markRegion hr
  have hslice : l₁.slice (t.region a) = .ok (l₁.sliceAt (t.region a)) :=
    Table.get_of_lt (h₁.size ▸ hr)
  have hbitOf : l₁.bitOf (t.region a) a = _ := h₁.bitOf_eq a
  rw [bind_of hl, hbitOf, ← bind_pure (Fault.unless _ _)]
  simp only [bind_assoc]
  refine .bind_same fun _ haligned => ?_
  have haligned := aligned_of (Fault.unless_eq_ok.mp haligned)
  simp only [hslice, ok_bind, pure_eq, h₁.state _ hr]
  refine .ok ⟨h₁.get_position hstart hr haligned, h₁.replace hr (fun _ => state_same)
    (fun r hne => wordsIn_insert.trans (if_neg hne)) (fun i => ?_) h₁.committed
    (h₁.sound.insertWord hstart haligned (Finset.mem_insert_self _ _))⟩
  have hins : ({ t.enter (t.region a) with words := insert a t.words } : MarkedSet).wordsIn
      (t.region a) = insert a (t.wordsIn (t.region a)) := wordsIn_insert.trans (if_pos rfl)
  rw [Bitmap.get_insert, Bool.or_eq_true, h₁.bit _ hr, decide_eq_true_eq, hins,
    Finset.exists_mem_insert]
  rfl

theorem clear (h : l.Denotes t) (a : Nat) :
    Both (fun l' _ => l'.Denotes (t.after (.clear a))) (l.clear a) (t.check (.clear a)) := by
  rw [LivenessMap.clear, check, h.regionOf_eq]
  refine .bind_same fun region hregion => ?_
  obtain ⟨hstart, hr, rfl⟩ := MarkedSet.regionOf_eq_ok.mp hregion
  have hslice : l.slice (t.region a) = .ok (l.sliceAt (t.region a)) :=
    Table.get_of_lt (h.size ▸ hr)
  have hst := h.state _ hr
  rw [hslice, ok_bind, hst]
  by_cases hm : t.region a ∈ t.marked
  · have hmarked : (t.state (t.region a)).isMarked = true := by
      simp [MarkedSet.state, hm, LazyState.isMarked]
    rw [checkBit_of_marked hm, h.bitOf_eq, hmarked, ← bind_pure (Fault.unless _ _)]
    simp only [bind_assoc]
    refine .bind_same fun _ haligned => ?_
    have haligned := aligned_of (Fault.unless_eq_ok.mp haligned)
    refine .ok (h.replace hr (fun _ => state_same) (fun r hne => ?_) (fun i => ?_) h.committed
      (h.sound.subset fun b hb => Finset.mem_of_mem_erase hb))
    · refine wordsIn_erase.trans (Finset.erase_eq_of_notMem fun ha => hne ?_)
      exact (mem_wordsIn.mp ha).2
    · change _ ↔ ∃ b ∈ ({ t with words := t.words.erase a } : MarkedSet).wordsIn (t.region a), _
      rw [Bitmap.get_erase, Bool.and_eq_true, h.bit _ hr, wordsIn_erase]
      simp only [Bool.not_eq_true', decide_eq_false_iff_not, Finset.mem_erase]
      constructor
      · rintro ⟨hne, b, hb, hp⟩
        exact ⟨b, ⟨fun he => hne (he ▸ hp), hb⟩, hp⟩
      · rintro ⟨b, ⟨hne, hb⟩, hp⟩
        refine ⟨fun he => hne ?_, b, hb, hp⟩
        obtain ⟨hb, hbr⟩ := mem_wordsIn.mp hb
        obtain ⟨hbstart, hbligned, -⟩ := h.sound.words b hb
        exact position_inj hbstart hstart hbligned haligned hbr (hp.trans he.symm)
  · have hnone : a ∉ t.words := fun ha => hm (h.sound.words a ha).2.2
    rw [after, Finset.erase_eq_of_notMem hnone, isMarked_state]
    simpa [checkBit, hm] using .ok h

theorem clearedBits_eq (h : l.Denotes t) (x : LivenessSlice) : l.clearedBits x = .empty :=
  if_neg (Nat.ne_of_gt h.some)

theorem clearRange (h : l.Denotes t) (region : Nat) :
    Both (fun l' _ => l'.Denotes (t.after (.clearRange region))) (l.clearRange region) (t.check (.clearRange region)) := by
  rw [check, ← bind_pure (t.checkRegion region)]
  refine (h.slice_of region).bind fun x _ _ hx => ?_
  obtain ⟨hr, rfl⟩ := hx
  rw [h.state region hr, h.sound.isInitialized_state]
  by_cases hready : region ∈ t.ready
  · rw [if_neg (by simp [hready]), h.clearedBits_eq]
    refine .ok (h.replace hr (fun _ => state_same) (fun r hne => ?_) (fun i => ?_) h.committed
      (h.sound.subset fun b hb => Finset.mem_of_mem_filter b hb))
    · exact wordsIn_without.trans (if_neg hne)
    · change _ ↔ ∃ b ∈ (t.without region).wordsIn region, _
      simp [wordsIn_without]
  · have hm : region ∉ t.marked := fun hm => hready (h.sound.marked region hm)
    rw [if_pos (by simp [hready]), after, without_of_empty (h.sound.wordsIn_of_unmarked hm)]
    exact .ok h

theorem reset (h : l.Denotes t) (region : Nat) :
    Both (fun l' _ => l'.Denotes (t.after (.reset region))) (l.reset region) (t.check (.reset region)) := by
  rw [check, ← bind_pure (t.checkRegion region)]
  refine (h.slice_of region).bind fun x _ _ hx => ?_
  obtain ⟨hr, rfl⟩ := hx
  rw [h.state region hr, isMarked_state]
  by_cases hm : region ∈ t.marked
  · have hready := h.sound.marked region hm
    rw [if_neg (by simp [hm]), h.clearedBits_eq, LazyState.toInitialized,
      h.sound.isInitialized_state, decide_eq_true hready]
    have hempty : (t.without region).wordsIn region = ∅ := wordsIn_without.trans (if_pos rfl)
    refine .ok (h.replace hr (fun r => state_unmark hready) (fun r hne => ?_) (fun i => ?_)
      h.committed ((h.sound.subset fun b hb => Finset.mem_of_mem_filter b hb).unmark hempty))
    · exact wordsIn_without.trans (if_neg hne)
    · change _ ↔ ∃ b ∈ (t.without region).wordsIn region, _
      simp [hempty]
  · rw [if_pos (by simp [hm]), after, without_of_empty (h.sound.wordsIn_of_unmarked hm),
      Finset.erase_eq_of_notMem hm]
    exact .ok h

theorem resetAll (h : l.Denotes t) :
    ∃ l', l.resetAll = .ok l' ∧ l'.Denotes (t.after .resetAll) := by
  obtain ⟨l', hl, h'⟩ := foldlM_range_of (n := l.regions) (f := LivenessMap.reset)
    (fun n l' => l'.Denotes { t with
      words := t.words.filter (n ≤ t.region ·), marked := t.marked.filter (n ≤ ·) })
    (fun n l₁ hn h₁ => by
      have hn : n < t.regions := by rwa [← h.size]
      have hreset := h₁.reset n
      rw [check, checkRegion, decide_eq_true hn] at hreset
      obtain ⟨l₂, hl, h₂⟩ := hreset.passes_left
      have hwords : (t.words.filter (n ≤ t.region ·)).filter (t.region · ≠ n) =
          t.words.filter (n + 1 ≤ t.region ·) := by
        rw [Finset.filter_filter]
        exact Finset.filter_congr fun a _ => by omega
      have hmarked : (t.marked.filter (n ≤ ·)).erase n = t.marked.filter (n + 1 ≤ ·) := by
        rw [← Finset.filter_ne', Finset.filter_filter]
        exact Finset.filter_congr fun r _ => by omega
      exact ⟨l₂, hl, by rw [← hwords, ← hmarked]; exact h₂⟩)
    l (by simpa using h)
  refine ⟨l', hl, ?_⟩
  have hlow : ∀ r ∈ t.marked, ¬l.regions ≤ r := fun r hr => by
    rw [regions, h.size, Nat.not_le]
    exact h.sound.ready r (h.sound.marked r hr)
  rwa [Finset.filter_false_of_mem fun a ha => hlow _ (h.sound.words a ha).2.2,
    Finset.filter_false_of_mem hlow] at h'

theorem uncommit (h : l.Denotes t) (region : Nat) :
    Both (fun l' _ => l'.Denotes (t.after (.uncommit region))) (l.uncommit region) (t.check (.uncommit region)) := by
  refine (h.slice_of region).bind fun x _ _ hx => ?_
  obtain ⟨hr, rfl⟩ := hx
  rw [h.state region hr, ← bind_pure (Fault.unless _ _)]
  simp only [bind_assoc]
  refine .bind_same fun _ hfree => ?_
  have hfree : t.state region = .initialized := by
    simpa using hfree
  obtain ⟨hm, hready⟩ := state_eq_initialized.mp hfree
  simp only [hfree, LazyState.toUninitialized, beq_self_eq_true, unless_true, ok_bind, pure_eq]
  refine .ok (h.replace hr (fun r => state_uncommit hm) (fun _ _ => rfl) (fun i => ?_) ?_
    (h.sound.uncommit hm))
  · change _ ↔ ∃ b ∈ t.wordsIn region, _
    simp [h.sound.wordsIn_of_unmarked hm]
  · rw [Finset.card_erase_of_mem hready, ← h.committed]
    rfl

theorem perform (h : l.Denotes t) (operation : LivenessOperation) :
    Both (fun r r' => r.1 = r'.1 ∧ r.2.Denotes r'.2) (l.perform operation)
      (t.perform operation) := by
  cases operation with
  | mark a => exact (h.mark a).bind fun _ _ _ ⟨hb, h'⟩ => .ok ⟨congrArg Option.some hb, h'⟩
  | tryMark a =>
    rw [LivenessMap.perform, tryMark, bind_assoc]
    exact (h.mark a).bind fun _ _ _ ⟨hb, h'⟩ => .ok ⟨by simp [hb, answer], h'⟩
  | clear a => exact (h.clear a).bind fun _ _ _ h' => .ok ⟨rfl, h'⟩
  | clearRange region => exact (h.clearRange region).bind fun _ _ _ h' => .ok ⟨rfl, h'⟩
  | reset region => exact (h.reset region).bind fun _ _ _ h' => .ok ⟨rfl, h'⟩
  | resetAll =>
    obtain ⟨l', hl, h'⟩ := h.resetAll
    rw [LivenessMap.perform, hl]
    exact .ok ⟨rfl, h'⟩
  | uncommit region => exact (h.uncommit region).bind fun _ _ _ h' => .ok ⟨rfl, h'⟩

theorem isMarked (h : l.Denotes t) (a : Nat) : l.isMarked a = t.view.isMarked a := by
  rw [LivenessMap.isMarked, h.regionOf_eq]
  refine Both.eq (.bind_same fun region hregion => ?_)
  obtain ⟨hstart, hr, rfl⟩ := MarkedSet.regionOf_eq_ok.mp hregion
  have hslice : l.slice (t.region a) = .ok (l.sliceAt (t.region a)) :=
    Table.get_of_lt (h.size ▸ hr)
  rw [hslice, ok_bind, h.state _ hr, isMarked_state, h.bitOf_eq]
  by_cases hm : t.region a ∈ t.marked
  · rw [checkBit_of_marked hm, decide_eq_true hm]
    simp only [bind_assoc]
    refine .bind_same fun _ haligned => .ok (h.get_position hstart hr ?_)
    exact aligned_of (Fault.unless_eq_ok.mp haligned)
  · have hnone : a ∉ t.words := fun ha => hm (h.sound.words a ha).2.2
    simpa [checkBit, hm, hnone] using .ok rfl

theorem isRegionMarked (h : l.Denotes t) (region : Nat) :
    l.isRegionMarked region = t.view.isRegionMarked region := by
  refine Both.eq ((h.slice_of region).bind fun x _ _ hx => .ok ?_)
  obtain ⟨hr, rfl⟩ := hx
  rw [h.state region hr, isMarked_state]

/-- Each word of a region has a bit of its own. -/
theorem card_wordsIn (h : l.Denotes t) (hr : region < t.regions) :
    (l.sliceAt region).bits.count l.sliceWords = (t.wordsIn region).card := by
  have hlt : ∀ a ∈ t.wordsIn region, t.position a < 64 * l.sliceWords := by
    intro a ha
    have hwhole := h.whole
    have hpos := h.some
    have hmod := Nat.mod_lt (a - t.start) (show 0 < t.regionBytes by omega)
    rw [position, MarkedSet.region, ← Nat.sub_sub, ← Nat.mod_eq_sub_div_mul]
    omega
  have himage : (t.wordsIn region).image t.position =
      ((l.sliceAt region).bits.toList (64 * l.sliceWords)).toFinset := by
    ext i
    rw [Finset.mem_image, List.mem_toFinset, Bitmap.toList, List.mem_filter, List.mem_range,
      h.bit region hr]
    constructor
    · rintro ⟨a, ha, rfl⟩
      exact ⟨hlt a ha, a, ha, rfl⟩
    · exact fun hi => hi.2
  have hnodup : ((l.sliceAt region).bits.toList (64 * l.sliceWords)).Nodup :=
    List.nodup_range.filter _
  rw [Bitmap.count_eq, ← List.toFinset_card_of_nodup hnodup, ← himage,
    Finset.card_image_of_injOn (h.sound.position_injOn region)]

theorem count (h : l.Denotes t) (region : Nat) : l.count region = t.view.count region := by
  refine Both.eq ((h.slice_of region).bind fun x _ _ hx => ?_)
  obtain ⟨hr, rfl⟩ := hx
  rw [h.state region hr, isMarked_state, h.card_wordsIn hr]
  by_cases hm : region ∈ t.marked
  · simpa [hm] using .ok rfl
  · simpa [hm, h.sound.wordsIn_of_unmarked hm] using .ok rfl

theorem view (h : l.Denotes t) : l.view = t.view := by
  have hstate : ∀ r, (do return (← l.slice r).state) = t.view.state r := fun r =>
    Both.eq ((h.slice_of r).bind fun x _ _ hx => .ok (by rw [hx.2, h.state r hx.1]))
  have hready : ((Finset.range t.regions).filter fun r => (t.state r).isInitialized = true) =
      t.ready := by
    ext r
    rw [Finset.mem_filter, Finset.mem_range, h.sound.isInitialized_state, decide_eq_true_eq]
    exact ⟨fun hr => hr.2, fun hr => ⟨h.sound.ready r hr, hr⟩⟩
  rw [LivenessMap.view, funext h.isMarked, funext h.isRegionMarked, funext h.count, funext hstate,
    h.committed, ← hready]
  rfl

end Denotes

theorem denotes_of_create {system : Mapping.System} {start regions regionBytes : Nat}
    (hbytes : 512 ≤ regionBytes) (hc : create system start regions regionBytes = .ok l) :
    l.Denotes { start, regions, regionBytes } := by
  have hcreate := LivenessStorage.create_stores system start regions hbytes
  rw [hc] at hcreate
  obtain ⟨s, -, hs, hstart, hregion, hslices, hcommitted⟩ := hcreate.passes_left
  have hslice : ∀ r, r < regions → l.sliceAt r = {} := fun r hr => by
    rw [sliceAt, hslices]
    exact Table.entry_replicate _ _ hr
  refine ⟨hstart, hregion, by simp [hslices], hregion.symm.trans hs.bytes, hs.some,
    fun r hr => ?_, fun r hr i => ?_, hcommitted, ?_⟩
  · rw [hslice r hr]
    simp [MarkedSet.state]
  · rw [hslice r hr]
    simp [wordsIn]
  · exact ⟨by simp, by simp, by simp⟩

/-- Whatever a program does with a map, the map and its storage answer and are refused as the set
of marked words is, and show exactly what is in it. -/
theorem run_as_marked_set {system : Mapping.System} {start regions regionBytes : Nat}
    (hbytes : 512 ≤ regionBytes) (hc : create system start regions regionBytes = .ok l)
    (operations : List LivenessOperation) :
    Both (fun r r' => r.1 = r'.1 ∧ r.2.view = r'.2.view ∧ r'.2.Separate)
        (runAll LivenessMap.perform l operations)
        (runAll MarkedSet.perform { start, regions, regionBytes } operations) ∧
      ∃ s, LivenessStorage.create system start regions regionBytes = .ok s ∧
        Both (fun r r' => r.1 = r'.1 ∧ r.2.view = r'.2.view ∧ r'.2.Separate)
          (runAll LivenessStorage.perform s operations)
          (runAll MarkedSet.perform { start, regions, regionBytes } operations) := by
  have hmap := Both.runAll (R := Denotes) (fun _ _ operation h => h.perform operation)
    (denotes_of_create hbytes hc) operations
  have hcreate := LivenessStorage.create_stores system start regions hbytes
  rw [hc] at hcreate
  obtain ⟨s, hs, hstores, -⟩ := hcreate.passes_left
  have hstorage := Both.runAll (R := LivenessStorage.Stores)
    (fun _ _ operation h => h.perform operation) hstores operations
  refine ⟨hmap.imp fun _ _ _ ⟨ha, h⟩ => ⟨ha, h.view, h.sound.separate⟩, s, hs, ?_⟩
  exact (hstorage.trans hmap).imp fun _ _ _ ⟨_, ⟨ha, h⟩, ha', h'⟩ =>
    ⟨ha.trans ha', h.view.trans h'.view, h'.sound.separate⟩

/-- A region that was reset and gave its storage back is clear when it is marked again. -/
theorem marked_again_of_uncommit :
    ∃ l, create ⟨fun _ _ => .ok 0x7ffff7a1d000, fun _ _ => .ok ()⟩ (1 <<< 46) 2 (1 <<< 16) =
      .ok l ∧ ∃ r,
      runAll LivenessMap.perform l [.mark (1 <<< 46 + 1 <<< 16 + 616), .reset 1, .uncommit 1,
        .mark (1 <<< 46 + 1 <<< 16 + 40)] = .ok r ∧
      r.1 = [Option.some false, none, none, Option.some false] ∧
      r.2.isMarked (1 <<< 46 + 1 <<< 16 + 616) = .ok false ∧ r.2.count 1 = .ok 1 := by
  obtain ⟨l, hl⟩ : ∃ l, create ⟨fun _ _ => .ok 0x7ffff7a1d000, fun _ _ => .ok ()⟩ (1 <<< 46) 2
      (1 <<< 16) = .ok l := ⟨_, rfl⟩
  obtain ⟨t, ht, hmarked, hcount⟩ : ∃ t, runAll MarkedSet.perform
      { start := 1 <<< 46, regions := 2, regionBytes := 1 <<< 16 }
      [.mark (1 <<< 46 + 1 <<< 16 + 616), .reset 1, .uncommit 1,
        .mark (1 <<< 46 + 1 <<< 16 + 40)] =
        .ok ([Option.some false, none, none, Option.some false], t) ∧
      t.view.isMarked (1 <<< 46 + 1 <<< 16 + 616) = .ok false ∧ t.view.count 1 = .ok 1 :=
    ⟨_, rfl, rfl, rfl⟩
  have hrun := (run_as_marked_set (by decide) hl [.mark (1 <<< 46 + 1 <<< 16 + 616), .reset 1,
    .uncommit 1, .mark (1 <<< 46 + 1 <<< 16 + 40)]).1
  rw [ht] at hrun
  obtain ⟨r, hr, ha, hview, -⟩ := hrun.passes_left
  refine ⟨l, hl, r, hr, ha, ?_, ?_⟩
  · exact (congrFun (congrArg LivenessView.isMarked hview) _).trans hmarked
  · exact (congrFun (congrArg LivenessView.count hview) _).trans hcount

end LivenessMap

end RegionHeap
