import RegionHeap.Proofs.Marking

/-!
What a full collection does with each region. The regions of a humongous object share the fate of
its first one; every other region is decided about on its own.
-/
set_option autoImplicit false

namespace RegionHeap.Heap

variable {h : Heap} {L : Layout} {clearSoft : Bool} {threshold i j : Nat}

/-- The words of the objects that marking finds in a region. -/
noncomputable def liveWords (h : Heap) (clearSoft : Bool) (i : Nat) : Nat :=
  Word.total ((h.liveIn clearSoft i).map (Object.size h.memory))

/-- The first region of the humongous object that a region belongs to, or the region itself. -/
def owner (h : Heap) (i : Nat) : Nat :=
  if (h.region i).kind.isContinuesHumongous then (h.region i).humongousStart.getD i else i

/-- What becomes of a region that decides about itself. -/
noncomputable def ownFate (h : Heap) (clearSoft : Bool) (threshold i : Nat) : RegionAttr :=
  let r := h.region i
  if r.kind.isFree then .free
  else if r.kind.isClosedArchive then .skipMarking
  else if r.kind.isStartsHumongous then
    if h.liveIn clearSoft i ≠ [] ∨ r.isPinned = true then .skipCompacting else .free
  else if r.isPinned then
    if r.kind.isOpenArchive ∧ h.liveWords clearSoft i = 0 then .free else .skipCompacting
  else if h.liveWords clearSoft i = 0 then .free
  else if threshold < h.liveWords clearSoft i then .skipCompacting
  else .compacting

/-- What becomes of a region. -/
noncomputable def fate (h : Heap) (clearSoft : Bool) (threshold i : Nat) : RegionAttr :=
  h.ownFate clearSoft threshold (h.owner i)

open Classical in
/-- The humongous objects that may move, by their first regions. -/
noncomputable def movable (h : Heap) (clearSoft : Bool) (i : Nat) : Prop :=
  (h.region i).kind.isStartsHumongous ∧ h.liveIn clearSoft i ≠ [] ∧ (h.region i).isPinned = false

/-- A region after it was decided about. -/
noncomputable def sorted (h : Heap) (clearSoft : Bool) (threshold i : Nat) : Region :=
  if h.fate clearSoft threshold i = .free ∧ (h.region i).kind.isFree = false then
    (h.region i).clear
  else h.region i

theorem owner_of_not_continues (hk : (h.region i).kind.isContinuesHumongous = false) :
    h.owner i = i := by
  simp [owner, hk]

theorem kind_eq_starts (hk : (h.region i).kind.isStartsHumongous) :
    (h.region i).kind = .startsHumongous := by
  simpa [RegionKind.isStartsHumongous] using hk

theorem owner_of_starts (hk : (h.region i).kind.isStartsHumongous) : h.owner i = i := by
  apply owner_of_not_continues
  rw [kind_eq_starts hk]
  rfl

theorem fate_of_free (hk : (h.region i).kind.isFree) : h.fate clearSoft threshold i = .free := by
  have hkind : (h.region i).kind = .free := by simpa [RegionKind.isFree] using hk
  have hc : (h.region i).kind.isContinuesHumongous = false := by
    rw [hkind]
    rfl
  rw [fate, owner_of_not_continues hc, ownFate]
  exact if_pos hk

theorem fate_of_owner {s : Nat} (hs : (h.region s).kind.isStartsHumongous) (ho : h.owner i = s) :
    h.fate clearSoft threshold i =
      if h.liveIn clearSoft s ≠ [] ∨ (h.region s).isPinned = true then .skipCompacting
      else .free := by
  rw [fate, ho, ownFate, kind_eq_starts hs]
  simp only [show RegionKind.startsHumongous.isFree = false from rfl,
    show RegionKind.startsHumongous.isClosedArchive = false from rfl,
    show RegionKind.startsHumongous.isStartsHumongous = true from rfl, Bool.false_eq_true,
    if_false, if_true]

theorem fate_of_closed (hk : (h.region i).kind.isClosedArchive) :
    h.fate clearSoft threshold i = .skipMarking := by
  have hkind : (h.region i).kind = .closedArchive := by
    simpa [RegionKind.isClosedArchive] using hk
  have hc : (h.region i).kind.isContinuesHumongous = false := by
    rw [hkind]
    rfl
  rw [fate, owner_of_not_continues hc, ownFate, hkind]
  rfl

theorem not_closed_of_not_pinned (hp : (h.region i).isPinned = false) :
    (h.region i).kind.isClosedArchive = false := by
  rw [Region.isPinned, Bool.or_eq_false_iff, RegionKind.isArchive, Bool.or_eq_false_iff] at hp
  exact hp.1.2

theorem fate_of_ordinary (hk : (h.region i).kind.isOrdinary)
    (ha : (h.region i).kind.isClosedArchive = false) : h.fate clearSoft threshold i =
      if (h.region i).isPinned = true then
        if (h.region i).kind.isOpenArchive ∧ h.liveWords clearSoft i = 0 then .free
        else .skipCompacting
      else if h.liveWords clearSoft i = 0 then .free
      else if threshold < h.liveWords clearSoft i then .skipCompacting
      else .compacting := by
  obtain ⟨hfree, -, hstarts, hcont⟩ := RegionKind.not_of_ordinary hk
  rw [fate, owner_of_not_continues hcont, ownFate]
  simp only [hfree, ha, hstarts, Bool.false_eq_true, if_false]

/-- A region is free, sealed, filled with objects, or part of a humongous object. -/
theorem kind_cases (h : Heap) (i : Nat) : (h.region i).kind.isFree = true ∨
    (h.region i).kind.isClosedArchive = true ∨
    ((h.region i).kind.isOrdinary = true ∧ (h.region i).kind.isClosedArchive = false) ∨
    (h.region i).kind.isStartsHumongous = true ∨
    (h.region i).kind.isContinuesHumongous = true := by
  cases he : (h.region i).kind <;> simp [RegionKind.isFree, RegionKind.isClosedArchive,
    RegionKind.isOrdinary, RegionKind.isHumongous, RegionKind.isStartsHumongous,
    RegionKind.isContinuesHumongous]

theorem sorted_eq (hf : h.fate clearSoft threshold i ≠ .free) :
    h.sorted clearSoft threshold i = h.region i := by
  rw [sorted, if_neg fun e => hf e.1]

namespace Consistent

theorem owner_of_continues (w : h.Consistent L) (hi : i < L.count)
    (hk : (h.region i).kind.isContinuesHumongous) :
    h.owner i < i ∧ (h.region (h.owner i)).kind.isStartsHumongous ∧
      i < h.owner i + h.humongousSpan (h.region (h.owner i)) := by
  obtain ⟨s, hs, hks, hlt⟩ := w.continued i hi hk
  have := ((w.humongous s (by omega) hks).later i hs hlt).2
  have ho : h.owner i = s := by simp [owner, hk, this]
  rw [ho]
  exact ⟨hs, hks, hlt⟩

theorem owner_le (w : h.Consistent L) (hi : i < L.count) : h.owner i ≤ i := by
  cases hk : (h.region i).kind.isContinuesHumongous with
  | true => exact Nat.le_of_lt (w.owner_of_continues hi hk).1
  | false => exact Nat.le_of_eq (owner_of_not_continues hk)

/-- The regions that a humongous object owns are the ones it spans. -/
theorem owner_eq_iff (w : h.Consistent L) (hj : j < L.count) (hi : i < L.count)
    (hk : (h.region i).kind.isStartsHumongous) :
    h.owner j = i ↔ i ≤ j ∧ j < i + h.humongousSpan (h.region i) := by
  constructor
  · rintro rfl
    cases hc : (h.region j).kind.isContinuesHumongous with
    | true =>
      have := w.owner_of_continues hj hc
      exact ⟨by omega, this.2.2⟩
    | false =>
      rw [owner_of_not_continues hc] at hk ⊢
      have := w.span_pos hj hk
      omega
  · rintro ⟨hfrom, hto⟩
    rcases Nat.eq_or_lt_of_le hfrom with rfl | hlt
    · exact owner_of_starts hk
    · obtain ⟨hkj, hsj⟩ := (w.humongous i hi hk).later j hlt hto
      simp [owner, hkj, hsj, RegionKind.isContinuesHumongous]

theorem owner_eq_self_iff (w : h.Consistent L) (hj : j < L.count)
    (hk : (h.region i).kind.isStartsHumongous = false) :
    h.owner j = i ↔ j = i ∧ (h.region i).kind.isContinuesHumongous = false := by
  constructor
  · rintro rfl
    cases hc : (h.region j).kind.isContinuesHumongous with
    | true =>
      rw [(w.owner_of_continues hj hc).2.1] at hk
      contradiction
    | false =>
      rw [owner_of_not_continues hc]
      exact ⟨rfl, hc⟩
  · rintro ⟨rfl, hc⟩
    exact owner_of_not_continues hc

theorem owner_lt (w : h.Consistent L) (hi : i < L.count) : h.owner i < L.count :=
  Nat.lt_of_le_of_lt (w.owner_le hi) hi

theorem liveWords_eq_zero (w : h.Consistent L) (hi : i < L.count) :
    h.liveWords clearSoft i = 0 ↔ h.liveIn clearSoft i = [] := by
  constructor
  · intro hz
    cases hl : h.liveIn clearSoft i with
    | nil => rfl
    | cons o rest =>
      have ho : o ∈ h.liveIn clearSoft i := by simp [hl]
      have := w.size_ge (w.isObject hi (mem_liveIn.mp ho).1)
      rw [liveWords, hl, List.map_cons, Word.total] at hz
      omega
  · intro hn
    simp [liveWords, hn, Word.total]

theorem liveIn_sorted (w : h.Consistent L) (hi : i < L.count) :
    (h.liveIn clearSoft i).Pairwise (· < ·) := by
  unfold liveIn
  apply List.Pairwise.filter
  by_cases hk : (h.region i).kind.isOrdinary
  · exact (w.chain hi hk).sorted
  · unfold objectsIn
    rw [if_neg hk]
    split <;> simp

theorem liveIn_eq_nil (w : h.Consistent L) (hi : i < L.count)
    (hk : (h.region i).kind = .free ∨ (h.region i).kind = .closedArchive ∨
      (h.region i).kind = .continuesHumongous) : h.liveIn clearSoft i = [] := by
  apply List.eq_nil_iff_forall_not_mem.mpr
  intro o ho
  obtain ⟨hm, ht⟩ := mem_liveIn.mp ho
  rcases hk with hk | hk | hk
  · rcases Built.cases_of_mem hm with h' | h' <;> rw [hk] at h' <;> contradiction
  · obtain ⟨hw, hr, -⟩ := w.object_of hi hm
    apply ht.not_archived
    rw [w.inClosedArchive_iff hw, hr, hk]
    rfl
  · rcases Built.cases_of_mem hm with h' | h' <;> rw [hk] at h' <;> contradiction

theorem fate_of_humongous (w : h.Consistent L) (hi : i < L.count)
    (hk : (h.region i).kind.isStartsHumongous = true ∨
      (h.region i).kind.isContinuesHumongous = true) : h.fate clearSoft threshold i =
      if h.liveIn clearSoft (h.owner i) ≠ [] ∨ (h.region (h.owner i)).isPinned = true then
        .skipCompacting
      else .free := by
  rcases hk with hk | hk
  · rw [owner_of_starts hk]
    exact fate_of_owner hk (owner_of_starts hk)
  · exact fate_of_owner (w.owner_of_continues hi hk).2.1 rfl

theorem liveIn_eq_nil_of_fate (w : h.Consistent L) (hi : i < L.count)
    (hf : (h.fate clearSoft threshold i).isMarkedThrough = false) :
    h.liveIn clearSoft i = [] := by
  rcases h.kind_cases i with hk | hk | ⟨hk, ha⟩ | hk | hk
  · exact w.liveIn_eq_nil hi (.inl (by simpa [RegionKind.isFree] using hk))
  · exact w.liveIn_eq_nil hi (.inr (.inl (by simpa [RegionKind.isClosedArchive] using hk)))
  · rw [fate_of_ordinary hk ha] at hf
    by_cases hz : h.liveWords clearSoft i = 0
    · exact (w.liveWords_eq_zero hi).mp hz
    · simp only [hz, and_false, if_false] at hf
      split at hf
      · contradiction
      · split at hf <;> contradiction
  · rw [fate_of_owner hk (owner_of_starts hk)] at hf
    split at hf
    · contradiction
    · next hno => exact Classical.not_not.mp fun hne => hno (.inl hne)
  · exact w.liveIn_eq_nil hi (.inr (.inr (by simpa [RegionKind.isContinuesHumongous] using hk)))

theorem fate_eq_skipMarking (w : h.Consistent L) (hi : i < L.count) :
    h.fate clearSoft threshold i = .skipMarking ↔ (h.region i).kind.isClosedArchive = true := by
  refine ⟨fun hf => ?_, fate_of_closed⟩
  rcases h.kind_cases i with hk | hk | ⟨hk, ha⟩ | hk
  · rw [fate_of_free hk] at hf
    contradiction
  · exact hk
  · rw [fate_of_ordinary hk ha] at hf
    repeat' split at hf
    all_goals contradiction
  · rw [w.fate_of_humongous hi hk] at hf
    split at hf <;> contradiction

/-- Objects slide through the ordinary regions that nobody pins and that are not too full. -/
theorem fate_eq_compacting (w : h.Consistent L) (hi : i < L.count) :
    h.fate clearSoft threshold i = .compacting ↔
      (h.region i).kind.isOrdinary = true ∧ (h.region i).isPinned = false ∧
        h.liveWords clearSoft i ≠ 0 ∧ h.liveWords clearSoft i ≤ threshold := by
  constructor
  · intro hf
    rcases h.kind_cases i with hk | hk | ⟨hk, ha⟩ | hk
    · rw [fate_of_free hk] at hf
      contradiction
    · rw [fate_of_closed hk] at hf
      contradiction
    · rw [fate_of_ordinary hk ha] at hf
      split at hf
      · split at hf <;> contradiction
      · next hp =>
        split at hf
        · contradiction
        · next hz =>
          split at hf
          · contradiction
          · next hlt => exact ⟨hk, by simpa using hp, hz, Nat.le_of_not_lt hlt⟩
    · rw [w.fate_of_humongous hi hk] at hf
      split at hf <;> contradiction
  · rintro ⟨hk, hp, hz, hle⟩
    rw [fate_of_ordinary hk (not_closed_of_not_pinned hp), if_neg (by simp [hp]), if_neg hz,
      if_neg (Nat.not_lt.mpr hle)]

theorem liveIn_apart (w : h.Consistent L) (hi : i < L.count) :
    (h.liveIn clearSoft i).Pairwise fun o p => o + 8 * Object.size h.memory o ≤ p := by
  refine (w.liveIn_sorted hi).imp_of_mem fun ho hp hlt => ?_
  exact w.apart (w.isObject hi (mem_liveIn.mp ho).1) (w.isObject hi (mem_liveIn.mp hp).1) hlt

theorem liveIn_inside (w : h.Consistent L) (hi : i < L.count) {o : Nat}
    (ho : o ∈ h.liveIn clearSoft i) :
    L.IsWord o ∧ L.regionOf o = i ∧ o < (h.region i).top ∧ 0 < Object.size h.memory o ∧
      o + 8 * Object.size h.memory o < Word.limit := by
  have hm := (mem_liveIn.mp ho).1
  obtain ⟨hword, hregion, htop, hlimit⟩ := w.object_of hi hm
  have hsize := w.size_ge (w.isObject hi hm)
  have hend := L.limit_lt
  unfold Object.limit at hlimit
  exact ⟨hword, hregion, htop, by omega, by omega⟩

/-- A walk visits the live objects, if the marks stay as they are. -/
theorem walkInvariant (w : h.Consistent L) (hi : i < L.count) {l : LivenessMap} (hl : l.Laid L)
    (he : ∀ o, L.IsWord o → (l.marked L o = true ↔ h.Traced clearSoft o)) {limit : Nat}
    (ht : limit = (h.region i).top) {σ : Type} {visit : σ → Nat → Checked (Nat × σ)}
    {I : List Nat → σ → Prop}
    (split : ∀ left s, I left s → ∃ seen, h.liveIn clearSoft i = seen ++ left)
    (step : ∀ o left s, I (o :: left) s →
      ∃ s', visit s o = .ok (Object.size h.memory o, s') ∧ I left s') :
    LivenessMap.WalkInvariant (fun _ => l) visit L i limit (Object.size h.memory)
      (h.liveIn clearSoft i) I where
  inside o ho := ht ▸ w.liveIn_inside hi ho
  laid _ _ _ := hl
  only _ _ _ a ha hr hm := hr ▸ w.mem_liveIn_regionOf ((he a ha).mp hm)
  all left s hI a hleft := by
    obtain ⟨seen, hs⟩ := split left s hI
    have hlive : a ∈ h.liveIn clearSoft i := hs ▸ List.mem_append_right _ hleft
    exact (he a (w.liveIn_inside hi hlive).1).mpr (mem_liveIn.mp hlive).2
  step := step

theorem liveIn_unique (w : h.Consistent L) {j o : Nat} (hi : i < L.count) (hj : j < L.count)
    (ho : o ∈ h.liveIn clearSoft i) (ho' : o ∈ h.liveIn clearSoft j) : i = j :=
  (w.liveIn_inside hi ho).2.1.symm.trans (w.liveIn_inside hj ho').2.1

/-- Once everything traced is marked, and nothing else, the marks are the live objects. -/
theorem marksOf_eq_liveIn (w : h.Consistent L) (hi : i < L.count) {l : LivenessMap}
    (he : ∀ o, L.IsWord o → (l.marked L o = true ↔ h.Traced clearSoft o)) :
    l.marksOf L i = h.liveIn clearSoft i := by
  apply eq_of_ascending (l.sorted_marksOf L i) (w.liveIn_sorted hi)
  intro o
  rw [LivenessMap.mem_marksOf hi, mem_liveIn]
  constructor
  · rintro ⟨hw, rfl, hm⟩
    have ht := (he o hw).mp hm
    exact ⟨(w.mem_objectsIn (w.traced_isObject ht)).2, ht⟩
  · rintro ⟨hm, ht⟩
    obtain ⟨hw, hr, -⟩ := w.object_of hi hm
    exact ⟨hw, hr, (he o hw).mpr ht⟩

end Consistent

end RegionHeap.Heap
