import RegionHeap.Proofs.Operating

/-!
Giving regions back. A region that is given back is cleared, loses its marks and comes to its
place in the free list. The regions of a humongous object are given back one by one, in any order;
in between they are free or part of an object that is no longer whole.
-/
set_option autoImplicit false

namespace RegionHeap.Heap

variable {h h' : Heap} {L : Layout} {i : Nat} {regions : List Nat}

theorem Framed.refl (h : Heap) : h.Framed h := ⟨rfl, rfl, rfl, rfl, rfl⟩

theorem Framed.trans {h'' : Heap} (f : h.Framed h') (f' : h'.Framed h'') : h.Framed h'' :=
  ⟨f'.options.trans f.options, f'.start.trans f.start, f'.gang.trans f.gang,
    f'.candidates.trans f.candidates, f'.shared.trans f.shared⟩

/-- These regions are blank, and all else is as before. -/
structure Released (h : Heap) (L : Layout) (regions : List Nat) (h' : Heap) : Prop where
  framed : h.Framed h'
  listed : h'.Listed L
  memory : h'.memory = h.memory
  blank : ∀ k ∈ regions, (h'.region k).Blank
  others : ∀ k, k ∉ regions → h'.region k = h.region k

theorem Listed.release_of (l : h.Listed L) (hi : i < L.count)
    (hk : (h.region i).kind.isFree = false) :
    ∃ h', h.release i = .ok h' ∧ h.Released L [i] h' := by
  obtain ⟨m, hreset, hlaid, -, hstate⟩ := LivenessMap.reset_of l.liveness hi
  have hput := l.table.region_put_of hi (h.region i).clear
  have hupdate := updateRegion_of l.table hi (f := fun r => .ok r.clear) rfl
  have hinsert := insertFree_of (h := { h with
    table := h.table.put i (h.region i).clear, liveness := m }) l.freeList L.count_lt hi hk
  refine ⟨{ h with
    table := h.table.put i (h.region i).clear
    liveness := m
    freeList := ⟨(List.range L.count).filter fun j => (h.region j).kind.isFree || decide (j = i)⟩ },
    ?_, {
    framed := ⟨rfl, rfl, rfl, rfl, rfl⟩
    listed := .of_filter (l.table.put hi (l.table.region i hi).clear) hlaid
      (fun k hk => ?unmarked) rfl fun k _ => ?free
    memory := rfl
    blank := fun k hk => ?blank
    others := fun k hk => (hput k).trans (if_neg fun e => hk (by simp [e])) }⟩
  · rw [release]
    refine (Checked.bind_of hupdate _).trans ?_
    refine (Checked.bind_of hreset _).trans ?_
    exact hinsert
  case unmarked =>
    show (m.sliceAt k).state.isMarked = false
    rw [hstate, l.reset k hk, Bool.and_false]
  case free =>
    show ((h.table.put i (h.region i).clear).region k).kind.isFree = _
    rw [hput]
    split
    · next e =>
      subst e
      simp [Region.clear, RegionKind.isFree]
    · next e =>
      rw [decide_eq_false (Ne.symm e), Bool.or_false]
      rfl
  case blank =>
    obtain rfl := List.mem_singleton.mp hk
    show ((h.table.put k (h.region k).clear).region k).Blank
    rw [hput, if_pos rfl]
    exact Region.blank_clear _

/-- The regions of a humongous object are given back. -/
theorem Listed.freeHumongous_of (l : h.Listed L) (hn : regions.Nodup)
    (hk : ∀ k ∈ regions, k < L.count ∧ (h.region k).kind.isHumongous = true) :
    ∃ h', regions.foldlM freeHumongousRegion h = .ok h' ∧ h.Released L regions h' := by
  refine Checked.foldlM_split (fun done h' => h.Released L done h')
    (fun done i rest h₁ hsplit r => ?_) h
    ⟨.refl h, l, rfl, by simp, fun _ _ => rfl⟩
  obtain ⟨hi, hhum⟩ := hk i (by rw [hsplit]; simp)
  have hnew : i ∉ done := by
    rw [hsplit, List.nodup_append] at hn
    exact fun hd => hn.2.2 i hd i (by simp) rfl
  have hregion := r.others i hnew
  rw [← hregion] at hhum
  obtain ⟨h₂, hrelease, r'⟩ := r.listed.release_of hi (RegionKind.not_of_humongous hhum).1
  have hget : h₁.table.get i = .ok (h₁.region i) := r.listed.table.get_of hi
  refine ⟨h₂, ?_, r.framed.trans r'.framed, r'.listed, r'.memory.trans r.memory, fun k hk => ?_,
    fun k hk => ?_⟩
  · rw [freeHumongousRegion, Checked.bind_of hget, Checked.unless_of hhum]
    exact hrelease
  · by_cases e : k = i
    · exact r'.blank k (by simp [e])
    · rw [r'.others k (by simpa using e)]
      exact r.blank k (by simpa [e] using hk)
  · rw [List.mem_append, not_or] at hk
    rw [r'.others k hk.2, r.others k hk.1]

namespace Tidy

variable (t : h.Tidy L)

include t

/-- A heap stays tidy when regions are given back, unless parts of humongous objects are left. -/
theorem of_released (r : h.Released L regions h')
    (hwhole : ∀ s, s < L.count → (h.region s).kind.isStartsHumongous → ∀ k, s ≤ k →
      k < s + h.humongousSpan (h.region s) → k ∈ regions → ∀ j, s ≤ j →
        j < s + h.humongousSpan (h.region s) → j ∈ regions) : h'.Tidy L :=
  t.of_orderly r.framed r.listed (t.frame r.framed r.listed.table (fun k => k ∈ regions)
    (fun k _ => r.others k) (fun _ _ _ _ _ _ => by rw [r.memory]) hwhole fun k _ hk =>
      .of_blank (r.blank k hk))

theorem freeRegion_of (hi : i < L.count) (hk : (h.region i).kind.isOrdinary) :
    ∃ h', h.freeRegion i = .ok h' ∧ h'.Tidy L := by
  have hkinds := RegionKind.not_of_ordinary hk
  obtain ⟨h', hrelease, r⟩ := t.release_of hi hkinds.1
  have hget : h.table.get i = .ok (h.region i) := t.table.get_of hi
  refine ⟨h', ?_, t.of_released r (t.whole_of fun k hk => ?_)⟩
  · rw [freeRegion, Checked.bind_of hget, Checked.unless_of (by simp [hkinds.2.1])]
    exact hrelease
  · rw [List.mem_singleton.mp hk]
    exact hkinds.2.1

theorem freeHumongous_of {s : Nat} (hs : s < L.count) (hk : (h.region s).kind.isStartsHumongous)
    (hp : regions.Perm (List.range' s (h.humongousSpan (h.region s)))) :
    ∃ h', regions.foldlM freeHumongousRegion h = .ok h' ∧ h'.Tidy L := by
  have hspans := t.humongous s hs hk
  have hmem : ∀ k, k ∈ regions ↔ s ≤ k ∧ k < s + h.humongousSpan (h.region s) := fun k => by
    rw [hp.mem_iff, List.mem_range'_1]
  obtain ⟨h', hfold, r⟩ := t.toListed.freeHumongous_of (hp.nodup_iff.mpr List.nodup_range')
    fun k hmk => by
      obtain ⟨hfrom, hto⟩ := (hmem k).mp hmk
      refine ⟨Nat.lt_of_lt_of_le hto hspans.within, ?_⟩
      rcases Nat.eq_or_lt_of_le hfrom with rfl | hlt
      · rw [RegionKind.isHumongous, hk]
        rfl
      · rw [(hspans.later k hlt hto).1]
        rfl
  refine ⟨h', hfold, t.of_released r fun s' hs' hk' k hfrom hto hc j hfirst hlast => ?_⟩
  obtain ⟨hin, hbelow⟩ := (hmem k).mp hc
  rw [hmem, t.block_unique hs hs' hk hk' hin hbelow hfrom hto]
  exact ⟨hfirst, hlast⟩

end Tidy

end RegionHeap.Heap
