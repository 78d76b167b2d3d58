import RegionHeap.Proofs.History

/-!
The references after a collection. They are valid as before, so that a well-formed heap is
well-formed again.
-/
set_option autoImplicit false

namespace RegionHeap

namespace Collector

variable {c f : Collector} {h h' : Heap} {L : Layout} {fill : Nat → List (Nat × Nat)}
  {m₃ : Memory} {x : Collector} {p q : Nat}

namespace Collected

variable (k : c.Collected h L f fill m₃ x h')

include k

/-- What is reached from any root afterwards is an object that was live. -/
theorem alive_of_reached (s : h.SelfContained) (hp : h'.Reached p) :
    ∃ o, h.Alive c.scope.clearSoft o ∧ f.place o = p := by
  have w := k.consistent
  induction hp with
  | root _ hp hz => exact k.alive_of_slot hp hz
  | field _ hp hz ih =>
    obtain ⟨o, ho, rfl⟩ := ih
    obtain ⟨a, hs, rfl⟩ := List.mem_map.mp hp
    obtain ⟨i, hi, rfl⟩ := List.mem_map.mp hs
    rw [(k.kind_of_field (k.carried_of_alive ho)).2, List.mem_range] at hi
    rw [k.field_of s ho hi] at hz ⊢
    have hmem : h.memory.read (Object.slot o i) ∈ Object.referents h.memory o :=
      List.mem_map.mpr ⟨_, List.mem_map.mpr ⟨i, List.mem_range.mpr hi, rfl⟩, rfl⟩
    have hoz : h.memory.read (Object.slot o i) ≠ 0 := fun e => hz (by simp [Heap.relocate, e])
    refine ⟨_, ?_, (if_neg hoz).symm⟩
    rcases ho with ht | ⟨hobj, ha⟩
    · exact w.alive_of_referent ht hmem hoz
    · exact .inr (s o hobj ha _ hmem hoz)

/-- Closed archives still refer only to themselves. -/
theorem archived_of (s : h.SelfContained) (hp : h'.IsObject p) (ha : h'.InClosedArchive p)
    (hq : q ∈ Object.referents h'.memory p) (hz : q ≠ 0) :
    h'.IsObject q ∧ h'.InClosedArchive q := by
  obtain ⟨o, hc, rfl⟩ := k.carried_of_isObject hp
  rw [k.inClosedArchive_eq, k.place_archived hc] at ha
  have hobj := k.isObject_of_carried hc
  obtain ⟨a, hs, rfl⟩ := List.mem_map.mp hq
  obtain ⟨i, hi, rfl⟩ := List.mem_map.mp hs
  rw [(k.kind_of_field hc).2, List.mem_range] at hi
  have ho : h.Alive c.scope.clearSoft o := .inr ⟨hobj, ha⟩
  rw [k.field_of s ho hi] at hz ⊢
  have hoz : h.memory.read (Object.slot o i) ≠ 0 := fun e => hz (by simp [Heap.relocate, e])
  obtain ⟨hobject, harchived⟩ := s o hobj ha _
    (List.mem_map.mpr ⟨_, List.mem_map.mpr ⟨i, List.mem_range.mpr hi, rfl⟩, rfl⟩) hoz
  have he : Heap.relocate f.place (h.memory.read (Object.slot o i)) = _ := if_neg hoz
  have hc' := k.carried_of_alive (.inr ⟨hobject, harchived⟩)
  rw [he, k.inClosedArchive_eq, k.place_archived hc']
  exact ⟨k.isObject_place hc', harchived⟩

theorem referring : h'.Referring := by
  refine ⟨fun s p hp hz => ?_, fun p ht q hq hz => ?_⟩
  · obtain ⟨o, ho, rfl⟩ := k.alive_of_slot hp hz
    exact k.isObject_place (k.carried_of_alive ho)
  · obtain ⟨o, ho, rfl⟩ := k.traced_of_traced ht
    obtain ⟨a, hs, rfl⟩ := List.mem_map.mp hq
    obtain ⟨i, hi, rfl⟩ := List.mem_map.mp hs
    rw [(k.kind_of_field (k.carried_of_alive (.inl ho))).2, List.mem_range] at hi
    rw [k.field_of_traced ho hi] at hz ⊢
    have hoz : h.memory.read (Object.slot o i) ≠ 0 := fun e => hz (by simp [Heap.relocate, e])
    rw [Heap.relocate, if_neg hoz]
    exact k.isObject_place (k.carried_of_alive (k.consistent.alive_of_referent ho
      (List.mem_map.mpr ⟨_, List.mem_map.mpr ⟨i, List.mem_range.mpr hi, rfl⟩, rfl⟩) hoz))

theorem clean : h'.Clean L := ⟨⟨k.built, k.referring⟩, k.laid, k.unmarked⟩

theorem wellFormed (s : h.SelfContained) : h'.WellFormed L := by
  refine ⟨k.clean, fun p hp => ?_, fun p hp ha q => k.archived_of s hp ha⟩
  obtain ⟨o, ho, rfl⟩ := k.alive_of_reached s hp
  exact k.isObject_place (k.carried_of_alive ho)

end Collected

end Collector

namespace Heap

variable {h : Heap} {L : Layout}

/-- A full collection of a well-formed heap passes, whatever it is asked to do. The graph of the
live objects is as before, with the objects at new places, and the heap is well-formed again. -/
theorem fullCollect_preserves (w : h.WellFormed L) (explicitRequest clearSoft maximal : Bool) :
    ∃ (place : Nat → Nat) (h' : Heap), h.fullCollect explicitRequest clearSoft maximal = .ok h' ∧
      h.Preserved clearSoft place h' ∧ h'.WellFormed L := by
  obtain ⟨h₁, c, f, fill, m₃, x, h', hrun, a, hscope, k⟩ :=
    fullCollect_of w.toClean explicitRequest clearSoft maximal
  have hclear : c.scope.clearSoft = clearSoft := by
    rw [hscope]
    rfl
  have hs := a.selfContained w.archived
  have hp := k.preserved hs
  rw [hclear] at hp
  exact ⟨f.place, h', hrun, a.preserved hp, k.wellFormed hs⟩

/-- The object that the root holds moves, and what its weak slots hold is dead or in an archive. -/
theorem sample_preserved : ∃ h L, sample = .ok h ∧ h.WellFormed L ∧
    h.roots = { strong := [sampleWord 0 4], weak := [sampleWord 0 0, sampleWord 4 0] } ∧
    ∃ (place : Nat → Nat) (h' : Heap), h.fullCollect true false false = .ok h' ∧
      h'.roots = { strong := [sampleWord 0 0], weak := [0, sampleWord 4 0] } ∧
      h.Preserved false place h' ∧ h'.WellFormed L := by
  obtain ⟨h, L, hs, w⟩ := sample_wellFormed
  have hroots := of_sample (f := fun h => h.roots)
    (v := { strong := [sampleWord 0 4], weak := [sampleWord 0 0, sampleWord 4 0] }) hs
    (by decide +kernel)
  obtain ⟨place, h', hrun, hkept, w'⟩ := fullCollect_preserves w true false false
  have hnew := of_sample (f := fun h => (h.fullCollect true false false).toOption.map Heap.roots)
    (v := some { strong := [sampleWord 0 0], weak := [0, sampleWord 4 0] }) hs (by decide +kernel)
  rw [hrun] at hnew
  exact ⟨h, L, hs, w, hroots, place, h', hrun, Option.some.inj hnew, hkept, w'⟩

end Heap

end RegionHeap
