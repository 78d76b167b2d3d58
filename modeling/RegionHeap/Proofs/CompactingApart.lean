import RegionHeap.Collection.Full
import RegionHeap.Proofs.PlanningApart

/-!
Adjusting, compacting and completing beside marks in regions that are left alone.
-/
set_option autoImplicit false

namespace RegionHeap.Collector

open Checked

variable {L : Layout} {A : Nat → Prop} {c c' : Collector} {i : Nat}

theorem Agree.adjustRegion (h : Agree L A c c') (v : c.Avoids L A)
    (hb : c.heap.table.Bounded L) (i : Nat) :
    Both (fun x y => Agree L A x y ∧ x.Avoids L A ∧ x.heap.table.Bounded L) (c.adjustRegion i)
      (c'.adjustRegion i) := by
  obtain ⟨l', rfl, h⟩ := h
  refine Both.bind_same fun r hr => Both.bind_same fun attr ha => ?_
  refine Both.ite (fun _ => .ok ⟨⟨l', rfl, h⟩, v, hb⟩) fun hm => ?_
  have hA : ¬A i := by
    intro hA
    rw [v.attr i hA] at ha
    obtain rfl := Except.ok.inj ha
    exact hm rfl
  refine Both.bind (LivenessMap.walk_both (R := Eq) (fun _ _ _ => h) hA (hb i r hr).2
    (fun m m' o _ e => e ▸ Both.same fun _ _ => ⟨rfl, rfl⟩) rfl) fun m m' _ e => ?_
  subst e
  exact .ok ⟨⟨l', rfl, h⟩, ⟨v.start, v.bytes, v.attr⟩, hb.withMemory m⟩

theorem Agree.adjustReferences (h : Agree L A c c') (v : c.Avoids L A)
    (hb : c.heap.table.Bounded L) :
    Both (Agree L A) c.adjustReferences c'.adjustReferences := by
  obtain ⟨l', rfl, h⟩ := h
  unfold Collector.adjustReferences
  refine Both.imp (R := fun x y => Agree L A x y ∧ x.Avoids L A ∧ x.heap.table.Bounded L) ?_
    fun _ _ _ hxy => hxy.1
  exact Both.foldlM_mem (fun i _ x y hxy => hxy.1.adjustRegion hxy.2.1 hxy.2.2 i)
    ⟨⟨l', rfl, h⟩, ⟨v.start, v.bytes, v.attr⟩, hb⟩

/-- Heaps that differ in agreeing liveness maps. -/
def HeapsAgree (L : Layout) (A : Nat → Prop) (h h' : Heap) : Prop :=
  ∃ l', h' = { h with liveness := l' } ∧ LivenessMap.Agree L A h.liveness l'

theorem moveObject_both {h h' : Heap} (hh : HeapsAgree L A h h') {o : Nat}
    (ho : ¬A (L.regionOf o)) :
    Both (fun x y => x.1 = y.1 ∧ HeapsAgree L A x.2 y.2) (moveObject h o) (moveObject h' o) := by
  obtain ⟨l', rfl, hl⟩ := hh
  unfold moveObject
  refine Both.bind (hl.clear ho) fun m m' _ hm => ?_
  cases hf : Object.forwardee? h.memory o with
  | none =>
    simp only [Heap.memory] at hf ⊢
    rw [hf]
    exact .ok ⟨rfl, m', rfl, hm⟩
  | some place =>
    simp only [Heap.memory] at hf ⊢
    rw [hf]
    exact Both.bind_same fun _ _ => .ok ⟨rfl, m', rfl, hm⟩

theorem Agree.compactRegion (h : Agree L A c c') (hi : ¬A i)
    (ht : ∀ r, c.region i = .ok r → r.top ≤ L.bottom i + L.bytes) :
    Both (Agree L A) (c.compactRegion i) (c'.compactRegion i) := by
  obtain ⟨l', rfl, h⟩ := h
  refine Both.bind_same fun r hr => Both.bind_same fun _ _ => Both.bind_same fun _ _ => ?_
  refine Both.bind (LivenessMap.walk_both (R := HeapsAgree L A)
    (fun _ _ ⟨_, e, hl⟩ => e ▸ hl) hi (ht r hr)
    (fun _ _ o ho hxy => moveObject_both hxy (ho ▸ hi)) ⟨l', rfl, h⟩) fun x y _ hxy => ?_
  obtain ⟨m', rfl, hm⟩ := hxy
  simp only [Heap.updateRegion, bind_assoc, pure_eq, ok_bind]
  exact Both.bind_same fun top _ => Both.bind_same fun t _ => .ok ⟨m', rfl, hm⟩

theorem Agree.resetInPlace (h : Agree L A c c') :
    Both (Agree L A) c.resetInPlace c'.resetInPlace := by
  obtain ⟨l', rfl, h⟩ := h
  refine Both.foldlM_mem (fun i _ x y hxy => ?_) ⟨l', rfl, h⟩
  obtain ⟨m', rfl, hm⟩ := hxy
  refine Both.bind_same fun attr _ => Both.ite (fun _ => .ok ⟨m', rfl, hm⟩) fun _ => ?_
  simp only [Heap.updateRegion, bind_assoc, pure_eq, ok_bind]
  exact Both.bind_same fun t _ => .ok ⟨m', rfl, hm⟩

theorem Agree.moveHumongous (h : Agree L A c c') (move : HumongousMove)
    (hs : ∀ r, c.region move.source = .ok r → ¬A (L.regionOf r.bottom)) :
    Both (Agree L A) (c.moveHumongous move) (c'.moveHumongous move) := by
  obtain ⟨l', rfl, h⟩ := h
  refine Both.bind_same fun r hr => Both.bind_same fun target _ => Both.bind_same fun _ _ => ?_
  refine Both.bind (h.clear (hs r hr)) fun m m' _ hm => ?_
  exact Both.bind_same fun t _ => Both.bind_same fun t' _ => .ok ⟨m', rfl, hm⟩

theorem Agree.run (h : Agree L A c c') {task : CollectionTask}
    {work : Nat → Collector → Checked Collector} (hr : c.Ready L) (I : Nat → Collector → Prop)
    (inv : ∀ k d, k < c.workers → I k d → ∃ d', work k d = .ok d' ∧ I (k + 1) d')
    (step : ∀ k d d', k < c.workers → I k d → Agree L A d d' →
      Both (Agree L A) (work k d) (work k d')) (hi : I 0 c) :
    Both (Agree L A) (c.run task work) (c'.run task work) := by
  have hw : c'.heap.gang.runWith c'.workers = List.range c.workers := by
    obtain ⟨l', rfl, -⟩ := h
    exact hr.runWith
  rw [Collector.run, Collector.run, hr.runWith, hw]
  refine Both.foldlM_range I (fun k d hk hd => ?_) (fun k d d' hk hd hdd => ?_) hi h
  · obtain ⟨d', he, hd'⟩ := inv k d hk hd
    exact ⟨d', by simp only [he], hd'⟩
  · obtain ⟨e, he, -⟩ := inv k d hk hd
    obtain ⟨e', he', hee⟩ := (he ▸ step k d d' hk hd hdd).passes
    simp only [he, he']
    exact .ok hee

/-- The check at the end does not look at marks. -/
theorem verify_setLiveness (c : Collector) (l : LivenessMap) :
    (c.setLiveness l).verify = c.verify := by
  have hflaw : ∀ rs, (c.setLiveness l).firstFlaw rs = c.firstFlaw rs := by
    intro rs
    induction rs with
    | nil => rfl
    | cons r rest ih =>
      unfold firstFlaw
      rw [ih]
      rfl
  unfold verify
  rw [hflaw]
  rfl

theorem Agree.complete (h : Agree L A c c') :
    Both (fun x y => ∃ l', y = x.setLiveness l') c.complete c'.complete := by
  obtain ⟨l', rfl, -⟩ := h
  obtain ⟨m, hm⟩ := LivenessMap.resetAll_passes c.liveness
  obtain ⟨m', hm'⟩ := LivenessMap.resetAll_passes l'
  unfold Collector.complete
  rw [hm, show (c.setLiveness l').liveness.resetAll = _ from hm']
  simp only [Heap.rebuildFreeList, bind_assoc, pure_eq, ok_bind]
  refine Both.bind_same fun freeList _ => ?_
  have hverify := verify_setLiveness
    { c.setLiveness m with heap := { (c.setLiveness m).heap with freeList := freeList } } m'
  refine Both.bind (R := Eq) (hverify ▸ Both.same fun _ _ => rfl) fun flaw _ _ e => ?_
  subst e
  cases flaw with
  | none => exact .ok ⟨m', rfl⟩
  | some flaw => exact .error _

end RegionHeap.Collector
