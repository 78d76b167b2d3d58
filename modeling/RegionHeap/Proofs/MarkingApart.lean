import RegionHeap.Collection.Mark
import RegionHeap.Proofs.Agreeing

/-!
Marking beside marks where it does not go: it passes them by.
-/
set_option autoImplicit false

namespace RegionHeap

open Checked

variable {L : Layout} {A : Nat → Prop}

/-- Collectors that differ in agreeing liveness maps. -/
def Collector.Agree (L : Layout) (A : Nat → Prop) (c c' : Collector) : Prop :=
  ∃ l', c' = c.setLiveness l' ∧ LivenessMap.Agree L A c.liveness l'

/-- Marking does not go into these regions. -/
structure Collector.Avoids (c : Collector) (L : Layout) (A : Nat → Prop) : Prop where
  start : c.heap.start = L.start
  bytes : c.heap.regionBytes = L.bytes
  attr : ∀ i, A i → c.attrs.get i = .ok .skipMarking

namespace Collector.Avoids

variable {c : Collector} {i o : Nat} {attr : RegionAttr}

theorem regionOf (v : c.Avoids L A) (hr : c.heap.regionOf o = .ok i) : i = L.regionOf o := by
  simp only [Heap.regionOf, bind_eq_ok, pure_eq, Except.ok.injEq] at hr
  obtain ⟨-, -, rfl⟩ := hr
  rw [Layout.regionOf, v.start, v.bytes]

theorem not_mem (v : c.Avoids L A) (hr : c.heap.regionOf o = .ok i)
    (ha : c.attrs.get i = .ok attr) (hne : attr ≠ .skipMarking) : ¬A (L.regionOf o) := by
  intro hA
  rw [v.regionOf hr, v.attr _ hA] at ha
  exact hne (Except.ok.inj ha).symm

theorem isAlive_eq (v : c.Avoids L A) {l' : LivenessMap}
    (h : LivenessMap.Agree L A c.liveness l') (o : Nat) :
    (c.setLiveness l').isAlive o = c.isAlive o := by
  refine (Both.eq ?_).symm
  unfold isAlive
  refine Both.bind_same fun i hi => Both.bind_same fun attr ha => Both.ite (fun _ => .ok rfl)
    fun hne => ?_
  have hA := v.not_mem hi ha (by simpa using hne)
  exact (h.isMarked_eq hA).symm ▸ Both.same fun _ _ => rfl

end Collector.Avoids

namespace Marker

/-- Markers that differ in agreeing liveness maps. -/
def Agree (L : Layout) (A : Nat → Prop) (k k' : Marker) : Prop :=
  k.collector.Avoids L A ∧ ∃ l', k' = { k with collector := k.collector.setLiveness l' } ∧
    LivenessMap.Agree L A k.collector.liveness l'

variable {k k' : Marker}

theorem Agree.share (h : Agree L A k k') : Both (Agree L A) k.share k'.share := by
  obtain ⟨v, l', rfl, h⟩ := h
  unfold Marker.share
  refine Both.ite (fun _ => .ok ⟨v, l', rfl, h⟩) fun _ => Both.bind_same fun x _ => ?_
  exact .ok ⟨v, l', rfl, h⟩

theorem Agree.mark (h : Agree L A k k') (o : Nat) : Both (Agree L A) (k.mark o) (k'.mark o) := by
  obtain ⟨v, l', rfl, h⟩ := h
  unfold Marker.mark
  refine Both.bind_same fun _ _ => Both.bind_same fun i hi => Both.bind_same fun attr ha => ?_
  refine Both.ite (fun _ => Both.bind_same fun _ _ => .ok ⟨v, l', rfl, h⟩) fun hm => ?_
  have hA := v.not_mem hi ha fun e => hm (by rw [e]; rfl)
  refine Both.bind (h.tryMark hA) fun x y _ hxy => ?_
  obtain ⟨new, m⟩ := x
  obtain ⟨new', m'⟩ := y
  obtain ⟨rfl, hm⟩ := hxy
  have v' : (k.collector.setLiveness m).Avoids L A := ⟨v.start, v.bytes, v.attr⟩
  refine Both.ite (fun _ => .ok ⟨v', m', rfl, hm⟩) fun _ => ?_
  refine Both.bind_same fun words _ => Both.bind_same fun live _ => ?_
  exact Agree.share ⟨⟨v.start, v.bytes, v.attr⟩, m', rfl, hm⟩

theorem Agree.markReference (h : Agree L A k k') (o : Nat) :
    Both (Agree L A) (k.markReference o) (k'.markReference o) :=
  Both.ite (fun _ => .ok h) fun _ => h.mark o

theorem Agree.markAll (h : Agree L A k k') (references : List Nat) :
    Both (Agree L A) (k.markAll references) (k'.markAll references) :=
  Both.foldlM_mem (fun o _ _ _ h => h.markReference o) h

theorem Agree.scan (h : Agree L A k k') (o : Nat) : Both (Agree L A) (k.scan o) (k'.scan o) := by
  have hm : k'.collector.memory = k.collector.memory := by
    obtain ⟨-, l', rfl, -⟩ := h
    rfl
  rw [scan_eq_markAll, scan_eq_markAll, hm]
  exact h.markAll _

theorem Agree.drainIn (h : Agree L A k k') (n : Nat) :
    Both (Agree L A) (Marker.drainIn n k) (Marker.drainIn n k') := by
  induction n generalizing k k' with
  | zero => exact .ok h
  | succ n ih =>
    obtain ⟨v, l', rfl, h⟩ := h
    unfold Marker.drainIn
    dsimp only
    cases hs : k.stack with
    | cons o rest =>
      have h' : Agree L A { k with stack := rest }
          { k with stack := rest, collector := k.collector.setLiveness l' } := ⟨v, l', rfl, h⟩
      exact Both.bind (h'.scan o) fun _ _ _ h'' => ih h''
    | nil =>
      obtain ⟨found, stack, shared⟩ := k.shared.popChunk []
      cases found with
      | true => exact ih ⟨v, l', rfl, h⟩
      | false => exact .ok ⟨v, l', by rw [← hs], h⟩

theorem Agree.drain (h : Agree L A k k') : Both (Agree L A) k.drain k'.drain := by
  have hn : steps k'.collector.heap = steps k.collector.heap := by
    obtain ⟨-, l', rfl, -⟩ := h
    rfl
  rw [Marker.drain, Marker.drain, hn]
  exact h.drainIn _

end Marker

namespace Collector

variable {c c' : Collector}

theorem Agree.clearDead_eq (v : c.Avoids L A) {l' : LivenessMap}
    (h : LivenessMap.Agree L A c.liveness l') (references : List Nat) :
    (c.setLiveness l').clearDead references = c.clearDead references := by
  simp only [clearDead, v.isAlive_eq h]

theorem Agree.processReferences (v : c.Avoids L A) (h : Agree L A c c') :
    Both (Agree L A) c.processReferences c'.processReferences := by
  obtain ⟨l', rfl, h⟩ := h
  unfold Collector.processReferences
  dsimp only
  rw [Agree.clearDead_eq v h, Agree.clearDead_eq v h]
  refine Both.ite (fun _ => ?_) fun _ => ?_ <;>
    exact Both.bind_same fun soft _ => Both.bind_same fun weak _ => .ok ⟨l', rfl, h⟩

theorem Agree.markLive (v : c.Avoids L A) (h : Agree L A c c') :
    Both (Agree L A) c.markLive c'.markLive := by
  obtain ⟨l', rfl, h⟩ := h
  unfold Collector.markLive
  refine Both.bind_same fun shared _ => ?_
  have hk : Marker.Agree L A { collector := c, shared := shared }
      { collector := c.setLiveness l', shared := shared } := ⟨v, l', rfl, h⟩
  refine Both.bind (hk.markAll _) fun k k' _ hk => Both.bind hk.drain fun k k' _ hk => ?_
  obtain ⟨v, l', rfl, h⟩ := hk
  exact Both.bind_same fun _ _ => Agree.processReferences v ⟨l', rfl, h⟩

end Collector

end RegionHeap
