import RegionHeap.Proofs.Abandoning
import RegionHeap.Proofs.Completing

/-!
A whole collection: the phases one after the other.
-/
set_option autoImplicit false

namespace RegionHeap

/-- What a collection of a heap is asked to do. -/
def Heap.scope (h : Heap) (explicitRequest clearSoft maximal : Bool) : Scope :=
  .create explicitRequest clearSoft maximal h.regionWords h.options.compactionThreshold

namespace Collector

variable {c : Collector} {h h' : Heap} {L : Layout}

/-- The heap that a collection ends with, and how it got there. -/
structure Collected (c : Collector) (h : Heap) (L : Layout) (f : Collector)
    (fill : Nat → List (Nat × Nat)) (m₃ : Memory) (x : Collector) (h' : Heap) : Prop where
  consistent : h.Consistent L
  alone : h.candidates.retained.groups ++ h.candidates.marking.groups = []
  planned : c.Planned h L f fill
  adjusted : Adjusted h f.memory (h.Traced c.scope.clearSoft) m₃
  moving : c.Moving h L f m₃ f.moves x
  heap : h' = { h with
    table := x.heap.table
    liveness := h'.liveness
    roots := (h.keptRoots c.scope.clearSoft).redirect f.memory
    freeList := ⟨(List.range L.count).filter fun i => (h'.region i).kind.isFree⟩ }
  laid : h'.liveness.Laid L
  reset : ∀ i, i < L.count → (h'.liveness.sliceAt i).state.isMarked = false

theorem Collected.unmarked {f x : Collector} {fill : Nat → List (Nat × Nat)} {m₃ : Memory}
    (k : c.Collected h L f fill m₃ x h') (a : Nat) (ha : L.IsWord a) :
    h'.liveness.marked L a = false :=
  LivenessMap.marked_of_state (k.reset _ ha.regionOf_lt)

/-- A collector that is about to mark. -/
structure Prepared (c : Collector) (L : Layout) : Prop where
  clean : c.heap.Clean L
  ready : c.Ready L
  attr : ∀ i, i < L.count → c.attrs.attr i = initialAttr (c.heap.region i)
  live : ∀ i, i < L.count → Table.entry c.live i = 0
  fresh : ∀ k, k < c.workers → Table.entry c.points k = {}
  humongousStarts : c.humongousStarts = []
  serial : c.serial = {}
  moves : c.moves = []

theorem Prepared.attributed (p : c.Prepared L) : c.Attributed L := p.ready.attributed p.attr

theorem prepare_of (w : h.Clean L) {n : Nat} (explicitRequest clearSoft maximal : Bool)
    (hn : 0 < n ∧ n ≤ h.gang.size) :
    (Collector.create h n explicitRequest clearSoft maximal).prepare.Prepared L := by
  have hsize : h.table.regions.size = L.count := w.table.size
  refine ⟨w, ⟨w.laid, ?_, ?_, ?_, ?_, hn.1, hn.2⟩, fun i hi => ?_, fun i hi => ?_, fun k hk => ?_,
    rfl, rfl, rfl⟩
  · simp [prepare, create, AttrTable.size, hsize]
  · simp [prepare, create, Heap.regionCount, RegionTable.size, hsize]
  · simp [prepare, create, Heap.regionCount, RegionTable.size, hsize]
  · simp [prepare, create]
  · exact Table.entry_map _ (hsize ▸ hi)
  · exact Table.entry_replicate _ _ (w.regionCount ▸ hi)
  · exact Table.entry_replicate _ _ hk

theorem Prepared.withScope (p : c.Prepared L) (s : Scope) :
    ({ c with scope := s } : Collector).Prepared L := by
  have r := p.ready
  exact ⟨p.clean, ⟨r.heap, r.attrs, r.live, r.tops, r.points, r.workers, r.gang⟩, p.attr, p.live,
    p.fresh, p.humongousStarts, p.serial, p.moves⟩

theorem Prepared.marked (p : c.Prepared L) {l : LivenessMap} {live : Array Nat} (hl : l.Laid L)
    (he : c.Exact L l) (hs : live.size = L.count) (hn : ∀ i, i < L.count → Table.entry live i =
      Word.total ((l.marksOf L i).map (Object.size c.memory))) :
    (c.afterMarking l live).Marked c.heap L := by
  have r := p.ready.heap
  refine ⟨⟨⟨r.start, r.bytes, r.table, hl⟩, p.ready.attrs, hs, p.ready.tops, p.ready.points,
    p.ready.workers, p.ready.gang⟩, rfl, rfl, p.attr, he, fun i hi => ?_, p.fresh,
    p.humongousStarts, p.serial, p.moves⟩
  have hmarks := p.clean.marksOf_eq_liveIn hi he
  refine (hn i hi).trans ?_
  rw [hmarks]
  rfl

/-- The phases of a collection that is prepared. -/
theorem Prepared.collect_of (p : c.Prepared L)
    (hc : c.heap.candidates.retained.groups ++ c.heap.candidates.marking.groups = []) :
    ∃ (d f : Collector) (fill : Nat → List (Nat × Nat)) (m₃ : Memory) (x y : Collector),
      c.collect = .ok x ∧ x.complete = .ok y ∧ d.scope = c.scope ∧
      d.Collected c.heap L f fill m₃ x y.heap := by
  have w := p.clean
  obtain ⟨l, live, hmark, hl, he, hs, hn⟩ := markLive_of w p.attributed p.ready.workers
    p.ready.live p.live
  obtain ⟨f, fill, hplan, planned⟩ := planCompaction_of w.toConsistent (p.marked hl he hs hn)
  obtain ⟨m₃, hadjust, adjusted⟩ := adjustReferences_of w.toConsistent planned
  obtain ⟨x, hcompact, moving⟩ := compact_of w.toConsistent planned adjusted
  obtain ⟨l', hcomplete, hl', hclear⟩ := moving.complete_of w.toConsistent planned adjusted
  refine ⟨c.afterMarking l live, f, fill, m₃, x, _, ?_, hcomplete, rfl, w.toConsistent, hc,
    planned, adjusted, moving, ?_, hl', hclear⟩
  · rw [collect, Checked.bind_of hmark, Checked.bind_of hplan, Checked.bind_of hadjust, hcompact]
  · have hx : ∃ t l'', x = (f.withAdjusted m₃).withHeap t l'' := ⟨_, _, moving.same⟩
    obtain ⟨t, l'', rfl⟩ := hx
    have hf : ∃ t l'', f.heap = { (c.afterMarking l live).heap with table := t, liveness := l'' } :=
      ⟨_, _, planned.heap⟩
    obtain ⟨t', l₂, hf⟩ := hf
    show ({ ((f.withAdjusted m₃).withHeap t l'').heap with
      liveness := _, freeList := _ } : Heap) = _
    simp only [withHeap, withAdjusted]
    rw [hf]
    rfl

end Collector

namespace Heap

variable {h : Heap} {L : Layout}

theorem abandon_of (w : h.Clean L) :
    ∃ h₀ : Heap, ({ h with collections := h.collections + 1 } : Heap).abandonCandidates = .ok h₀ ∧
      h.Alike h₀.activateWorkers ∧ h₀.activateWorkers.Clean L ∧
      h₀.activateWorkers.candidates.retained.groups ++
        h₀.activateWorkers.candidates.marking.groups = [] ∧
      0 < h₀.activateWorkers.gang.active ∧
      h₀.activateWorkers.gang.active ≤ h₀.activateWorkers.gang.size := by
  have a₀ : h.Alike { h with collections := h.collections + 1 } :=
    ⟨rfl, rfl, rfl, rfl, rfl, RegionTable.Alike.refl _⟩
  obtain ⟨h₀, habandon, a₁, hc⟩ := abandonCandidates_of (w.toBuilt.alike a₀ w.linked)
  have a : h.Alike h₀.activateWorkers :=
    ⟨a₁.options, a₁.start, a₁.gang, a₁.roots, a₁.liveness, a₁.table⟩
  have hc' : h₀.activateWorkers.candidates.retained.groups ++
      h₀.activateWorkers.candidates.marking.groups = [] := hc
  have w₁ : h₀.activateWorkers.Clean L :=
    ⟨⟨w.toBuilt.alike a (by rw [hc']; simp), a.referring w.toReferring⟩, a.unmarked w.toUnmarked⟩
  have hsize : 0 < h₀.gang.size := w₁.gang
  have hactive : 0 < h₀.gang.clamp h₀.workersFor ∧
      h₀.gang.clamp h₀.workersFor ≤ h₀.gang.size := by
    unfold Gang.clamp
    omega
  exact ⟨h₀, habandon, a, w₁, hc', hactive⟩

/-- Collecting passes. -/
theorem fullCollect_of (w : h.Clean L) (explicitRequest clearSoft maximal : Bool) :
    ∃ (h₁ : Heap) (d f : Collector) (fill : Nat → List (Nat × Nat)) (m₃ : Memory) (x : Collector)
      (h' : Heap), h.fullCollect explicitRequest clearSoft maximal = .ok h' ∧ h.Alike h₁ ∧
        d.scope = h.scope explicitRequest clearSoft maximal ∧
        d.Collected h₁ L f fill m₃ x h' := by
  obtain ⟨h₀, habandon, a, w₁, hc, hactive⟩ := abandon_of w
  obtain ⟨d, f, fill, m₃, x, y, hcollect, hcomplete, hscope, k⟩ :=
    (Collector.prepare_of w₁ explicitRequest clearSoft maximal hactive).collect_of hc
  refine ⟨_, d, f, fill, m₃, x, y.heap, ?_, a, hscope.trans ?_, k⟩
  · rw [fullCollect, Checked.bind_of habandon]
    dsimp only
    rw [Checked.bind_of hcollect, Checked.bind_of hcomplete]
    rfl
  · show Scope.create _ _ _ _ _ = Scope.create _ _ _ _ _
    rw [regionWords, regionWords, a.options]

end Heap

end RegionHeap
