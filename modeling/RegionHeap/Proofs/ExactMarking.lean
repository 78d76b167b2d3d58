import RegionHeap.Proofs.History
import RegionHeap.Proofs.Stopping

/-!
What marking finds does not depend on the number of workers nor on the order of their steps. Once
they have stopped, the marked words are the objects that can be traced, the words of these were
counted region by region, and the references in roots to everything else are cleared.
-/
set_option autoImplicit false

namespace RegionHeap

/-- Objects behind each other take up no more words than there are. -/
theorem Word.total_apart_le {os : List Nat} {f : Nat → Nat} {a b : Nat}
    (h : os.Pairwise fun o p => o + 8 * f o ≤ p) (ha : ∀ o ∈ os, a ≤ o)
    (hb : ∀ o ∈ os, o + 8 * f o ≤ b) (hab : a ≤ b) : a + 8 * total (os.map f) ≤ b := by
  induction os generalizing a with
  | nil => simpa [total] using hab
  | cons o os ih =>
    have h' := List.pairwise_cons.mp h
    have := ih h'.2 h'.1 (fun p hp => hb p (by simp [hp])) (hb o (by simp))
    have := ha o (by simp)
    rw [List.map_cons, total]
    omega

namespace Heap

variable {h : Heap} {L : Layout} {clearSoft : Bool} {i : Nat}

theorem Consistent.liveWords_le (w : h.Consistent L) (hi : i < L.count)
    (hk : (h.region i).kind.isOrdinary) : h.liveWords clearSoft i ≤ h.regionWords := by
  have hl := w.laid hi
  have hapart : (h.liveIn clearSoft i).Pairwise _ := w.liveIn_apart hi
  have hle := Word.total_apart_le hapart
    (fun o ho => (w.within_of hi hk (mem_liveIn.mp ho).1).1)
    (fun o ho => (w.within_of hi hk (mem_liveIn.mp ho).1).2.1) hl.bottom_le
  have := hl.top_le
  rw [w.regionWords]
  rw [L.bytes_eq] at this
  unfold liveWords
  omega

/-- A collector has marked a heap as it was when marking began. -/
structure Marked (h : Heap) (L : Layout) (clearSoft : Bool) (c : Collector) : Prop where
  marks : ∀ a, L.IsWord a →
    ∃ b, c.liveness.isMarked a = .ok b ∧ (b = true ↔ h.Traced clearSoft a)
  live : ∀ i, i < h.regionCount →
    c.liveWords i = .ok (Word.total ((h.liveIn clearSoft i).map (Object.size h.memory)))
  fits : ∀ i, i < h.regionCount → (h.region i).kind.isOrdinary →
    Word.total ((h.liveIn clearSoft i).map (Object.size h.memory)) ≤ h.regionWords
  roots : ∃ c', c.processReferences = .ok c' ∧
    c' = { c with heap := { c.heap with roots := h.keptRoots clearSoft } }

end Heap

namespace MarkingGang

open Collector

variable {c : Collector} {L : Layout} {g : MarkingGang} {n : Nat}

theorem start_of (w : c.heap.Clean L) (hworkers : 0 < c.workers) (hsize : c.live.size = L.count)
    (hz : ∀ i, i < L.count → Table.entry c.live i = 0) :
    ∃ g, start c = .ok g ∧ Tracing c L g ∧ Accord c.workers g := by
  obtain ⟨s, hs, hchunks, hcount, hcap⟩ :
      ∃ s, MarkStack.create c.heap.table.shared.rounds = .ok s ∧ s.chunks = [] ∧ s.Counted ∧
        s.pool.capacity = MarkStack.chunkCapacity := ⟨_, rfl, rfl, rfl, rfl⟩
  obtain ⟨workers, hworkers'⟩ : ∃ workers : List MarkWorker, workers =
      { references := c.markingRoots } :: List.replicate (c.workers - 1) {} := ⟨_, rfl⟩
  have hmem : ∀ x ∈ workers, x.phase = .marking := by
    intro x hx
    rw [hworkers', List.mem_cons, List.mem_replicate] at hx
    rcases hx with rfl | ⟨-, rfl⟩ <;> rfl
  have hlen : workers.length = c.workers := by
    rw [hworkers', List.length_cons, List.length_replicate]
    omega
  have hstack : workers.flatMap MarkWorker.stack = [] := by
    rw [hworkers']
    simp
  have hrefs : workers.flatMap MarkWorker.references = c.markingRoots := by
    rw [hworkers']
    simp
  refine ⟨⟨c, s, { workers := c.workers }, workers⟩, ?start, {
    marking := ⟨[], ?marking, by simp⟩
    followable := ?followable
    rooted := ?rooted
    counted := hcount }, {
    size := hlen
    workers := rfl
    offered := ?offered
    resting := fun x hx h => absurd (hmem x hx) h
    drained := fun _ => hchunks
    seen := fun x hx k h => by rw [hmem x hx] at h; contradiction
    stopped := fun x hx h => by rw [hmem x hx] at h; contradiction }⟩
  case start =>
    rw [start, Checked.bind_of hs, ← hworkers']
    rfl
  case marking =>
    rw [joined, hstack]
    exact .begin w hsize hz hchunks hcap
  case followable =>
    rw [references, hrefs]
    exact fun p hp => followable_of_root w hp
  case rooted =>
    rw [references, hrefs]
    exact fun p hp => .inr hp
  case offered =>
    refine (List.countP_eq_zero.mpr fun x hx => ?_).symm
    rw [hmem x hx]
    simp [MarkPhase.stands]

/-- When all workers have stopped, nothing waits and no slot is left to be visited. -/
theorem Accord.stopped_of (a : Accord n g) (h : g.isOver = true) :
    g.joined.pending = [] ∧ g.references = [] := by
  have hstop : ∀ x ∈ g.workers, x.phase = .stopped := by
    simpa [isOver] using h
  have hrest : ∀ x ∈ g.workers, x.references = [] ∧ x.stack = [] := fun x hx =>
    a.resting x hx (by simp [hstop x hx])
  have hchunks := a.drained fun x hx => by simp [hstop x hx]
  constructor
  · rw [Marker.pending, joined, hchunks, List.flatMap_nil, List.append_nil]
    exact List.flatMap_eq_nil_iff.mpr fun x hx => (hrest x hx).2
  · exact List.flatMap_eq_nil_iff.mpr fun x hx => (hrest x hx).1

theorem Tracing.exact (w : c.heap.Clean L) (t : Tracing c L g) (a : Accord n g)
    (h : g.isOver = true) : c.Marking L [] g.joined ∧ c.Exact L g.collector.liveness := by
  obtain ⟨hpend, hrefs⟩ := a.stopped_of h
  obtain ⟨scanning, hm, hs⟩ := t.marking
  -- the objects that were being scanned have been
  have hm' : c.Marking L [] g.joined :=
    { hm with
      settled := fun o ho hk hp _ p hpo => by
        by_cases hsc : o ∈ scanning
        · exact (hs o hsc p hpo).resolve_right (by rw [hrefs]; simp)
        · exact hm.settled o ho hk hp hsc p hpo }
  exact ⟨hm', hm'.exact w hpend fun p hp => (t.rooted p hp).resolve_right (by rw [hrefs]; simp)⟩

end MarkingGang

namespace Collector

variable {c : Collector} {L : Layout} {l : LivenessMap} {live : Array Nat}

theorem marked_of (w : c.heap.Clean L) (r : c.Attributed L) (hl : l.Laid L) (he : c.Exact L l)
    (hs : live.size = L.count) (hn : ∀ i, i < L.count → Table.entry live i =
      Word.total ((l.marksOf L i).map (Object.size c.memory))) :
    c.heap.Marked L c.scope.clearSoft (c.withMarks l live) := by
  refine ⟨fun a ha => ⟨l.marked L a, LivenessMap.isMarked_of hl ha, he a ha⟩, fun i hi => ?_,
    fun i hi hk => ?_, _, processReferences_of w.toConsistent r live hl he, rfl⟩
  · rw [w.regionCount] at hi
    rw [liveWords, show (c.withMarks l live).live = live from rfl, Table.get_of_lt (hs ▸ hi),
      hn i hi, w.marksOf_eq_liveIn hi he]
    rfl
  · rw [w.regionCount] at hi
    exact w.liveWords_le hi hk

end Collector

open Collector MarkingGang in
/-- However many workers mark a heap that nothing is marked in, and in whatever order they take
their steps, no step is refused; once all have stopped, exactly what can be traced is marked and
counted. They stop if all of them have their turn again and again. A collection, in which one worker
does all of the marking, marks the same. -/
theorem MarkingGang.marks_exactly {h : Heap} {L : Layout} (w : h.Clean L) {n : Nat} (hn : 0 < n)
    (explicitRequest clearSoft maximal : Bool) :
    ∃ first, start (Collector.create h n explicitRequest clearSoft maximal).prepare = .ok first ∧
      (∀ schedule, ∃ g, first.run schedule = .ok g ∧
        (g.isOver = true → h.Marked L clearSoft g.collector)) ∧
      (∀ schedule, Fair n schedule →
        ∃ k g, first.run (turns schedule k) = .ok g ∧ g.isOver = true) ∧
      ∃ c, h.Marked L clearSoft c ∧
        (Collector.create h n explicitRequest clearSoft maximal).prepare.markLive =
          c.processReferences := by
  obtain ⟨c, hc⟩ : ∃ c, c = (Collector.create h n explicitRequest clearSoft maximal).prepare :=
    ⟨_, rfl⟩
  have hheap : c.heap = h := by rw [hc]; rfl
  have hclear : c.scope.clearSoft = clearSoft := by rw [hc]; rfl
  have hworkers : c.workers = n := by rw [hc]; rfl
  have w : c.heap.Clean L := hheap ▸ w
  have hsize : h.table.regions.size = L.count := by rw [← hheap]; exact w.table.size
  have r : c.Attributed L := ⟨w.laid, fun i hi => by
    rw [hc]
    exact (Table.get_of_lt (by simp [prepare, Collector.create, hsize, hi])).trans
      (congrArg _ (Table.entry_map _ (hsize ▸ hi)))⟩
  have hlive : c.live.size = L.count := by
    rw [hc]
    simp [prepare, Collector.create, Heap.regionCount, RegionTable.size, hsize]
  have hz : ∀ i, i < L.count → Table.entry c.live i = 0 := fun i hi => by
    rw [hc]
    exact Table.entry_replicate _ _ (show i < h.table.regions.size from hsize ▸ hi)
  -- the workers keep an invariant of marking and one of stopping, whatever their schedule
  obtain ⟨first, hfirst, t, a⟩ := start_of w (hworkers ▸ hn) hlive hz
  rw [hworkers] at a
  rw [← hc]
  refine ⟨first, hfirst, fun schedule => ?_, fun schedule hf => exists_over w r t a hf, ?_⟩
  · obtain ⟨g, hg, t', a'⟩ := run_of w r schedule t a
    refine ⟨g, hg, fun hover => ?_⟩
    obtain ⟨hm, he⟩ := t'.exact w a' hover
    have hmarked := marked_of w r hm.laid he hm.size hm.counted
    rw [hclear, hheap] at hmarked
    rw [show g.collector = _ from hm.same]
    exact hmarked
  · obtain ⟨l, live, hrun, hl, he, hs, hcounted⟩ := markLive_of w r (hworkers ▸ hn) hlive hz
    have hmarked := marked_of w r hl he hs hcounted
    obtain ⟨c', hrefs, hc'⟩ := hmarked.roots
    rw [hclear, hheap] at hmarked
    refine ⟨_, hmarked, hrun.trans (hrefs.trans ?_).symm⟩
    rw [hc']
    rfl

open Heap MarkingGang in
/-- Three workers mark the sample, whatever their schedule. If they take turns they stop. -/
theorem MarkingGang.marks_sample : ∃ h L first, sample = .ok h ∧ h.Clean L ∧
    start (Collector.create h 3 true false false).prepare = .ok first ∧
    (∀ schedule, ∃ g, first.run schedule = .ok g ∧
      (g.isOver = true → h.Marked L false g.collector)) ∧
    ∃ k g, first.run (turns (· % 3) k) = .ok g ∧ h.Marked L false g.collector := by
  obtain ⟨h, L, hs, w⟩ := sample_wellFormed
  obtain ⟨first, hfirst, hrun, hstops, -⟩ :=
    marks_exactly w.toClean (n := 3) (by decide) true false false
  refine ⟨h, L, first, hs, w.toClean, hfirst, hrun, ?_⟩
  have hfair : Fair 3 (· % 3) := fun i hi k =>
    ⟨3 * k + i, by omega, (Nat.mul_add_mod ..).trans (Nat.mod_eq_of_lt hi)⟩
  obtain ⟨k, g, hg, hover⟩ := hstops (· % 3) hfair
  obtain ⟨g', hg', hmarked⟩ := hrun (turns (· % 3) k)
  obtain rfl := Except.ok.inj (hg.symm.trans hg')
  exact ⟨k, g, hg, hmarked hover⟩

end RegionHeap
