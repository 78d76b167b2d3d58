import RegionHeap.Proofs.Collecting
import RegionHeap.Proofs.CompactingApart

/-!
Collecting beside marks in closed archives. The collection of a well-formed heap and that of the
same heap with marks there go in lockstep: whatever the first one is known to have done tells that
the second one does not look at those marks.
-/
set_option autoImplicit false

namespace RegionHeap

open Checked

/-- Marks in these regions are not looked at. -/
def Heap.Sealed (h : Heap) (L : Layout) (i : Nat) : Prop :=
  i < L.count ∧ (h.region i).kind.isClosedArchive = true

namespace Collector

variable {c c' d d' e e' f f' x x' : Collector} {h : Heap} {L : Layout}
  {fill : Nat → List (Nat × Nat)} {m₃ : Memory} {done : List Nat} {base : Nat → Region} {n i : Nat}

theorem not_sealed_of_fate (w : h.Consistent L) {clearSoft : Bool} {threshold : Nat}
    (hf : h.fate clearSoft threshold i ≠ .skipMarking) : ¬h.Sealed L i :=
  fun hs => hf ((w.fate_eq_skipMarking hs.1).mpr hs.2)

theorem not_sealed_of_span (w : h.Consistent L) {s : Nat} (hs : s < L.count)
    (hk : (h.region s).kind.isStartsHumongous) (hfrom : s ≤ i)
    (hto : i < s + h.humongousSpan (h.region s)) : ¬h.Sealed L i := by
  rintro ⟨-, hi⟩
  rcases Nat.eq_or_lt_of_le hfrom with rfl | hlt
  · rw [Heap.kind_eq_starts hk] at hi
    contradiction
  · rw [((w.humongous s hs hk).later i hlt hto).1] at hi
    contradiction

theorem Prepared.avoids (p : c.Prepared L) : c.Avoids L (c.heap.Sealed L) := by
  refine ⟨p.clean.start, p.clean.bytes, fun i hi => ?_⟩
  rw [p.ready.attr_of hi.1, p.attr i hi.1, initialAttr, if_pos hi.2, if_neg]
  intro hfree
  have hk := hi.2
  cases hr : (c.heap.region i).kind <;> simp_all [RegionKind.isFree, RegionKind.isClosedArchive]

theorem Sorting.both (w : h.Consistent L) (m : c.Marked h L) (s : c.Sorting h L n d)
    (hn : n < L.count) (next : Nat) (hd : Agree L (h.Sealed L) d d') :
    Both (fun x y => Agree L (h.Sealed L) x.1 y.1 ∧ x.2 = y.2) (d.sortRegion next n)
      (d'.sortRegion next n) := by
  refine hd.sortRegion (fun attr ha hm hs => ?_) (fun r hr hk => ?_) next
  · obtain rfl : d.attrs.attr n = attr := Except.ok.inj ((s.ready.attr_of hn).symm.trans ha)
    have hfate : h.fate c.scope.clearSoft c.scope.threshold n = .skipMarking :=
      (w.fate_eq_skipMarking hn).mpr hs.2
    rw [s.attr n hn, hfate] at hm
    have hinit : initialAttr (h.region n) = .skipMarking := (initialAttr_eq_skip _).mpr hs.2
    rw [hinit] at hm
    split at hm <;> contradiction
  · obtain rfl : d.heap.region n = r := Except.ok.inj ((s.ready.region_of hn).symm.trans hr)
    have hl := s.ready.heap.table.region n hn
    have hreg : d.heap.region n = h.region n := by
      have hreg := s.region n hn
      split at hreg
      · rw [Heap.sorted] at hreg
        split at hreg
        · rw [hreg] at hk
          contradiction
        · exact hreg
      · exact hreg
    have hspan : d.heap.humongousSpan (d.heap.region n) = h.humongousSpan (h.region n) := by
      rw [s.humongousSpan m, hreg]
    refine ⟨?_, fun j hfrom hto => ?_⟩
    · rw [show (d.heap.region n).bottom = L.bottom n from hl.bottom, L.regionOf_bottom]
    · rw [show (d.heap.region n).index = n from hl.index] at hfrom hto
      exact not_sealed_of_span w hn (hreg ▸ hk) hfrom (hspan ▸ hto)

theorem Marked.sortRegions_both (w : h.Consistent L) (m : c.Marked h L)
    (hc : Agree L (h.Sealed L) c c') :
    Both (Agree L (h.Sealed L)) c.sortRegions c'.sortRegions := by
  have hindices : c'.heap.table.indices = List.range L.count := by
    obtain ⟨l', rfl, -⟩ := hc
    exact m.indices
  unfold sortRegions
  rw [m.indices, hindices]
  refine Both.bind (R := fun x y => Agree L (h.Sealed L) x.1 y.1 ∧ x.2 = y.2) ?_
    fun _ _ _ hxy => .ok hxy.1
  refine Both.foldlM_range
    (fun n (x : Collector × Nat) => x.2 < c.workers ∧ c.Sorting h L n x.1)
    (fun n x hn ⟨hx, s⟩ => ?_) (fun n x y hn ⟨_, s⟩ hxy => ?_) ⟨m.workers, m.sorting⟩ ⟨hc, rfl⟩
  · obtain ⟨d, next, he, hlt, s'⟩ := sortRegion_of w m s hn hx
    exact ⟨(d, next), he, hlt, s'⟩
  · obtain ⟨d', next'⟩ := y
    obtain ⟨hd, rfl⟩ := hxy
    exact s.both w m hn x.2 hd

theorem Sorted.planWorkers_both (w : h.Consistent L) (s : c.Sorted h L d)
    (hd : Agree L (h.Sealed L) d d') :
    Both (Agree L (h.Sealed L)) (d.run .plan planWorker) (d'.run .plan planWorker) := by
  refine hd.run s.ready (fun n e => ∃ fill, c.WorkersPlanned h L d n e fill)
    (fun k e hk ⟨fill, p⟩ => ?_) (fun k e e' hk ⟨fill, p⟩ he => ?_) ⟨nothing, s.workersPlanned⟩
  · obtain ⟨e', fill', he', p'⟩ := planWorker_of w s p (s.workers ▸ hk)
    exact ⟨e', he', fill', p'⟩
  · have hk : k < c.workers := s.workers ▸ hk
    refine he.planWorker p.plan.laid.bounded k fun q hq i hi => ?_
    have hz : k < e.points.size := p.size ▸ hk
    obtain rfl : Table.entry e.points k = q := Except.ok.inj ((Table.get_of_lt hz).symm.trans hq)
    rw [p.rest k (Nat.le_refl _)] at hi
    exact not_sealed_of_fate w (by rw [(s.points.inside hk hi).2]; simp)

theorem WorkersPlanned.planSerially_both (w : h.Consistent L) (m : c.Marked h L)
    (s : c.Sorted h L d) (p : c.WorkersPlanned h L d c.workers e fill)
    (he : Agree L (h.Sealed L) e e') :
    Both (Agree L (h.Sealed L)) e.planSerially e'.planSerially := by
  have o := p.slidePlan w m s
  have hin : ∀ i ∈ e.lists, ¬h.Sealed L i := fun i hi =>
    not_sealed_of_fate w (by rw [((o.mem i).mp hi).2]; simp)
  refine he.planSerially p.plan.laid.bounded (fun q hq i hi => hin i ?_) fun i hi => hin i ?_
  · exact List.mem_append_left _ (List.mem_flatMap.mpr ⟨q, hq, hi⟩)
  · exact List.mem_append_right _ hi

theorem Marked.planCompaction_both (w : h.Consistent L) (m : c.Marked h L)
    (hc : Agree L (h.Sealed L) c c') :
    Both (Agree L (h.Sealed L)) c.planCompaction c'.planCompaction := by
  obtain ⟨d₀, hsort, s₀⟩ := sortRegions_of w m
  obtain ⟨d, hforget, s⟩ := forgetReferences_of s₀
  obtain ⟨e, fill, hplan, p⟩ := planWorkers_of w s
  unfold planCompaction
  refine Both.bind (m.sortRegions_both w hc) fun x x' hx hxx => ?_
  obtain rfl := Except.ok.inj (hsort.symm.trans hx)
  have hworkers : x'.workers = d₀.workers := by
    obtain ⟨l', rfl, -⟩ := hxx
    rfl
  rw [hworkers]
  refine Both.bind_same fun _ _ => Both.bind hxx.forgetReferences fun y y' hy hyy => ?_
  obtain rfl := Except.ok.inj (hforget.symm.trans hy)
  refine Both.bind (s.planWorkers_both w hyy) fun z z' hz hzz => ?_
  obtain rfl := Except.ok.inj (hplan.symm.trans hz)
  have hagain : (z'.scope.maximal || !(z'.hasFreeTargets || z'.freed)) =
      (e.scope.maximal || !(e.hasFreeTargets || e.freed)) := by
    obtain ⟨l', rfl, -⟩ := hzz
    rfl
  rw [Checked.ite_bind, Checked.ite_bind, hagain]
  refine Both.bind (Both.ite (fun _ => p.planSerially_both w m s hzz) fun _ => .ok hzz)
    fun u u' _ huu => ?_
  have hmax : (u'.scope.maximal && !u'.humongousStarts.isEmpty) =
      (u.scope.maximal && !u.humongousStarts.isEmpty) := by
    obtain ⟨l', rfl, -⟩ := huu
    rfl
  dsimp only
  rw [Checked.ite_bind, Checked.ite_bind, hmax]
  exact Both.bind (Both.ite (fun _ => huu.planHumongous) fun _ => .ok huu)
    fun _ _ _ hvv => hvv.noteCompacted

theorem Planned.avoids (w : h.Consistent L) (p : c.Planned h L f fill) :
    f.Avoids L (h.Sealed L) := by
  refine ⟨p.ready.heap.start, p.ready.heap.bytes, fun i hi => ?_⟩
  rw [p.ready.attr_of hi.1, p.stay i hi.1 fun m hm hk => ?_]
  · rw [(w.fate_eq_skipMarking hi.1).mpr hi.2]
  · obtain ⟨hs, hk', hn⟩ := p.source_of hm
    exact not_sealed_of_span w hs hk' hk.1 (hn ▸ hk.2) hi

theorem Planned.not_sealed (w : h.Consistent L) (p : c.Planned h L f fill) (hi : i ∈ f.lists) :
    ¬h.Sealed L i :=
  not_sealed_of_fate w (by rw [((p.mem i).mp hi).2]; simp)

theorem Compacting.regions_both (w : h.Consistent L) (p : c.Planned h L f fill)
    (ha : f.Headed h c.scope m₃)
    (hbase : ∀ i ∈ f.lists, (base i).Alike (h.region i)) {part rest : List Nat}
    (hsplit : f.lists = done ++ (part ++ rest)) (k : c.Compacting h L f m₃ base done x)
    (hx : Agree L (h.Sealed L) x x') :
    Both (Agree L (h.Sealed L)) (part.foldlM compactRegion x) (part.foldlM compactRegion x') := by
  have hlists : ∀ done' i rest', part = done' ++ i :: rest' →
      f.lists = (done ++ done') ++ i :: (rest' ++ rest) := fun done' i rest' hpart => by
    rw [hsplit, hpart]
    simp
  refine Both.foldlM_split (fun done' x => c.Compacting h L f m₃ base (done ++ done') x)
    (fun done' i rest' y hpart ky => ?_) (fun done' i rest' y y' hpart ky hy => ?_)
    (by simpa using k) hx
  · obtain ⟨z, hz, kz⟩ := ky.step w p ha hbase (hlists done' i rest' hpart)
    exact ⟨z, hz, by rwa [List.append_assoc] at kz⟩
  · have hi : i ∈ f.lists := by
      rw [hlists done' i rest' hpart]
      simp
    exact hy.compactRegion (p.not_sealed w hi) fun r hr => (ky.table.bounded i r hr).2

theorem Planned.compactWorkers_both (w : h.Consistent L) (p : c.Planned h L f fill)
    (ha : f.Headed h c.scope m₃)
    (hx : Agree L (h.Sealed L) (f.withAdjusted m₃) x') :
    Both (Agree L (h.Sealed L)) ((f.withAdjusted m₃).run .compact compactWorker)
      (x'.run .compact compactWorker) := by
  refine hx.run (p.ready_adjusted m₃)
    (fun n x => c.Compacting h L f m₃ f.heap.region (f.listed n) x)
    (fun n x hn kx => compactWorker_of w p ha hn kx) (fun n x x' hn kx hx => ?_) (p.compacting m₃)
  obtain ⟨rest, hsplit⟩ := p.lists_split hn
  have hpoint : Table.get x'.points n = .ok (Table.entry f.points n) := by
    obtain ⟨l', rfl, -⟩ := hx
    exact kx.point p hn
  rw [compactWorker, compactWorker, kx.point p hn, hpoint]
  exact kx.regions_both w p ha (fun i hi => p.alike_listed hi) hsplit hx

theorem Planned.compact_both (w : h.Consistent L) (p : c.Planned h L f fill)
    (ha : Adjusted h f.memory (h.Traced c.scope.clearSoft) m₃)
    (hx : Agree L (h.Sealed L) (f.withAdjusted m₃) x') :
    Both (Agree L (h.Sealed L)) (f.withAdjusted m₃).compact x'.compact := by
  have headed := headed_of_adjusted w ha
  obtain ⟨x₁, h₁, k₁⟩ := compactWorkers_of w p headed
  obtain ⟨x₂, h₂, k₂⟩ := resetInPlace_of p k₁ fun j hj => by
    rw [p.lists_eq]
    exact List.mem_append_left _ hj
  obtain ⟨x₃, h₃, k₃⟩ := compactRegions_of w p headed (fun i hi => p.inPlace_alike hi)
    p.lists_serial k₂
  rw [← p.lists_eq] at k₃
  have hserial : x₂.serial = f.serial := by
    rw [k₂.same]
    rfl
  have hmoves : x₃.moves = f.moves := by
    rw [k₃.same]
    rfl
  -- where the left run gets is known phase by phase, and the right one follows it
  unfold compact
  refine Both.bind (p.compactWorkers_both w headed hx) fun y y' hy hyy => ?_
  obtain rfl := Except.ok.inj (h₁.symm.trans hy)
  refine Both.bind hyy.resetInPlace fun z z' hz hzz => ?_
  obtain rfl := Except.ok.inj (h₂.symm.trans hz)
  have hserial' : z'.serial = f.serial := by
    obtain ⟨l', rfl, -⟩ := hzz
    exact hserial
  rw [hserial, hserial']
  refine Both.bind (k₂.regions_both w p headed (fun i hi => p.inPlace_alike hi)
    p.lists_serial hzz) fun u u' hu huu => ?_
  obtain rfl := Except.ok.inj (h₃.symm.trans hu)
  have hmoves' : u'.moves = f.moves := by
    obtain ⟨l', rfl, -⟩ := huu
    exact hmoves
  rw [hmoves, hmoves']
  refine Both.foldlM_split (fun done x => c.Moving h L f m₃ done x)
    (fun done m rest v hsplit kv => kv.step w p ha hsplit)
    (fun done m rest v v' hsplit kv hv => ?_) k₃.moving huu
  have hm : m ∈ f.moves := by
    rw [hsplit]
    simp
  obtain ⟨hs, hk, -⟩ := p.source_of hm
  refine hv.moveHumongous m fun r hr => ?_
  obtain rfl : v.heap.table.region m.source = r :=
    Except.ok.inj ((kv.table.get_of hs).symm.trans hr)
  rw [(kv.table.region m.source hs).bottom, L.regionOf_bottom]
  exact not_sealed_of_span w hs hk (Nat.le_refl _) (by have := w.span_pos hs hk; omega)

/-- The phases in lockstep. -/
theorem Prepared.collect_both (p : c.Prepared L) (hc : Agree L (c.heap.Sealed L) c c') :
    Both (Agree L (c.heap.Sealed L)) c.collect c'.collect := by
  have w := p.clean.toConsistent
  obtain ⟨l, live, hmark, hl, he, hs, hn⟩ := markLive_of p.clean p.attributed p.ready.workers
    p.ready.live p.live
  have marked := p.marked hl he hs hn
  obtain ⟨f, fill, hplan, planned⟩ := planCompaction_of w marked
  obtain ⟨m₃, hadjust, adjusted⟩ := adjustReferences_of w planned
  unfold collect
  refine Both.bind (hc.markLive p.avoids) fun x x' hx hxx => ?_
  obtain rfl := Except.ok.inj (hmark.symm.trans hx)
  refine Both.bind (marked.planCompaction_both w hxx) fun y y' hy hyy => ?_
  obtain rfl := Except.ok.inj (hplan.symm.trans hy)
  refine Both.bind (hyy.adjustReferences (planned.avoids w) planned.ready.heap.table.bounded)
    fun z z' hz hzz => ?_
  obtain rfl := Except.ok.inj (hadjust.symm.trans hz)
  exact planned.compact_both w adjusted hzz

end Collector

namespace Heap

variable {h : Heap} {L : Layout}

/-- Marks in closed archives do not change what a collection gives. -/
theorem fullCollect_both (w : h.Clean L) {l : LivenessMap}
    (hl : LivenessMap.Agree L (h.Sealed L) h.liveness l)
    (explicitRequest clearSoft maximal : Bool) :
    Both (fun x y => ∃ l', y = { x with liveness := l' })
      (h.fullCollect explicitRequest clearSoft maximal)
      (({ h with liveness := l } : Heap).fullCollect explicitRequest clearSoft maximal) := by
  obtain ⟨h₀, habandon, a, w₁, hc, hactive⟩ := abandon_of w
  have hsealed : h₀.activateWorkers.Sealed L = h.Sealed L := by
    funext i
    rw [Sealed, Sealed, (a.kind i).1]
  unfold fullCollect
  refine Both.bind (R := fun x y => y = { x with liveness := l } ∧ x.liveness = h.liveness) ?_
    fun x y hx hxy => ?_
  · exact Both.bind_same fun s _ => .ok ⟨rfl, rfl⟩
  · obtain ⟨rfl, hlive⟩ := hxy
    obtain rfl := Except.ok.inj (habandon.symm.trans hx)
    have p := Collector.prepare_of w₁ explicitRequest clearSoft maximal hactive
    have hagree : Collector.Agree L (h₀.activateWorkers.Sealed L)
        (Collector.create h₀.activateWorkers h₀.activateWorkers.gang.active explicitRequest
          clearSoft maximal).prepare
        (Collector.create ({ h₀ with liveness := l } : Heap).activateWorkers
          h₀.activateWorkers.gang.active explicitRequest clearSoft maximal).prepare := by
      refine ⟨l, rfl, ?_⟩
      show LivenessMap.Agree L (h₀.activateWorkers.Sealed L) h₀.liveness l
      rw [hsealed, hlive]
      exact hl
    refine Both.bind (p.collect_both hagree) fun y y' _ hyy => ?_
    refine Both.bind hyy.complete fun z z' _ hz => ?_
    obtain ⟨m', rfl⟩ := hz
    exact .ok ⟨m', rfl⟩

end Heap

end RegionHeap
