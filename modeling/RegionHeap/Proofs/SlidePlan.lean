import RegionHeap.Proofs.WorkerPlan

/-!
The plan for all sliding objects: what the workers planned, or what is left of it after the
current regions of all workers, and those behind them, were planned again as one list. In either
case every sliding object has one place, in a region that is compacted no later than its own.
-/
set_option autoImplicit false

namespace RegionHeap

namespace Collector

/-- The regions that objects slide through, in the order in which they are compacted. -/
def lists (c : Collector) : List Nat :=
  c.points.toList.flatMap CompactionPoint.regions ++ c.serial.regions

def withSerial (c : Collector) (serial : CompactionPoint) : Collector := { c with serial := serial }

/-- Every sliding object has its place. -/
structure Placed (c : Collector) (h : Heap) (L : Layout) (e : Collector)
    (fill : Nat → List (Nat × Nat)) : Prop where
  size : e.points.size = c.workers
  nodup : e.lists.Nodup
  mem : ∀ i, i ∈ e.lists ↔
    i < L.count ∧ h.fate c.scope.clearSoft c.scope.threshold i = .compacting
  ascending : ∀ k, k < c.workers → (Table.entry e.points k).regions.Pairwise (· < ·)
  serialAscending : e.serial.regions.Pairwise (· < ·)
  filled : ∀ k ∈ e.lists,
    Filled (Object.size h.memory) L e.plan k (fill k) (Table.entry e.tops k)
  only : ∀ k ∈ e.lists, ∀ q ∈ fill k,
    q.2 ≤ q.1 ∧ h.Slides c.scope.clearSoft c.scope.threshold q.1
  all : ∀ o, h.Slides c.scope.clearSoft c.scope.threshold o →
    ∃ k ∈ e.lists, ∃ q, q ≤ o ∧ (o, q) ∈ fill k
  /-- A worker slides its objects into its own regions. -/
  closed : ∀ k, k < c.workers → ∀ i ∈ (Table.entry e.points k).regions,
    ∀ o ∈ h.liveIn c.scope.clearSoft i, ∀ j ∈ e.lists, ∀ q, (o, q) ∈ fill j →
      j ∈ (Table.entry e.points k).regions

/-- The plan for the sliding objects is made. -/
structure SlidePlan (c : Collector) (h : Heap) (L : Layout) (d e : Collector)
    (fill : Nat → List (Nat × Nat)) : Prop extends c.Placed h L e fill where
  same : e = (d.withPlan e.plan e.points).withSerial e.serial
  plan : e.plan.Of h L c.scope.clearSoft c.scope.threshold d.heap.table
  untouched : ∀ k ∈ e.serial.untouched, fill k = []
  /-- Objects of the regions that a worker was dealt go into what is left of these, or into those
  that were planned again. -/
  dealt : ∀ k, k < c.workers → ∀ i ∈ (Table.entry d.points k).regions,
    ∀ o ∈ h.liveIn c.scope.clearSoft i, ∀ j ∈ e.lists, ∀ q, (o, q) ∈ fill j →
      j ∈ (Table.entry e.points k).regions ∨ j ∈ e.serial.regions
  snug : ∀ k, k < c.workers →
    (Table.entry e.points k).regions.IsChain (Snug (Object.size h.memory) L fill)
  serialSnug : e.serial.regions.IsChain (Snug (Object.size h.memory) L fill)

variable {c d e : Collector} {h : Heap} {L : Layout} {fill : Nat → List (Nat × Nat)}

theorem WorkersPlanned.serial_eq_empty (m : c.Marked h L) (s : c.Sorted h L d)
    (p : c.WorkersPlanned h L d c.workers e fill) : e.serial = {} := by
  rw [p.same]
  show d.serial = {}
  rw [s.same]
  exact m.serial

theorem WorkersPlanned.regions_eq (p : c.WorkersPlanned h L d c.workers e fill) {k : Nat}
    (hk : k < c.workers) :
    (Table.entry e.points k).regions = (Table.entry d.points k).regions :=
  (p.slid k hk hk).regions

theorem WorkersPlanned.lists_eq (m : c.Marked h L) (s : c.Sorted h L d)
    (p : c.WorkersPlanned h L d c.workers e fill) :
    e.lists = e.points.toList.flatMap CompactionPoint.regions := by
  rw [lists, p.serial_eq_empty m s]
  exact List.append_nil _

theorem WorkersPlanned.mem_lists (m : c.Marked h L) (s : c.Sorted h L d)
    (p : c.WorkersPlanned h L d c.workers e fill) {i : Nat} :
    i ∈ e.lists ↔ ∃ k, k < c.workers ∧ i ∈ (Table.entry d.points k).regions := by
  rw [p.lists_eq m s, Table.mem_flatMap_entries, p.size]
  exact exists_congr fun k => and_congr_right fun hk => by rw [p.regions_eq hk]

theorem WorkersPlanned.dealt_of (w : h.Consistent L) (m : c.Marked h L) (s : c.Sorted h L d)
    (p : c.WorkersPlanned h L d c.workers e fill) {k i o j q : Nat} (hk : k < c.workers)
    (hi : i ∈ (Table.entry d.points k).regions) (ho : o ∈ h.liveIn c.scope.clearSoft i)
    (hj : j ∈ e.lists) (hq : (o, q) ∈ fill j) : j ∈ (Table.entry e.points k).regions := by
  obtain ⟨n, hn, hjn⟩ := (p.mem_lists m s).mp hj
  obtain ⟨-, i', hi', ho'⟩ := (p.slid n hn hn).only j hjn (o, q) hq
  have e := w.liveIn_unique (s.points.inside hk hi).1 (s.points.inside hn hi').1 ho ho'
  rw [p.regions_eq hk, s.points.once i k n hk hn hi (e ▸ hi')]
  exact hjn

/-- Without planning again the plans of the workers are the plan. -/
theorem WorkersPlanned.slidePlan (w : h.Consistent L) (m : c.Marked h L) (s : c.Sorted h L d)
    (p : c.WorkersPlanned h L d c.workers e fill) : c.SlidePlan h L d e fill := by
  have hserial := p.serial_eq_empty m s
  have hsliding : ∀ i, i ∈ e.lists ↔
      i < L.count ∧ h.fate c.scope.clearSoft c.scope.threshold i = .compacting := by
    intro i
    rw [p.mem_lists m s, s.points.dealt]
    simp
  refine {
    size := p.size
    nodup := ?nodup
    mem := hsliding
    ascending := fun k hk => ?ascending
    serialAscending := by rw [hserial]; exact .nil
    filled := fun k hk => ?filled
    only := fun k hk q hq => ?only
    all := fun o ho => ?all
    closed := fun k hk i hi o ho j hj q => p.dealt_of w m s hk (p.regions_eq hk ▸ hi) ho hj
    same := ?same
    plan := p.plan
    untouched := fun k hk => ?untouched
    dealt := fun k hk i hi o ho j hj q hq => .inl (p.dealt_of w m s hk hi ho hj hq)
    snug := fun k hk => p.regions_eq hk ▸ (p.slid k hk hk).snug
    serialSnug := by rw [hserial]; exact .nil }
  case nodup =>
    rw [p.lists_eq m s]
    refine Table.nodup_flatMap_entries (fun k hk => ?_) fun i k k' hk hk' hi hi' => ?_
    · rw [p.size] at hk
      rw [p.regions_eq hk]
      exact (s.points.ascending k hk).imp Nat.ne_of_lt
    · rw [p.size] at hk hk'
      rw [p.regions_eq hk] at hi
      rw [p.regions_eq hk'] at hi'
      exact s.points.once i k k' hk hk' hi hi'
  case ascending =>
    rw [p.regions_eq hk]
    exact s.points.ascending k hk
  case filled =>
    obtain ⟨n, hn, hkn⟩ := (p.mem_lists m s).mp hk
    exact (p.slid n hn hn).filled k hkn
  case only =>
    obtain ⟨n, hn, hkn⟩ := (p.mem_lists m s).mp hk
    obtain ⟨hle, i, hi, ho⟩ := (p.slid n hn hn).only k hkn q hq
    have := s.points.inside hn hi
    exact ⟨hle, i, by rw [w.regionCount]; exact this.1, this.2, ho⟩
  case all =>
    obtain ⟨i, hi, hf, ho⟩ := ho
    rw [w.regionCount] at hi
    obtain ⟨n, hn, hin⟩ := (s.points.dealt i).mpr ⟨hi, hi, hf⟩
    obtain ⟨k, hk, q, hle, hq⟩ := (p.slid n hn hn).all i hin o ho
    exact ⟨k, (p.mem_lists m s).mpr ⟨n, hn, hk⟩, q, hle, hq⟩
  case same =>
    have hd : d.serial = {} := by
      rw [s.same]
      exact m.serial
    rw [hserial, ← hd]
    exact p.same
  case untouched =>
    rw [hserial] at hk
    simp [CompactionPoint.untouched] at hk

end Collector

end RegionHeap
