import RegionHeap.Proofs.WellFormed

/-!
Collectors whose tables cover the heap. No lookup of such a collector is refused, and its workers
are those of the gang that were activated.
-/
set_option autoImplicit false

namespace RegionHeap

namespace Heap

/-- The regions and the liveness map of a heap lie where its layout says. -/
structure Laid (h : Heap) (L : Layout) : Prop where
  start : h.start = L.start
  bytes : h.regionBytes = L.bytes
  table : h.table.Laid L
  liveness : h.liveness.Laid L

namespace Laid

variable {h : Heap} {L : Layout} {a i : Nat}

theorem regionCount (l : h.Laid L) : h.regionCount = L.count := l.table.size

theorem contains_iff (l : h.Laid L) : h.contains a = true ↔ L.start ≤ a ∧ a < L.limit := by
  have he : h.limit = L.limit := by
    rw [Heap.limit, l.start, l.bytes, l.regionCount]
    rfl
  simp [contains, l.start, he]

theorem contains_of (l : h.Laid L) (ha : L.IsWord a) : h.contains a = true :=
  l.contains_iff.mpr ⟨ha.start_le, ha.lt_limit⟩

theorem regionOf_of_contains (l : h.Laid L) (ha : h.contains a) :
    h.regionOf a = .ok (L.regionOf a) := by
  simp only [regionOf, ha, Checked.unless_true, Checked.ok_bind, Checked.pure_eq, l.start, l.bytes,
    Layout.regionOf]

theorem regionOf_of (l : h.Laid L) (ha : L.IsWord a) : h.regionOf a = .ok (L.regionOf a) :=
  l.regionOf_of_contains (l.contains_of ha)

theorem withLiveness (l : h.Laid L) {map : LivenessMap} (hm : map.Laid L) :
    ({ h with liveness := map } : Heap).Laid L :=
  ⟨l.start, l.bytes, l.table, hm⟩

theorem withTable (l : h.Laid L) {t : RegionTable} (ht : t.Laid L) :
    ({ h with table := t } : Heap).Laid L :=
  ⟨l.start, l.bytes, ht, l.liveness⟩

end Laid

theorem Clean.laid {h : Heap} {L : Layout} (w : h.Clean L) : h.Laid L :=
  ⟨w.start, w.bytes, w.table, w.liveness⟩

theorem updateRegion_of {h : Heap} {L : Layout} {i : Nat} {f : Region → Checked Region} {r : Region}
    (ht : h.table.Laid L) (hi : i < L.count) (hf : f (h.region i) = .ok r) :
    h.updateRegion i f = .ok { h with table := h.table.put i r } :=
  Checked.bind_of (ht.update_of hi hf) _

end Heap

namespace Collector

structure Ready (c : Collector) (L : Layout) : Prop where
  heap : c.heap.Laid L
  attrs : c.attrs.size = L.count
  live : c.live.size = L.count
  tops : c.tops.size = L.count
  points : c.points.size = c.workers
  workers : 0 < c.workers
  gang : c.workers ≤ c.heap.gang.size

namespace Ready

variable {c : Collector} {L : Layout} {a i : Nat}

theorem region_of (r : c.Ready L) (hi : i < L.count) : c.region i = .ok (c.heap.region i) :=
  r.heap.table.get_of hi

theorem attr_of (r : c.Ready L) (hi : i < L.count) : c.attrs.get i = .ok (c.attrs.attr i) :=
  AttrTable.get_of_lt (r.attrs ▸ hi)

theorem liveWords_of (r : c.Ready L) (hi : i < L.count) :
    c.liveWords i = .ok (Table.entry c.live i) :=
  Table.get_of_lt (r.live ▸ hi)

theorem point_of (r : c.Ready L) (hi : i < c.workers) :
    Table.get c.points i = .ok (Table.entry c.points i) :=
  Table.get_of_lt (r.points ▸ hi)

theorem runWith (r : c.Ready L) : c.heap.gang.runWith c.workers = List.range c.workers := by
  have hworkers := r.workers
  have hgang := r.gang
  rw [Gang.runWith, Gang.clamp, show min (max c.workers 1) c.heap.gang.size = c.workers by omega]

theorem indices (r : c.Ready L) : c.heap.table.indices = List.range L.count := by
  rw [RegionTable.indices, r.heap.table.size]

theorem run_of (r : c.Ready L) (task : CollectionTask) (work : Nat → Collector → Checked Collector)
    (I : Nat → Collector → Prop)
    (step : ∀ k d, k < c.workers → I k d → ∃ d', work k d = .ok d' ∧ I (k + 1) d') (h : I 0 c) :
    ∃ d, c.run task work = .ok d ∧ I c.workers d := by
  rw [run, r.runWith]
  refine Checked.foldlM_range_of I (fun k d hk hi => ?_) c h
  obtain ⟨d', hd, hi'⟩ := step k d hk hi
  exact ⟨d', by simp only [hd], hi'⟩

end Ready

end Collector

end RegionHeap
