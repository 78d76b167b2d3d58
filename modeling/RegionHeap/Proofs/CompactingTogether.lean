import RegionHeap.Collection.CompactionGang
import RegionHeap.Proofs.Compacting
import RegionHeap.Proofs.Stopping

/-!
Compacting by workers that take turns in any order. The objects that were visited are at their
places, whichever worker visited them: a worker slides its objects into regions of its own, and
within these downwards. Each worker meets the live objects of its queue one after the other.
-/
set_option autoImplicit false

namespace RegionHeap

namespace CompactionGang

open Collector

/-- Some listed regions are compacted. Queues of others can be compacted beside each other. -/
structure Queued (c : Collector) (h : Heap) (f : Collector) (fill : Nat → List (Nat × Nat))
    (done : List Nat) (queues : List (List Nat)) : Prop where
  known : ∀ j ∈ done, j ∈ f.lists
  listed : ∀ q ∈ queues, ∀ i ∈ q, i ∈ f.lists ∧ i ∉ done
  disjoint : queues.Pairwise List.Disjoint
  ascending : ∀ q ∈ queues, q.Pairwise (· < ·)
  spares : ∀ q ∈ queues, ∀ i ∈ q, ∀ j, j ∈ done ∨ j ∈ queues.flatten → j ∉ q →
    c.Spares h f fill j i

/-- A worker has come so far through its queue. -/
inductive Passing (c : Collector) (h : Heap) (L : Layout) (base : Nat → Region) :
    List Nat → CompactWorker → Prop
  | between (before regions : List Nat) : Passing c h L base (before ++ regions)
      ⟨regions, .between, before.flatMap (h.liveIn c.scope.clearSoft)⟩
  | walking {before rest seen left : List Nat} {i cursor : Nat}
    (split : h.liveIn c.scope.clearSoft i = seen ++ left) (above : L.bottom i ≤ cursor)
    (aligned : cursor % 8 = 0) (ahead : ∀ o ∈ left, cursor ≤ o) :
    Passing c h L base (before ++ i :: rest) ⟨i :: rest, .walking (base i).top cursor,
      before.flatMap (h.liveIn c.scope.clearSoft) ++ seen⟩
  | walked (before rest : List Nat) (i : Nat) : Passing c h L base (before ++ i :: rest)
      ⟨i :: rest, .walked,
        before.flatMap (h.liveIn c.scope.clearSoft) ++ h.liveIn c.scope.clearSoft i⟩

def pending (g : CompactionGang) : List Nat := g.workers.flatMap CompactWorker.regions

def visited (g : CompactionGang) : List Nat := g.workers.flatMap CompactWorker.visited

/-- How many steps a worker can take at most that visits no more than so many objects. -/
def steps (bound : Nat) (x : CompactWorker) : Nat :=
  3 * x.regions.length + (match x.phase with
    | .between => 2
    | .walking _ _ => 1
    | .walked => 0) + (bound - x.visited.length)

def remaining (bound : Nat) (g : CompactionGang) : Nat := Word.total (g.workers.map (steps bound))

/-- The worker is not through. -/
def Active (g : CompactionGang) (k : Nat) : Prop := ∃ x, g.workers[k]? = some x ∧ x.regions ≠ []

/-- All that was visited is at its place, and the regions that were left have their tops. -/
structure Sliding (c : Collector) (h : Heap) (L : Layout) (f : Collector) (m : Memory)
    (base : Nat → Region) (done : List Nat) (queues : List (List Nat)) (g : CompactionGang) :
    Prop where
  same : g.collector =
    (f.withAdjusted m).withHeap g.collector.heap.table g.collector.heap.liveness
  table : g.collector.heap.table.Laid L
  liveness : g.collector.heap.liveness.Laid L
  region : ∀ i, i < L.count → g.collector.heap.region i =
    if i ∈ done ∨ i ∈ queues.flatten ∧ i ∉ g.pending
    then (base i).compactedTo (Table.entry f.tops i) else base i
  slipped : c.Slipped h L f m (fun o => c.Gone h L done o ∨ o ∈ g.visited) g.collector.heap
  size : g.workers.length = queues.length
  passing : ∀ (k : Nat) (q : List Nat) (x : CompactWorker), queues[k]? = some q →
    g.workers[k]? = some x → Passing c h L base q x

variable {c f : Collector} {h : Heap} {L : Layout} {fill : Nat → List (Nat × Nat)} {m : Memory}
  {base : Nat → Region} {done : List Nat} {queues : List (List Nat)} {g : CompactionGang}
  {i k o : Nat} {q : List Nat} {x y : CompactWorker}

theorem mem_visited : o ∈ g.visited ↔ ∃ x ∈ g.workers, o ∈ x.visited := List.mem_flatMap

theorem mem_pending : i ∈ g.pending ↔ ∃ x ∈ g.workers, i ∈ x.regions := List.mem_flatMap

theorem mem_visited_put (hx : g.workers[k]? = some x) (hy : y.visited = x.visited ++ [o]) (n : Nat) :
    n ∈ (g.put k y).visited ↔ n ∈ g.visited ∨ n = o := by
  obtain ⟨before, after, hsplit, hset⟩ := split_of_getElem? hx
  simp only [visited, put, hset]
  rw [hsplit]
  simp only [List.flatMap_append, List.flatMap_cons, hy, List.mem_append, List.mem_singleton]
  tauto

theorem mem_pending_put (hx : g.workers[k]? = some x) (hy : x.regions = i :: y.regions) {j : Nat}
    (hj : j ≠ i) : j ∈ (g.put k y).pending ↔ j ∈ g.pending := by
  obtain ⟨before, after, hsplit, hset⟩ := split_of_getElem? hx
  simp only [pending, put, hset]
  rw [hsplit]
  simp only [List.flatMap_append, List.flatMap_cons, hy, List.mem_append, List.mem_cons]
  tauto

theorem Queued.unique (u : Queued c h f fill done queues) {k' : Nat} {q' : List Nat}
    (hq : queues[k]? = some q) (hq' : queues[k']? = some q') (hi : i ∈ q) (hi' : i ∈ q') :
    k = k' := by
  obtain ⟨hk, rfl⟩ := List.getElem?_eq_some_iff.mp hq
  obtain ⟨hk', rfl⟩ := List.getElem?_eq_some_iff.mp hq'
  have hpair := List.pairwise_iff_getElem.mp u.disjoint
  rcases Nat.lt_trichotomy k k' with hlt | heq | hlt
  · exact absurd hi' (hpair k k' hk hk' hlt hi)
  · exact heq
  · exact absurd hi (hpair k' k hk' hk hlt hi')

theorem Queued.mem (u : Queued c h f fill done queues) (hi : i ∈ done ∨ i ∈ queues.flatten) :
    i ∈ f.lists := by
  rcases hi with hi | hi
  · exact u.known i hi
  · obtain ⟨q, hq, hi⟩ := List.mem_flatten.mp hi
    exact (u.listed q hq i hi).1

theorem Queued.head_of (u : Queued c h f fill done queues) (p : c.Planned h L f fill)
    {before rest : List Nat} (hq : queues[k]? = some (before ++ i :: rest)) :
    i ∈ before ++ i :: rest ∧ i ∈ f.lists ∧ i < L.count := by
  have hi : i ∈ before ++ i :: rest := by simp
  have hf := (u.listed _ (List.mem_of_getElem? hq) i hi).1
  exact ⟨hi, hf, ((p.mem i).mp hf).1⟩

theorem mem_flatten (hq : queues[k]? = some q) (hi : i ∈ q) : i ∈ queues.flatten :=
  List.mem_flatten.mpr ⟨q, List.mem_of_getElem? hq, hi⟩

theorem remaining_lt {g' : CompactionGang} {bound : Nat} (hx : g.workers[k]? = some x)
    (hw : g'.workers = g.workers.set k y) (hlt : steps bound y < steps bound x) :
    g'.remaining bound < g.remaining bound := by
  obtain ⟨before, after, hsplit, hset⟩ := split_of_getElem? hx
  rw [remaining, remaining, hw, hset, hsplit]
  simp only [List.map_append, List.map_cons, Word.total_append, Word.total]
  omega

theorem enter_eq (k : Nat) (y : CompactWorker) {r : Region} (hget : g.collector.region i = .ok r)
    (hpinned : r.isPinned = false) (hhum : r.kind.isHumongous = false)
    (hl : g.collector.liveness.Laid L) (hi : i < L.count) :
    g.enter k y i = .ok (g.put k { y with
      phase := if (g.collector.liveness.sliceAt i).state.isMarked
        then .walking r.top (L.bottom i) else .walked }) := by
  have hmarked : g.collector.liveness.isRegionMarked i =
      .ok (g.collector.liveness.sliceAt i).state.isMarked := by
    simp [LivenessMap.isRegionMarked, hl.slice_of hi]
  rw [enter, Checked.bind_of hget]
  simp only [hpinned, hhum, Bool.not_false, Checked.unless_true, Checked.ok_bind]
  rw [Checked.bind_of hmarked, hl.regionStart_eq]
  cases (g.collector.liveness.sliceAt i).state.isMarked <;> rfl

namespace Passing

theorem mem_live (v : Passing c h L base q x) (ho : o ∈ x.visited) :
    ∃ j ∈ q, o ∈ h.liveIn c.scope.clearSoft j := by
  cases v with
  | between before regions =>
    obtain ⟨j, hj, ho⟩ := List.mem_flatMap.mp ho
    exact ⟨j, by simp [hj], ho⟩
  | @walking before rest seen left i cursor split =>
    rcases List.mem_append.mp ho with ho | ho
    · obtain ⟨j, hj, ho⟩ := List.mem_flatMap.mp ho
      exact ⟨j, by simp [hj], ho⟩
    · exact ⟨i, by simp, by simp [split, ho]⟩
  | walked before rest i =>
    rcases List.mem_append.mp ho with ho | ho
    · obtain ⟨j, hj, ho⟩ := List.mem_flatMap.mp ho
      exact ⟨j, by simp [hj], ho⟩
    · exact ⟨i, by simp, ho⟩

theorem regions_suffix (v : Passing c h L base q x) : x.regions <:+ q := by
  cases v <;> exact List.suffix_append ..

theorem visited_of_over (v : Passing c h L base q x) (hx : x.regions = []) :
    x.visited = q.flatMap (h.liveIn c.scope.clearSoft) := by
  cases v with
  | between before regions =>
    obtain rfl : regions = [] := hx
    rw [List.append_nil]
  | walking | walked => contradiction

end Passing

namespace Sliding

theorem queue_of (s : Sliding c h L f m base done queues g) (hx : g.workers[k]? = some x) :
    ∃ q, queues[k]? = some q ∧
      Passing c h L base q x := by
  obtain ⟨hk, -⟩ := List.getElem?_eq_some_iff.mp hx
  have hk' : k < queues.length := s.size ▸ hk
  exact ⟨_, List.getElem?_eq_getElem hk', s.passing k _ x (List.getElem?_eq_getElem hk') hx⟩

theorem passing_set (s : Sliding c h L f m base done queues g) (hq : queues[k]? = some q)
    (v : Passing c h L base q y) (k' : Nat)
    (q' : List Nat) (z : CompactWorker) (hq' : queues[k']? = some q')
    (hz : (g.workers.set k y)[k']? = some z) :
    Passing c h L base q' z := by
  by_cases hk : k = k'
  · subst hk
    obtain ⟨hlt, rfl⟩ := List.getElem?_eq_some_iff.mp hz
    obtain rfl := Option.some.inj (hq.symm.trans hq')
    rwa [List.getElem_set_self]
  · rw [List.getElem?_set_ne hk] at hz
    exact s.passing k' q' z hq' hz

theorem turn (s : Sliding c h L f m base done queues g) (hq : queues[k]? = some q)
    (hx : g.workers[k]? = some x) (hr : y.regions = x.regions) (hv : y.visited = x.visited)
    (v : Passing c h L base q y) :
    Sliding c h L f m base done queues (g.put k y) := by
  have hpending : (g.put k y).pending = g.pending := flatMap_set_of_eq hx hr
  have hvisited : (g.put k y).visited = g.visited := flatMap_set_of_eq hx hv
  refine ⟨s.same, s.table, s.liveness, fun i hi => ?_, ?_, ?_, s.passing_set hq v⟩
  · rw [hpending]
    exact s.region i hi
  · rw [hvisited]
    exact s.slipped
  · exact (List.length_set ..).trans s.size

theorem laid (s : Sliding c h L f m base done queues g) (p : c.Planned h L f fill) :
    g.collector.heap.Laid L := by
  rw [s.same]
  exact ⟨p.ready.heap.start, p.ready.heap.bytes, s.table, s.liveness⟩

section Steps

variable (w : h.Consistent L) (p : c.Planned h L f fill) (u : Queued c h f fill done queues)

theorem region_of (p : c.Planned h L f fill) (u : Queued c h f fill done queues)
    (s : Sliding c h L f m base done queues g) (hq : queues[k]? = some q)
    (hx : g.workers[k]? = some x) (hi : i ∈ q) (hr : i ∈ x.regions) :
    g.collector.heap.region i = base i ∧ (base i).Laid L i := by
  obtain ⟨hf, hnew⟩ := u.listed q (List.mem_of_getElem? hq) i hi
  have hil := ((p.mem i).mp hf).1
  have hpend : i ∈ g.pending := mem_pending.mpr ⟨x, List.mem_of_getElem? hx, hr⟩
  have hreg : g.collector.heap.region i = base i := by
    rw [s.region i hil, if_neg]
    rintro (hd | ⟨-, hn⟩)
    · exact hnew hd
    · exact hn hpend
  exact ⟨hreg, hreg ▸ s.table.region i hil⟩

theorem not_pending (u : Queued c h f fill done queues)
    (s : Sliding c h L f m base done queues g) {before rest : List Nat}
    (hq : queues[k]? = some (before ++ i :: rest))
    (v : Passing c h L base (before ++ i :: rest) y) (hy : y.regions = rest) :
    i ∉ (g.put k y).pending := fun hm => by
  obtain ⟨z, hz, hi⟩ := mem_pending.mp hm
  obtain ⟨k', hz⟩ := List.mem_iff_getElem?.mp hz
  have hk' : k' < queues.length := by
    obtain ⟨hlt, -⟩ := List.getElem?_eq_some_iff.mp hz
    have hsize : (g.workers.set k y).length = g.workers.length := List.length_set ..
    exact s.size ▸ hsize ▸ hlt
  have hq' := List.getElem?_eq_getElem hk'
  have hi' := (s.passing_set hq v k' _ z hq' hz).regions_suffix.subset hi
  obtain rfl := u.unique hq hq' (by simp) hi'
  obtain ⟨hlt, rfl⟩ := List.getElem?_eq_some_iff.mp hz
  simp only [put, List.getElem_set_self, hy] at hi
  have hasc := u.ascending _ (List.mem_of_getElem? hq)
  exact Nat.lt_irrefl _ ((List.pairwise_cons.mp (List.pairwise_append.mp hasc).2.1).1 i hi)

include w u

/-- What is at its place was visited by a worker, or lies outside its queue. -/
theorem cases_of (s : Sliding c h L f m base done queues g) (hq : queues[k]? = some q)
    (hx : g.workers[k]? = some x) (ho : c.Gone h L done o ∨ o ∈ g.visited) :
    o ∈ x.visited ∨ ∃ j, o ∈ h.liveIn c.scope.clearSoft j ∧ j ∉ q ∧
      (j ∈ done ∨ j ∈ queues.flatten) := by
  rcases ho with ⟨ht, hd⟩ | hv
  · exact .inr ⟨_, w.mem_liveIn_regionOf ht,
      fun hm => (u.listed q (List.mem_of_getElem? hq) _ hm).2 hd, .inl hd⟩
  · obtain ⟨y, hy, hv⟩ := mem_visited.mp hv
    obtain ⟨k', hy⟩ := List.mem_iff_getElem?.mp hy
    by_cases hk : k' = k
    · subst hk
      obtain rfl := Option.some.inj (hy.symm.trans hx)
      exact .inl hv
    · obtain ⟨q', hq', v⟩ := s.queue_of hy
      obtain ⟨j, hj, ho⟩ := v.mem_live hv
      exact .inr ⟨j, ho, fun hm => hk (u.unique hq' hq hj hm), .inr (mem_flatten hq' hj)⟩

include p

/-- The marks in the regions of a worker's queue are those of live objects that it has not
visited. -/
theorem marked_iff (s : Sliding c h L f m base done queues g) (hq : queues[k]? = some q)
    (hx : g.workers[k]? = some x) (hi : i ∈ q) (ho : L.IsWord o) (hr : L.regionOf o = i) :
    g.collector.heap.liveness.marked L o = true ↔
      o ∈ h.liveIn c.scope.clearSoft i ∧ o ∉ x.visited := by
  subst hr
  rw [s.slipped.marks o ho]
  refine ⟨fun ⟨ht, hg⟩ => ⟨w.mem_liveIn_regionOf ht, fun hv => hg (.inr ?_)⟩,
    fun ⟨hl, hv⟩ => ⟨(Heap.mem_liveIn.mp hl).2, fun hg => ?_⟩⟩
  · exact mem_visited.mpr ⟨x, List.mem_of_getElem? hx, hv⟩
  · rcases s.cases_of w u hq hx hg with hg | ⟨j, hj, hnot, hd⟩
    · exact hv hg
    · have hjl := ((p.mem j).mp (u.mem hd)).1
      have hr : L.regionOf o = j := (w.liveIn_inside hjl hj).2.1
      exact hnot (hr ▸ hi)

variable {before rest seen left : List Nat} {cursor : Nat}

theorem not_passed (hq : queues[k]? = some (before ++ rest)) (hi : i ∈ rest)
    (ho : o ∈ h.liveIn c.scope.clearSoft i) :
    o ∉ before.flatMap (h.liveIn c.scope.clearSoft) := fun hm => by
  have hmem := List.mem_of_getElem? hq
  obtain ⟨j, hj, ho'⟩ := List.mem_flatMap.mp hm
  have hcount : ∀ n ∈ before ++ rest, n < L.count := fun n hn =>
    ((p.mem n).mp (u.listed _ hmem n hn).1).1
  obtain rfl := w.liveIn_unique (hcount i (by simp [hi])) (hcount j (by simp [hj])) ho ho'
  exact Nat.lt_irrefl _ ((List.pairwise_append.mp (u.ascending _ hmem)).2.2 i hj i hi)

theorem liveIn_eq_nil_of (s : Sliding c h L f m base done queues g)
    (hq : queues[k]? = some (before ++ i :: rest)) (hx : g.workers[k]? = some x)
    (hv : x.visited = before.flatMap (h.liveIn c.scope.clearSoft))
    (hst : (g.collector.liveness.sliceAt i).state.isMarked = false) :
    h.liveIn c.scope.clearSoft i = [] := by
  obtain ⟨hi, -, hil⟩ := u.head_of p hq
  refine List.eq_nil_iff_forall_not_mem.mpr fun o ho => ?_
  obtain ⟨how, hor, -⟩ := w.liveIn_inside hil ho
  have hm := (s.marked_iff w p u hq hx hi how hor).mpr
    ⟨ho, hv ▸ not_passed w p u hq (by simp) ho⟩
  rw [LivenessMap.marked_eq_holds hor, LivenessMap.holds] at hm
  simp [show (g.collector.heap.liveness.sliceAt i).state.isMarked = false from hst] at hm

theorem enter_of (hbase : ∀ i ∈ f.lists, (base i).Alike (h.region i))
    (s : Sliding c h L f m base done queues g) (hq : queues[k]? = some (before ++ i :: rest))
    (hx : g.workers[k]? = some ⟨i :: rest, .between, before.flatMap (h.liveIn c.scope.clearSoft)⟩) :
    ∃ phase, phase ≠ .between ∧ g.step k = .ok (g.put k
        ⟨i :: rest, phase, before.flatMap (h.liveIn c.scope.clearSoft)⟩) ∧
      Passing c h L base (before ++ i :: rest)
        ⟨i :: rest, phase, before.flatMap (h.liveIn c.scope.clearSoft)⟩ := by
  obtain ⟨hi, hf, hil⟩ := u.head_of p hq
  obtain ⟨hreg, -⟩ := s.region_of p u hq hx hi (by simp)
  have hget : g.collector.region i = .ok (base i) := hreg ▸ s.table.get_of hil
  obtain ⟨hpinned, hhum⟩ := p.slidable_of w hf (hbase i hf)
  have hstep := enter_eq k ⟨i :: rest, .between, before.flatMap (h.liveIn c.scope.clearSoft)⟩
    hget hpinned hhum s.liveness hil
  cases hst : (g.collector.liveness.sliceAt i).state.isMarked with
  | false =>
    rw [hst, if_neg Bool.false_ne_true] at hstep
    have hwalked : Passing c h L base (before ++ i :: rest) _ := .walked before rest i
    rw [s.liveIn_eq_nil_of w p u hq hx rfl hst, List.append_nil] at hwalked
    exact ⟨.walked, by simp, by simpa only [step, hx] using hstep, hwalked⟩
  | true =>
    rw [hst, if_pos rfl] at hstep
    have hwalking : Passing c h L base (before ++ i :: rest) _ :=
      .walking (List.nil_append _).symm (Nat.le_refl _) (L.bottom_mod i) fun o ho => by
        obtain ⟨how, hor, -⟩ := w.liveIn_inside hil ho
        exact hor ▸ Layout.bottom_regionOf_le how.start_le
    rw [List.append_nil] at hwalking
    exact ⟨.walking (base i).top (L.bottom i), by simp, by simpa only [step, hx] using hstep,
      hwalking⟩

/-- What is at its place does not lie over the next object of a worker. -/
theorem slid_of (s : Sliding c h L f m base done queues g)
    (hq : queues[k]? = some (before ++ i :: rest)) (hx : g.workers[k]? = some x)
    (hv : x.visited = before.flatMap (h.liveIn c.scope.clearSoft) ++ seen)
    (split : h.liveIn c.scope.clearSoft i = seen ++ o :: left) {n : Nat}
    (hn : c.Gone h L done n ∨ n ∈ g.visited) :
    h.Slides c.scope.clearSoft c.scope.threshold n ∧ n ≠ o ∧
      (n < o ∨ ∀ k ∈ f.lists, (n, f.place n) ∈ fill k → k ≠ i) := by
  have hmem := List.mem_of_getElem? hq
  obtain ⟨hi, hf, -⟩ := u.head_of p hq
  have ho : o ∈ h.liveIn c.scope.clearSoft i := by simp [split]
  rcases s.cases_of w u hq hx hn with hn | ⟨j, hj, hnot, hd⟩
  · rw [hv] at hn
    rcases List.mem_append.mp hn with hn | hn
    · obtain ⟨j, hj, hn⟩ := List.mem_flatMap.mp hn
      have hlt := (List.pairwise_append.mp (u.ascending _ hmem)).2.2 j hj i (by simp)
      have hspares : c.Spares h f fill j i := fun _ _ _ _ _ => .inr hlt
      exact hspares.slid_of w p (u.listed _ hmem j (by simp [hj])).1 hf (Nat.ne_of_lt hlt) hn ho
    · obtain ⟨hs, hlt⟩ := p.slid_of_mem w hf split hn
      exact ⟨hs, Nat.ne_of_lt hlt, .inl hlt⟩
  · exact (u.spares _ hmem i hi j hd hnot).slid_of w p (u.mem hd) hf (fun e => hnot (e ▸ hi)) hj ho

theorem left_of (s : Sliding c h L f m base done queues g)
    (hq : queues[k]? = some (before ++ i :: rest)) (hx : g.workers[k]? = some x)
    (hv : x.visited = before.flatMap (h.liveIn c.scope.clearSoft) ++ seen)
    (split : h.liveIn c.scope.clearSoft i = seen ++ left) {a : Nat} (ha : L.IsWord a)
    (hr : L.regionOf a = i) : g.collector.heap.liveness.marked L a = true ↔ a ∈ left := by
  obtain ⟨hi, -, hil⟩ := u.head_of p hq
  have hnodup : (h.liveIn c.scope.clearSoft i).Nodup := (w.liveIn_sorted hil).imp Nat.ne_of_lt
  rw [s.marked_iff w p u hq hx hi ha hr, hv, List.mem_append]
  constructor
  · rintro ⟨hl, hn⟩
    rw [split, List.mem_append] at hl
    exact hl.resolve_left fun hs => hn (.inr hs)
  · intro hl
    have hlive : a ∈ h.liveIn c.scope.clearSoft i := by simp [split, hl]
    refine ⟨hlive, not_or.mpr ⟨not_passed w p u hq (by simp) hlive, fun hs => ?_⟩⟩
    rw [split, List.nodup_append] at hnodup
    exact hnodup.2.2 a hs a hl rfl

theorem finish_of (s : Sliding c h L f m base done queues g)
    (hq : queues[k]? = some (before ++ i :: rest)) (hx : g.workers[k]? = some
      ⟨i :: rest, .walking (base i).top cursor,
        before.flatMap (h.liveIn c.scope.clearSoft) ++ h.liveIn c.scope.clearSoft i⟩)
    (above : L.bottom i ≤ cursor) (aligned : cursor % 8 = 0) :
    g.step k = .ok (g.put k ⟨i :: rest, .walked,
      before.flatMap (h.liveIn c.scope.clearSoft) ++ h.liveIn c.scope.clearSoft i⟩) := by
  obtain ⟨hi, -, hil⟩ := u.head_of p hq
  obtain ⟨-, hl⟩ := s.region_of p u hq hx hi (by simp)
  obtain ⟨n, hn, hle⟩ := LivenessMap.next_of_nil s.liveness hil above hl.top_le aligned hl.aligned
    fun a ha hr _ => Bool.eq_false_iff.mpr fun hm =>
      List.not_mem_nil ((s.left_of w p u hq hx rfl (List.append_nil _).symm ha hr).mp hm)
  have hnext : g.collector.liveness.next cursor (base i).top = .ok n := hn
  simp only [step, hx, advance]
  rw [Checked.bind_of hnext, if_pos hle]
  rfl

theorem found_of (hbase : ∀ i ∈ f.lists, (base i).Alike (h.region i))
    (s : Sliding c h L f m base done queues g)
    (hq : queues[k]? = some (before ++ i :: rest)) (hx : g.workers[k]? = some x)
    (hr : x.regions = i :: rest)
    (hv : x.visited = before.flatMap (h.liveIn c.scope.clearSoft) ++ seen)
    (split : h.liveIn c.scope.clearSoft i = seen ++ o :: left)
    (above : L.bottom i ≤ cursor) (aligned : cursor % 8 = 0) (hle : cursor ≤ o) :
    g.collector.liveness.next cursor (base i).top = .ok o := by
  obtain ⟨hi, hf, hil⟩ := u.head_of p hq
  obtain ⟨-, hl⟩ := s.region_of p u hq hx hi (by simp [hr])
  obtain ⟨how, hor, hlt, -⟩ := w.liveIn_inside hil (show o ∈ h.liveIn c.scope.clearSoft i by
    simp [split])
  have hsorted : (h.liveIn c.scope.clearSoft i).Pairwise (· < ·) := w.liveIn_sorted hil
  rw [split, List.pairwise_append, List.pairwise_cons] at hsorted
  refine LivenessMap.next_of_cons s.liveness hil above hl.top_le aligned hl.aligned
    ⟨how, hle, (hbase i hf).top ▸ hlt, ?_⟩ fun a ha hr _ hm => ?_
  · exact (s.left_of w p u hq hx hv split how hor).mpr (by simp)
  · rcases List.mem_cons.mp ((s.left_of w p u hq hx hv split ha hr).mp hm) with rfl | hm
    · exact Nat.le_refl _
    · exact Nat.le_of_lt (hsorted.2.1.1 a hm)

theorem advance_of (ha : f.Headed h c.scope m) (hbase : ∀ i ∈ f.lists, (base i).Alike (h.region i))
    (s : Sliding c h L f m base done queues g)
    (hq : queues[k]? = some (before ++ i :: rest)) (hx : g.workers[k]? = some
      ⟨i :: rest, .walking (base i).top cursor,
        before.flatMap (h.liveIn c.scope.clearSoft) ++ seen⟩)
    (split : h.liveIn c.scope.clearSoft i = seen ++ o :: left)
    (above : L.bottom i ≤ cursor) (aligned : cursor % 8 = 0)
    (ahead : ∀ p ∈ o :: left, cursor ≤ p) :
    ∃ g', g.step k = .ok g' ∧ Sliding c h L f m base done queues g' ∧ g'.workers =
      g.workers.set k ⟨i :: rest, .walking (base i).top (o + 8 * Object.size h.memory o),
        before.flatMap (h.liveIn c.scope.clearSoft) ++ (seen ++ [o])⟩ := by
  obtain ⟨hi, hf, hil⟩ := u.head_of p hq
  have ho : o ∈ h.liveIn c.scope.clearSoft i := by simp [split]
  obtain ⟨how, hor, hlt, hpos, hfit⟩ := w.liveIn_inside hil ho
  have hsorted : (h.liveIn c.scope.clearSoft i).Pairwise _ := w.liveIn_apart hil
  rw [split, List.pairwise_append, List.pairwise_cons] at hsorted
  have hnext := s.found_of w p u hbase hq hx rfl rfl split above aligned (ahead o (by simp))
  obtain ⟨l, mem, hmove, hlaid, hslipped⟩ := s.slipped.step w p ha (s.laid p) hf ho
    fun n hn => s.slid_of w p u hq hx rfl split hn
  have hadd : Address.addWords o (Object.size h.memory o) =
      .ok (o + 8 * Object.size h.memory o) := Address.addWords_of (by omega)
  have hword := how.aligned
  obtain ⟨y, hy⟩ : ∃ y : CompactWorker, y = ⟨i :: rest,
      .walking (base i).top (o + 8 * Object.size h.memory o),
      before.flatMap (h.liveIn c.scope.clearSoft) ++ (seen ++ [o])⟩ := ⟨_, rfl⟩
  have hvisited := mem_visited_put hx (show y.visited = _ ++ [o] by rw [hy, List.append_assoc])
  have hpending : (g.put k y).pending = g.pending := flatMap_set_of_eq hx (by rw [hy])
  refine ⟨{ g with collector := { g.collector with heap :=
    { g.collector.heap.setMemory mem with liveness := l } } }.put k y, ?step, {
    same := withHeap_of s.same rfl
    table := s.table.withMemory mem
    liveness := hlaid
    region := fun j hj => ?region
    slipped := hslipped.congr fun n => (or_congr_right (hvisited n)).trans or_assoc.symm
    size := (List.length_set ..).trans s.size
    passing := s.passing_set hq ?passing }, by rw [hy]; rfl⟩
  case step =>
    simp only [step, hx, advance]
    rw [Checked.bind_of hnext, if_neg (by rw [(hbase i hf).top]; omega), Checked.bind_of hmove,
      decide_eq_true hpos, Checked.unless_true, Checked.ok_bind, Checked.bind_of hadd,
      List.append_assoc, hy]
    rfl
  case region =>
    refine (s.region j hj).trans ?_
    rw [← hpending]
    rfl
  case passing =>
    have split' : h.liveIn c.scope.clearSoft i = (seen ++ [o]) ++ left := by simp [split]
    have hcursor := ahead o (by simp)
    rw [hy]
    exact .walking split' (by omega) (by omega) hsorted.2.1.1

theorem leave_of (hbase : ∀ i ∈ f.lists, (base i).Alike (h.region i))
    (s : Sliding c h L f m base done queues g)
    (hq : queues[k]? = some (before ++ i :: rest)) (hx : g.workers[k]? = some ⟨i :: rest, .walked,
      before.flatMap (h.liveIn c.scope.clearSoft) ++ h.liveIn c.scope.clearSoft i⟩) :
    ∃ g', g.step k = .ok g' ∧ Sliding c h L f m base done queues g' ∧ g'.workers =
      g.workers.set k ⟨rest, .between, (before ++ [i]).flatMap (h.liveIn c.scope.clearSoft)⟩ := by
  obtain ⟨hi, hf, hil⟩ := u.head_of p hq
  obtain ⟨hreg, hl⟩ := s.region_of p u hq hx hi (by simp)
  obtain ⟨ht1, ht2, ht3⟩ := p.top_of hf
  have htops : Table.get g.collector.tops i = .ok (Table.entry f.tops i) := by
    rw [s.same]
    exact Table.get_of_lt (p.ready.tops ▸ hil)
  have hupdate := p.reset_of w hf s.table hreg (hbase i hf)
  obtain ⟨y, hy⟩ : ∃ y : CompactWorker, y = ⟨rest, .between,
      (before ++ [i]).flatMap (h.liveIn c.scope.clearSoft)⟩ := ⟨_, rfl⟩
  have v : Passing c h L base (before ++ i :: rest) y := by
    have v' : Passing c h L base ((before ++ [i]) ++ rest) _ := .between (before ++ [i]) rest
    rwa [List.append_assoc, List.singleton_append, ← hy] at v'
  have hnot := s.not_pending u hq v (by rw [hy])
  have hvisited : (g.put k y).visited = g.visited := flatMap_set_of_eq hx (by simp [hy])
  refine ⟨{ g with collector := { g.collector with heap := { g.collector.heap with
      table := g.collector.heap.table.put i ((base i).compactedTo (Table.entry f.tops i)) } } }.put
        k y, ?step, {
    same := withHeap_of s.same rfl
    table := s.table.put hil (hl.compactedTo ht1 ht2 ht3)
    liveness := s.liveness
    region := fun j hj => ?region
    slipped := ?slipped
    size := (List.length_set ..).trans s.size
    passing := s.passing_set hq v }, by rw [hy]; rfl⟩
  case step =>
    simp only [step, hx, leave]
    rw [Checked.bind_of htops, Checked.bind_of hupdate, hy, List.flatMap_append]
    simp only [List.flatMap_singleton]
    rfl
  case region =>
    refine (s.table.region_put_of hil _ j).trans ?_
    by_cases e : i = j
    · subst e
      rw [if_pos rfl, if_pos (.inr ⟨mem_flatten hq hi, hnot⟩)]
    · rw [if_neg e]
      refine (s.region j hj).trans ?_
      simp only [← mem_pending_put hx (show _ = i :: y.regions by rw [hy]) (Ne.symm e)]
      rfl
  case slipped =>
    have hslipped := s.slipped
    rw [← hvisited] at hslipped
    exact ⟨hslipped.marks, hslipped.memory⟩

/-- A step of a worker is not refused, and does something if the worker is not through. -/
theorem step_of (ha : f.Headed h c.scope m) (hbase : ∀ i ∈ f.lists, (base i).Alike (h.region i))
    {bound : Nat} (hbound : ∀ q ∈ queues, (q.flatMap (h.liveIn c.scope.clearSoft)).length ≤ bound)
    (s : Sliding c h L f m base done queues g) (k : Nat) :
    ∃ g', g.step k = .ok g' ∧ Sliding c h L f m base done queues g' ∧
      (Active g k → g'.remaining bound < g.remaining bound) ∧ (¬Active g k → g' = g) := by
  cases hx : g.workers[k]? with
  | none =>
    refine ⟨g, by simp only [step, hx], s, fun ⟨x, hx', _⟩ => ?_, fun _ => rfl⟩
    rw [hx] at hx'
    contradiction
  | some x =>
    obtain ⟨q, hq, v⟩ := s.queue_of hx
    have active : x.regions ≠ [] → Active g k := fun hr => ⟨x, hx, hr⟩
    -- what the worker does next is told by how far it has come through its queue
    cases v with
    | between before regions =>
      cases regions with
      | nil =>
        refine ⟨g, by simp only [step, hx], s, fun ⟨x, hx', hr⟩ => ?_, fun _ => rfl⟩
        obtain rfl := Option.some.inj (hx.symm.trans hx')
        exact absurd rfl hr
      | cons i rest =>
        obtain ⟨phase, hphase, hstep, v'⟩ := s.enter_of w p u hbase hq hx
        refine ⟨_, hstep, s.turn hq hx rfl rfl v', fun _ => remaining_lt hx rfl ?_,
          fun hn => absurd (active (by simp)) hn⟩
        cases phase <;> simp_all [steps]
    | @walking before rest seen left i cursor split above aligned ahead =>
      cases left with
      | nil =>
        rw [List.append_nil] at split
        subst split
        exact ⟨_, s.finish_of w p u hq hx above aligned,
          s.turn hq hx rfl rfl (.walked before rest i),
          fun _ => remaining_lt hx rfl (by simp [steps]), fun hn => absurd (active (by simp)) hn⟩
      | cons o left =>
        obtain ⟨g', hstep, s', hw⟩ := s.advance_of w p u ha hbase hq hx split above aligned ahead
        refine ⟨g', hstep, s', fun _ => remaining_lt hx hw ?_,
          fun hn => absurd (active (by simp)) hn⟩
        have hle := hbound _ (List.mem_of_getElem? hq)
        simp only [List.flatMap_append, List.flatMap_cons, List.length_append, split,
          List.length_cons] at hle
        simp only [steps, List.length_append, List.length_singleton]
        omega
    | walked before rest i =>
      obtain ⟨g', hstep, s', hw⟩ := s.leave_of w p u hbase hq hx
      refine ⟨g', hstep, s', fun _ => remaining_lt hx hw ?_,
        fun hn => absurd (active (by simp)) hn⟩
      simp [steps]
      omega

theorem marksOf_rest (s : Sliding c h L f m base done queues g)
    (hq : queues[k]? = some (before ++ rest)) (hx : g.workers[k]? = some x)
    (hv : x.visited ⊆ before.flatMap (h.liveIn c.scope.clearSoft)) :
    rest.flatMap (g.collector.liveness.marksOf L) = rest.flatMap (h.liveIn c.scope.clearSoft) := by
  refine List.flatMap_congr fun j hj => ?_
  have hjq : j ∈ before ++ rest := by simp [hj]
  have hjl := ((p.mem j).mp (u.listed _ (List.mem_of_getElem? hq) j hjq).1).1
  refine eq_of_ascending (LivenessMap.sorted_marksOf ..) (w.liveIn_sorted hjl) fun o => ?_
  rw [LivenessMap.mem_marksOf hjl]
  constructor
  · rintro ⟨ho, hr, hm⟩
    exact ((s.marked_iff w p u hq hx hjq ho hr).mp hm).1
  · intro ho
    obtain ⟨how, hor, -⟩ := w.liveIn_inside hjl ho
    exact ⟨how, hor, (s.marked_iff w p u hq hx hjq how hor).mpr
      ⟨ho, fun hm => not_passed w p u hq hj ho (hv hm)⟩⟩

theorem visits_within (s : Sliding c h L f m base done queues g)
    (hq : queues[k]? = some (before ++ i :: rest)) (hx : g.workers[k]? = some x)
    (hr : x.regions = i :: rest)
    (hv : x.visited = before.flatMap (h.liveIn c.scope.clearSoft) ++ seen)
    (split : h.liveIn c.scope.clearSoft i = seen ++ left) :
    x.visited ++ x.regions.flatMap (g.collector.liveness.marksOf L) =
      (before ++ i :: rest).flatMap (h.liveIn c.scope.clearSoft) := by
  have hil := ((p.mem i).mp (u.listed _ (List.mem_of_getElem? hq) i (by simp)).1).1
  have hsorted : (h.liveIn c.scope.clearSoft i).Pairwise (· < ·) := w.liveIn_sorted hil
  rw [split, List.pairwise_append] at hsorted
  have hleft : g.collector.liveness.marksOf L i = left := by
    refine eq_of_ascending (LivenessMap.sorted_marksOf ..) hsorted.2.1 fun o => ?_
    rw [LivenessMap.mem_marksOf hil]
    constructor
    · rintro ⟨ho, hr, hm⟩
      exact (s.left_of w p u hq hx hv split ho hr).mp hm
    · intro ho
      have hlive : o ∈ h.liveIn c.scope.clearSoft i := by simp [split, ho]
      obtain ⟨how, hor, -⟩ := w.liveIn_inside hil hlive
      exact ⟨how, hor, (s.left_of w p u hq hx hv split how hor).mpr ho⟩
  have hq' : queues[k]? = some ((before ++ [i]) ++ rest) := by simpa using hq
  have hrest := s.marksOf_rest w p u hq' hx (by rw [hv]; simp [split])
  rw [hr, hv, List.flatMap_cons, hleft, hrest, List.flatMap_append, List.flatMap_cons, split]
  simp

/-- What a worker has visited and what is still marked in the regions before it are the live
objects of its queue, in ascending order region by region. -/
theorem visits_of (s : Sliding c h L f m base done queues g) (hq : queues[k]? = some q)
    (hx : g.workers[k]? = some x) :
    x.visited ++ x.regions.flatMap (g.collector.liveness.marksOf L) =
      q.flatMap (h.liveIn c.scope.clearSoft) := by
  cases s.passing k q x hq hx with
  | between before regions =>
    rw [s.marksOf_rest w p u hq hx (List.Subset.refl _), List.flatMap_append]
  | walking split => exact s.visits_within w p u hq hx rfl rfl split
  | walked before rest i => exact s.visits_within w p u hq hx rfl rfl (List.append_nil _).symm

/-- Once all workers are through, all that is live in their queues was visited. -/
theorem gone_of_over (s : Sliding c h L f m base done queues g)
    (hnone : ∀ x ∈ g.workers, x.regions = []) :
    c.Gone h L (done ++ queues.flatten) o ↔ c.Gone h L done o ∨ o ∈ g.visited := by
  constructor
  · rintro ⟨ht, hd⟩
    rcases List.mem_append.mp hd with hd | hd
    · exact .inl ⟨ht, hd⟩
    · obtain ⟨q, hq, ho⟩ := List.mem_flatten.mp hd
      obtain ⟨k, hq⟩ := List.mem_iff_getElem?.mp hq
      obtain ⟨hk, -⟩ := List.getElem?_eq_some_iff.mp hq
      have hx := List.getElem?_eq_getElem (s.size ▸ hk : k < g.workers.length)
      have hmem := List.mem_of_getElem? hx
      refine .inr (mem_visited.mpr ⟨_, hmem, ?_⟩)
      rw [(s.passing k q _ hq hx).visited_of_over (hnone _ hmem)]
      exact List.mem_flatMap.mpr ⟨_, ho, w.mem_liveIn_regionOf ht⟩
  · rintro (⟨ht, hd⟩ | hv)
    · exact ⟨ht, List.mem_append_left _ hd⟩
    · obtain ⟨x, hx, hv⟩ := mem_visited.mp hv
      obtain ⟨k, hx⟩ := List.mem_iff_getElem?.mp hx
      obtain ⟨q, hq, v⟩ := s.queue_of hx
      obtain ⟨j, hj, ho⟩ := v.mem_live hv
      have hflat := mem_flatten hq hj
      have hr := (w.liveIn_inside ((p.mem j).mp (u.mem (.inr hflat))).1 ho).2.1
      exact ⟨(Heap.mem_liveIn.mp ho).2, List.mem_append_right _ (hr ▸ hflat)⟩

/-- Once all workers are through, their regions are compacted. -/
theorem compacting_of_over (s : Sliding c h L f m base done queues g) (hover : g.isOver = true) :
    c.Compacting h L f m base (done ++ queues.flatten) g.collector := by
  have hnone : ∀ x ∈ g.workers, x.regions = [] := by simpa [isOver] using hover
  have hpending : g.pending = [] := List.flatMap_eq_nil_iff.mpr hnone
  have slipped := s.slipped.congr fun _ => s.gone_of_over w p u hnone
  refine ⟨s.same, s.table, s.liveness, slipped.marks_outside, fun i hi => ?_, slipped.memory⟩
  rw [s.region i hi, hpending]
  simp only [List.mem_append, List.not_mem_nil, not_false_eq_true, and_true]

end Steps

end Sliding

end CompactionGang

end RegionHeap
