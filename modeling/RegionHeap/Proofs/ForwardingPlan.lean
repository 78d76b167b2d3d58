import RegionHeap.Proofs.Collecting
import RegionHeap.Proofs.History

/-!
The plan of a compaction as it can be read off the collector: the queues of regions, the word of
each object that tells where it goes, and where the contents of each region are going to end.
-/
set_option autoImplicit false

namespace RegionHeap

namespace Heap

variable {h : Heap} {L : Layout} {s : Scope} {o i : Nat}

/-- A region that is to be compacted: an ordinary one that is not pinned and holds live objects,
which are not too many. -/
def ToCompact (h : Heap) (s : Scope) (i : Nat) : Prop :=
  i < h.regionCount ∧ (h.region i).kind.isOrdinary ∧ (h.region i).isPinned = false ∧
    h.liveWords s.clearSoft i ≠ 0 ∧ h.liveWords s.clearSoft i ≤ s.threshold

/-- A live object of a region that is to be compacted. -/
def ToForward (h : Heap) (s : Scope) (o : Nat) : Prop :=
  ∃ i, h.ToCompact s i ∧ o ∈ h.liveIn s.clearSoft i

theorem Consistent.toCompact_iff (w : h.Consistent L) :
    h.ToCompact s i ↔ i < L.count ∧ h.fate s.clearSoft s.threshold i = .compacting := by
  unfold ToCompact
  rw [w.regionCount]
  exact and_congr_right fun hi => (w.fate_eq_compacting hi).symm

theorem Consistent.toForward_iff (w : h.Consistent L) :
    h.ToForward s o ↔ h.Slides s.clearSoft s.threshold o := by
  simp only [ToForward, Slides, w.toCompact_iff, w.regionCount, and_assoc]

end Heap

namespace Slid

variable {h : Heap} {L : Layout} {clearSoft : Bool} {rs : List Nat}
  {fill : Nat → List (Nat × Nat)} {p : CompactionPoint} {s : Plan} (w : h.Consistent L)
  (slid : Slid h L clearSoft rs fill p s) (hasc : rs.Pairwise (· < ·))
  (hin : ∀ i ∈ rs, i < L.count)

include w slid hasc hin

theorem sources_ascend : (rs.flatMap fill).Pairwise fun p q => p.1 < q.1 := by
  rw [← List.pairwise_map, slid.order]
  refine List.pairwise_flatMap.mpr ⟨fun i hi => w.liveIn_sorted (hin i hi),
    hasc.imp_of_mem fun {i j} hi hj hlt o ho o' ho' => ?_⟩
  have hr := (w.liveIn_inside (hin i hi) ho).2.1
  have hr' := (w.liveIn_inside (hin j hj) ho').2.1
  exact Nat.lt_of_not_le fun hle => absurd (Layout.regionOf_mono (L := L) hle) (by omega)

theorem places_ascend : (rs.flatMap fill).Pairwise fun p q => p.2 < q.2 := by
  have hsize : ∀ i ∈ rs, ∀ q ∈ fill i, 0 < Object.size h.memory q.1 := by
    intro i hi q hq
    obtain ⟨-, j, hj, ho⟩ := slid.only i hi q hq
    exact (w.liveIn_inside (hin j hj) ho).2.2.2.1
  refine List.pairwise_flatMap.mpr ⟨fun i hi => ?_, hasc.imp_of_mem fun {i j} hi hj hlt q hq q'
    hq' => ?_⟩
  · refine (slid.filled i hi).packed.apart.imp_of_mem fun {q q'} hq _ hle => ?_
    have := hsize i hi q hq
    omega
  · have hb := (slid.filled i hi).packed.bounds hq
    have hb' := (slid.filled j hj).packed.bounds hq'
    have := (slid.filled i hi).le
    have := hsize i hi q hq
    have := Layout.bottom_add_le (L := L) hlt
    omega

/-- Places keep the order of the objects. -/
theorem ordered {q q' : Nat × Nat} (hq : q ∈ rs.flatMap fill) (hq' : q' ∈ rs.flatMap fill)
    (hlt : q.1 < q'.1) : q.2 < q'.2 := by
  have hdown : (rs.flatMap fill).Pairwise fun q q' => q.1 < q'.1 → q.2 < q'.2 :=
    (slid.places_ascend w hasc hin).imp fun {q q'} hlt (_ : q.1 < q'.1) => hlt
  have hup : (rs.flatMap fill).Pairwise fun q q' => q'.1 < q.1 → q'.2 < q.2 :=
    (slid.sources_ascend w hasc hin).imp fun {q q'} hlt (hgt : q'.1 < q.1) =>
      absurd hgt (Nat.lt_asymm hlt)
  exact hdown.forall_of_forall_of_flip (fun _ _ hlt => absurd hlt (Nat.lt_irrefl _)) hup hq hq' hlt

end Slid

namespace Collector

/-- The queues of the workers, and the one that was planned serially. -/
def queues (e : Collector) : List (List Nat) :=
  e.points.toList.map CompactionPoint.regions ++ [e.serial.regions]

/-- A valid plan for the regions that the workers of another collector were dealt. -/
structure ForwardsAll (h : Heap) (s : Scope) (d e : Collector) : Prop where
  /-- Every region to be compacted is in one queue. -/
  once : e.queues.flatten.Nodup
  queued : ∀ i, i ∈ e.queues.flatten ↔ h.ToCompact s i
  ascending : ∀ q ∈ e.queues, q.Pairwise (· < ·)
  /-- What goes into a region has room in it. -/
  room : ∀ i ∈ e.queues.flatten,
    (h.region i).bottom ≤ Table.entry e.tops i ∧ Table.entry e.tops i ≤ (h.region i).limit
  dealt : ∀ i, h.ToCompact s i → ∃ k, k < e.points.size ∧ i ∈ (Table.entry d.points k).regions
  /-- An object goes into a region of the worker that was dealt its own, or of the serial queue. -/
  inside : ∀ k, k < e.points.size → ∀ i ∈ (Table.entry d.points k).regions,
    ∀ o ∈ h.liveIn s.clearSoft i, ∃ j ∈ (Table.entry e.points k).regions ++ e.serial.regions,
      (h.region j).bottom ≤ e.place o ∧
        e.place o + 8 * Object.size h.memory o ≤ Table.entry e.tops j
  apart : ∀ o p, h.ToForward s o → h.ToForward s p → o ≠ p →
    e.place o + 8 * Object.size h.memory o ≤ e.place p ∨
      e.place p + 8 * Object.size h.memory p ≤ e.place o
  /-- The objects leave no gap. -/
  tiled : ∀ i ∈ e.queues.flatten, ∀ a, (h.region i).bottom ≤ a → a < Table.entry e.tops i →
    ∃ o, h.ToForward s o ∧ e.place o ≤ a ∧ a < e.place o + 8 * Object.size h.memory o
  down : ∀ o, h.ToForward s o → e.place o ≤ o
  /-- The first object of a region would not have fit into the one before it in the queue. -/
  snug : ∀ q ∈ e.queues, q.IsChain fun i j => ∀ o, h.ToForward s o →
    e.place o = (h.region j).bottom →
      (h.region i).limit < Table.entry e.tops i + 8 * Object.size h.memory o

/-- The objects of the regions that a worker was dealt keep their order. -/
def KeepsOrder (h : Heap) (s : Scope) (d e : Collector) : Prop :=
  ∀ k, k < e.points.size → ∀ i ∈ (Table.entry d.points k).regions,
    ∀ j ∈ (Table.entry d.points k).regions, ∀ o ∈ h.liveIn s.clearSoft i,
      ∀ p ∈ h.liveIn s.clearSoft j, o < p → e.place o < e.place p

variable {c d e : Collector} {h : Heap} {L : Layout} {fill : Nat → List (Nat × Nat)}

theorem flatten_queues (e : Collector) : e.queues.flatten = e.lists := by
  simp [queues, lists, List.flatMap_def]

theorem mem_queues {q : List Nat} : q ∈ e.queues ↔
    (∃ k, k < e.points.size ∧ q = (Table.entry e.points k).regions) ∨ q = e.serial.regions := by
  rw [queues, Table.toList_eq_map]
  simp [eq_comm]

namespace SlidePlan

variable {o x i k : Nat} (w : h.Consistent L) (p : c.SlidePlan h L d e fill)

include p

theorem forall_queues {P : List Nat → Prop}
    (hw : ∀ k, k < c.workers → P (Table.entry e.points k).regions) (hs : P e.serial.regions)
    {q : List Nat} (hq : q ∈ e.queues) : P q := by
  rcases mem_queues.mp hq with ⟨k, hk, rfl⟩ | rfl
  · exact hw k (p.size ▸ hk)
  · exact hs

include w

theorem bottom_eq (hi : i ∈ e.lists) : (h.region i).bottom = L.bottom i :=
  (w.laid ((p.mem i).mp hi).1).bottom

theorem limit_eq (hi : i ∈ e.lists) : (h.region i).limit = L.bottom i + L.bytes :=
  (w.laid ((p.mem i).mp hi).1).limit

theorem size_pos (hi : i ∈ e.lists) {q : Nat × Nat} (hq : q ∈ fill i) :
    0 < Object.size h.memory q.1 :=
  Nat.lt_of_lt_of_le (by decide) (w.size_ge (p.only i hi q hq).2.isObject)

theorem snug_of (hi : i ∈ e.lists) (hk : k ∈ e.lists) (f : Snug (Object.size h.memory) L fill i k)
    (ho : h.ToForward c.scope o) (hp : e.place o = (h.region k).bottom) :
    (h.region i).limit < Table.entry e.tops i + 8 * Object.size h.memory o := by
  obtain ⟨k', hk', hx⟩ := p.slide_of w (w.toForward_iff.mp ho)
  have hbottom := p.bottom_eq w hk
  obtain rfl : k = k' := by
    rw [← (p.destination_of w hk' hx).2.2, hp, hbottom, L.regionOf_bottom]
  rcases f with hempty | ⟨q, ps, hq, hfull⟩
  · simp [hempty] at hx
  · have hqm : q ∈ fill k := hq ▸ by simp
    have hpack := (p.filled k hk).packed
    rw [hq] at hpack hx
    obtain rfl := hpack.eq_first (p.size_pos w hk hqm) hx (hp.trans hbottom)
    rw [p.limit_eq w hi, (p.filled i hi).packed.end_eq]
    simp only at hfull
    omega

theorem forwardsAll (s : c.Sorted h L d) : ForwardsAll h c.scope d e := by
  refine ⟨e.flatten_queues ▸ p.nodup, fun i => ?_, fun q => p.forall_queues p.ascending
    p.serialAscending, fun i hi => ?_, fun i hi => ?_, fun k hk i hi o ho => ?_,
    fun o o' ho ho' => p.spots_apart w (w.toForward_iff.mp ho) (w.toForward_iff.mp ho'),
    fun i hi a ha ha' => ?_, fun o ho => ?_, fun q hq => ?_⟩
  · rw [flatten_queues, p.mem, w.toCompact_iff]
  · rw [flatten_queues] at hi
    have f := p.filled i hi
    rw [p.bottom_eq w hi, p.limit_eq w hi]
    exact ⟨f.packed.le, f.le⟩
  · have hi := w.toCompact_iff.mp hi
    obtain ⟨k, hk, hik⟩ := (s.points.dealt i).mpr ⟨hi.1, hi⟩
    exact ⟨k, p.size ▸ hk, hik⟩
  · have hk : k < c.workers := p.size ▸ hk
    have hc := w.toCompact_iff.mpr (s.points.inside hk hi)
    obtain ⟨j, hj, hx⟩ := p.slide_of w (w.toForward_iff.mp ⟨i, hc, ho⟩)
    have hb := (p.filled j hj).packed.bounds hx
    refine ⟨j, List.mem_append.mpr (p.dealt k hk i hi o ho j hj _ hx), ?_⟩
    rw [p.bottom_eq w hj]
    exact hb
  · rw [flatten_queues] at hi
    rw [p.bottom_eq w hi] at ha
    obtain ⟨⟨o, x⟩, hx, hxa⟩ := (p.filled i hi).packed.covers ha ha'
    refine ⟨o, w.toForward_iff.mpr (p.only i hi (o, x) hx).2, ?_⟩
    rw [place, (p.destination_of w hi hx).1]
    exact hxa
  · obtain ⟨i, hi, hx⟩ := p.slide_of w (w.toForward_iff.mp ho)
    exact (p.only i hi _ hx).1
  · have hmem : ∀ i ∈ q, i ∈ e.lists := fun i hi =>
      e.flatten_queues ▸ List.mem_flatten.mpr ⟨q, hq, hi⟩
    exact (p.forall_queues p.snug p.serialSnug hq).imp_of_mem_imp fun i j hi hj f o ho hp =>
      p.snug_of w (hmem i hi) (hmem j hj) f ho hp

end SlidePlan

theorem WorkersPlanned.keepsOrder (w : h.Consistent L) (m : c.Marked h L) (s : c.Sorted h L d)
    (p : c.WorkersPlanned h L d c.workers e fill) : KeepsOrder h c.scope d e := by
  intro k hk i hi j hj o ho o' ho' hlt
  have hk : k < c.workers := p.size ▸ hk
  have slid := p.slid k hk hk
  have plan := p.slidePlan w m s
  have hinside := fun {n} (hn : n ∈ (Table.entry d.points k).regions) => s.points.inside hk hn
  have hplaced : ∀ n ∈ (Table.entry d.points k).regions, ∀ x ∈ h.liveIn c.scope.clearSoft n,
      (x, e.place x) ∈ (Table.entry d.points k).regions.flatMap fill := by
    intro n hn x hx
    obtain ⟨n', hn', hq⟩ := plan.slide_of w
      ⟨n, by rw [w.regionCount]; exact (hinside hn).1, (hinside hn).2, hx⟩
    have hm := plan.closed k hk n (slid.regions ▸ hn) x hx n' hn' _ hq
    exact List.mem_flatMap.mpr ⟨n', slid.regions ▸ hm, hq⟩
  exact slid.ordered w (s.points.ascending k hk) (fun n hn => (hinside hn).1)
    (hplaced i hi o ho) (hplaced j hj o' ho') hlt

/-- However many workers plan the compaction of a heap that nothing is marked in, and whatever it
is asked to do, no phase up to the plan is refused. What the workers plan is a valid plan which
keeps the order of each worker's objects; what is planned serially after that is one too. -/
theorem forwards_all (w : h.Clean L) {n : Nat} (hn : 0 < n ∧ n ≤ h.gang.size) (s : Scope) :
    ∃ m d₀ d e₀ e : Collector,
      ({ (Collector.create h n s.explicitRequest s.clearSoft s.maximal).prepare with scope := s } :
        Collector).markLive = .ok m ∧
      m.sortRegions = .ok d₀ ∧ d₀.forgetReferences = .ok d ∧
      d.run .plan planWorker = .ok e₀ ∧ ForwardsAll h s d e₀ ∧ KeepsOrder h s d e₀ ∧
      e₀.planSerially = .ok e ∧ ForwardsAll h s d e := by
  have p := (prepare_of w s.explicitRequest s.clearSoft s.maximal hn).withScope s
  obtain ⟨l, live, hmark, hl, he, hs, hcounted⟩ := markLive_of w p.attributed p.ready.workers
    p.ready.live p.live
  have marked := p.marked hl he hs hcounted
  obtain ⟨d₀, hsort, sorted₀⟩ := sortRegions_of w.toConsistent marked
  obtain ⟨d, hforget, sorted⟩ := forgetReferences_of sorted₀
  obtain ⟨e₀, fill₀, hplan, planned⟩ := planWorkers_of w.toConsistent sorted
  obtain ⟨e, fill, hserial, plan⟩ := planSerially_of w.toConsistent marked sorted planned
  exact ⟨_, d₀, d, e₀, e, hmark, hsort, hforget, hplan,
    (planned.slidePlan w.toConsistent marked sorted).forwardsAll w.toConsistent sorted,
    planned.keepsOrder w.toConsistent marked sorted, hserial,
    plan.forwardsAll w.toConsistent sorted⟩

open Heap in
/-- The sample when two workers have marked it. -/
def sampleMarked (maximal : Bool) : Checked Collector := do
  let h ← sample
  let c := (Collector.create h 2 true false maximal).prepare
  { c with scope := ⟨true, false, maximal, 8192⟩ }.markLive

/-- What the two workers plan. -/
def samplePlan : Checked Collector := do
  let d ← (← (← sampleMarked true).sortRegions).forgetReferences
  d.run .plan planWorker

/-- The workers leave all of their regions to be planned again. -/
theorem planSerially_of_sample {e : Collector} (h : samplePlan = .ok e) :
    e.planSerially = e.planBehind [0, 1, 2, 3] := by
  have hlook : samplePlan.toOption.map (fun e => (e.serial, e.again)) = some ({}, [0, 2, 1, 3]) := by
    decide +kernel
  rw [h] at hlook
  simp only [Except.toOption, Option.map_some, Option.some.injEq, Prod.mk.injEq] at hlook
  refine planSerially_of_cons hlook.1 ?_
  rw [hlook.2]
  simp [List.mergeSort]

open Heap in
/-- Each of two workers sends the object of its second region behind that of its first one, and then
all of them are sent into the lowest region. -/
theorem forwards_sample : ∃ (h : Heap) (L : Layout) (d e₀ e : Collector), sample = .ok h ∧
    h.Clean L ∧ (0 < 2 ∧ 2 ≤ h.gang.size) ∧ d.run .plan planWorker = .ok e₀ ∧
    ForwardsAll h ⟨true, false, true, 8192⟩ d e₀ ∧ KeepsOrder h ⟨true, false, true, 8192⟩ d e₀ ∧
    e₀.planSerially = .ok e ∧ ForwardsAll h ⟨true, false, true, 8192⟩ d e ∧
    e₀.queues = [[0, 2], [1, 3], []] ∧ e.queues = [[], [], [0, 1, 2, 3]] ∧
    (List.range 4).map (fun i => e₀.place (sampleWord i 4)) =
      [sampleWord 0 0, sampleWord 1 0, sampleWord 0 8, sampleWord 1 8] ∧
    (List.range 4).map (fun i => e.place (sampleWord i 4)) =
      [sampleWord 0 0, sampleWord 0 16, sampleWord 0 8, sampleWord 0 24] := by
  obtain ⟨h, L, hs, w⟩ := sample_wellFormed
  have hgang := of_sample (f := fun h => h.gang.size) (v := 2) hs (by decide +kernel)
  obtain ⟨m, d₀, d, e₀, e, hmark, hsort, hforget, hplan, hworkers, horder, hserial, hall⟩ :=
    forwards_all w.toClean (n := 2) (by omega) ⟨true, false, true, 8192⟩
  have hmarked : sampleMarked true = .ok m := (Checked.bind_of hs _).trans hmark
  have hrun : samplePlan = .ok e₀ := (Checked.bind_of hmarked _).trans <|
    (Checked.bind_of hsort _).trans <| (Checked.bind_of hforget _).trans hplan
  have hfirst : samplePlan.toOption.map (fun e =>
      (e.queues, (List.range 4).map fun i => e.place (sampleWord i 4))) =
      some ([[0, 2], [1, 3], []],
        [sampleWord 0 0, sampleWord 1 0, sampleWord 0 8, sampleWord 1 8]) := by decide +kernel
  rw [hrun] at hfirst
  have hsecond : (samplePlan >>= fun e => e.planBehind [0, 1, 2, 3]).toOption.map (fun e =>
      (e.queues, (List.range 4).map fun i => e.place (sampleWord i 4))) =
      some ([[], [], [0, 1, 2, 3]],
        [sampleWord 0 0, sampleWord 0 16, sampleWord 0 8, sampleWord 0 24]) := by decide +kernel
  rw [Checked.bind_of hrun, ← planSerially_of_sample hrun, hserial] at hsecond
  simp only [Except.toOption, Option.map_some, Option.some.injEq, Prod.mk.injEq] at hfirst hsecond
  exact ⟨h, L, d, e₀, e, hs, w.toClean, by omega, hplan, hworkers, horder, hserial, hall,
    hfirst.1, hsecond.1, hfirst.2, hsecond.2⟩

end Collector

end RegionHeap
