import Mathlib.Data.List.Flatten
import Mathlib.Data.List.Nodup
import RegionHeap.Proofs.CompactingAlone
import RegionHeap.Proofs.CompactingTogether
import RegionHeap.Proofs.ForwardingPlan

/-!
What sliding comes to. In whatever order the workers take their steps, and however sources and
destinations overlap, the memory ends as if all live objects had been copied at once.
-/
set_option autoImplicit false

namespace RegionHeap

namespace CompactionGang

open Collector MarkingGang

/-- What every worker has visited, followed by what is still marked in the regions before it, are
the live objects of its queue, region by region in ascending order. -/
def Visits (g : CompactionGang) (h : Heap) (L : Layout) (clearSoft : Bool)
    (queues : List (List Nat)) : Prop :=
  ∀ (k : Nat) (q : List Nat) (x : CompactWorker), queues[k]? = some q → g.workers[k]? = some x →
    x.visited ++ x.regions.flatMap (g.collector.liveness.marksOf L) =
      q.flatMap (h.liveIn clearSoft)

/-- Workers compact their queues of regions. However they take turns, no step is refused, and once
they are through something holds; that happens when all of them have their turn again and again.
Some work without interruptions comes to the same as one of their schedules. -/
structure Compacts (h : Heap) (L : Layout) (clearSoft : Bool) (c : Collector)
    (queues : List (List Nat)) (work : Checked Collector) (after : Collector → Prop) : Prop where
  run : ∀ schedule, ∃ g, (start c queues).run schedule = .ok g ∧ g.Visits h L clearSoft queues ∧
    (g.isOver = true → after g.collector)
  stops : ∀ schedule, Fair queues.length schedule →
    ∃ k g, (start c queues).run (turns schedule k) = .ok g ∧ g.isOver = true
  alone : ∃ schedule g, (start c queues).run schedule = .ok g ∧ g.isOver = true ∧
    work = .ok g.collector

variable {c f : Collector} {h : Heap} {L : Layout} {fill : Nat → List (Nat × Nat)} {m : Memory}
  {base : Nat → Region} {done : List Nat} {queues : List (List Nat)} {g : CompactionGang}
  {x : Collector}

theorem start_of (k : c.Compacting h L f m base done x) :
    Sliding c h L f m base done queues (start x queues) := by
  have hvisited : (start x queues).visited = [] := by simp [visited, start]
  have hpending : (start x queues).pending = queues.flatten := by
    simp [pending, start, List.flatMap_map, List.flatMap_id']
  refine ⟨k.same, k.table, k.liveness, fun i hi => ?_, k.slipped.congr fun o => ?_,
    List.length_map .., fun k q y hq hy => ?_⟩
  · rw [hpending]
    refine (k.region i hi).trans ?_
    simp only [and_not_self, or_false]
  · rw [hvisited]
    simp
  · rw [start, List.getElem?_map, hq] at hy
    obtain rfl := Option.some.inj hy
    exact .between [] q

theorem exists_active (ho : g.isOver = false) :
    ∃ k, k < g.workers.length ∧ Active g k := by
  obtain ⟨x, hx, hr⟩ : ∃ x ∈ g.workers, x.regions ≠ [] := by simpa [isOver] using ho
  obtain ⟨k, hk⟩ := List.mem_iff_getElem?.mp hx
  exact ⟨k, (List.getElem?_eq_some_iff.mp hk).1, x, hk, hr⟩

/-- Queues of regions are compacted after some others. -/
theorem compacts_of (w : h.Consistent L) (p : c.Planned h L f fill) (ha : f.Headed h c.scope m)
    (hbase : ∀ i ∈ f.lists, (base i).Alike (h.region i)) (u : Queued c h f fill done queues)
    (k : c.Compacting h L f m base done x) {work : Checked Collector} {after : Collector → Prop}
    (alone : ∃ schedule g, (start x queues).run schedule = .ok g ∧ g.isOver = true ∧
      work = .ok g.collector)
    (hafter : ∀ y, c.Compacting h L f m base (done ++ queues.flatten) y → after y) :
    Compacts h L c.scope.clearSoft x queues work after := by
  obtain ⟨bound, hbound⟩ : ∃ bound, ∀ q ∈ queues,
      (q.flatMap (h.liveIn c.scope.clearSoft)).length ≤ bound :=
    ⟨_, fun q hq => ((List.sublist_flatten_of_mem hq).flatMap _).length_le⟩
  have s₀ : Sliding c h L f m base done queues (start x queues) := start_of k
  have hstep := fun (g : CompactionGang) (i : Nat) (s : Sliding c h L f m base done queues g) =>
    s.step_of w p u ha hbase hbound i
  refine ⟨fun schedule => ?_, fun schedule hf => ?_, alone⟩
  · obtain ⟨g, hg, s⟩ := Checked.foldlM_of (f := step)
      (fun _ g => Sliding c h L f m base done queues g)
      (fun i _ g s => by
        obtain ⟨g', hs, s', -⟩ := hstep g i s
        exact ⟨g', hs, s'⟩) schedule _ s₀
    exact ⟨g, hg, fun _ _ _ hq hx => s.visits_of w p u hq hx,
      fun ho => hafter _ (s.compacting_of_over w p u ho)⟩
  · exact hf.exists_over (I := fun g => Sliding c h L f m base done queues g)
      (InvImage.wf (remaining bound) Nat.lt_wfRel.wf) hstep
      (fun g s ho => s.size ▸ exists_active ho) s₀

theorem lists_eq (f : Collector) : f.lists = f.workerQueues.flatten ++ f.serial.regions := rfl

theorem exists_worker (p : c.Planned h L f fill) {q : List Nat} (hq : q ∈ f.workerQueues) :
    ∃ k, k < c.workers ∧ q = (Table.entry f.points k).regions := by
  rw [workerQueues, Table.toList_eq_map, List.map_map] at hq
  obtain ⟨k, hk, rfl⟩ := List.mem_map.mp hq
  have hsize : f.points.size = c.workers := p.size
  exact ⟨k, hsize ▸ List.mem_range.mp hk, rfl⟩

theorem queued_workers (p : c.Planned h L f fill) : Queued c h f fill [] f.workerQueues := by
  have hnodup := p.nodup
  rw [lists_eq, List.nodup_append, List.nodup_flatten] at hnodup
  have hmem : ∀ q ∈ f.workerQueues, ∀ i ∈ q, i ∈ f.lists := fun q hq i hi =>
    List.mem_append_left _ (List.mem_flatten.mpr ⟨q, hq, hi⟩)
  refine ⟨by simp, fun q hq i hi => ⟨hmem q hq i hi, List.not_mem_nil⟩, hnodup.1.2,
    fun q hq => ?_, fun q hq i hi j hj hnot o ho k hk hplace => .inl fun e => ?_⟩
  · obtain ⟨k, hk, rfl⟩ := exists_worker p hq
    exact p.ascending k hk
  · -- an object of another queue goes into a region of that queue
    obtain ⟨q', hq', hj⟩ := List.mem_flatten.mp (hj.resolve_left List.not_mem_nil)
    obtain ⟨n, hn, rfl⟩ := exists_worker p hq'
    have hkq := p.closed n hn j hj o ho k hk _ hplace
    subst e
    have hne : q ≠ (Table.entry f.points n).regions := fun e => hnot (e ▸ hj)
    have : Std.Symm (α := List Nat) List.Disjoint := ⟨fun _ _ h _ hb ha => h ha hb⟩
    exact hnodup.1.2.forall hq hq' hne hi hkq

theorem queued_serial (p : c.Planned h L f fill) :
    Queued c h f fill f.workerQueues.flatten [f.serial.regions] := by
  have hnodup := p.nodup
  have horder := p.order
  rw [lists_eq, List.nodup_append] at hnodup
  have hpair : ∀ j ∈ f.workerQueues.flatten, ∀ i ∈ f.serial.regions, c.Spares h f fill j i :=
    (List.pairwise_append.mp horder).2.2
  refine ⟨fun j hj => List.mem_append_left _ hj, fun q hq i hi => ?_, List.pairwise_singleton ..,
    fun q hq => ?_, fun q hq i hi j hj hnot => ?_⟩ <;>
  obtain rfl := List.mem_singleton.mp hq
  · exact ⟨List.mem_append_right _ hi, fun hm => hnodup.2.2 i hm i hi rfl⟩
  · exact p.serialAscending
  · rcases hj with hj | hj
    · exact hpair j hj i hi
    · exact absurd (by simpa using hj) hnot

/-- The workers below an index have compacted their queues, one after the other, and the others have
not begun. -/
structure RanFirst (f : Collector) (m : Memory) (n : Nat) (schedule : List Nat)
    (g : CompactionGang) : Prop where
  run : (start (f.withAdjusted m) f.workerQueues).run schedule = .ok g
  size : g.workers.length = f.workerQueues.length
  finished : ∀ (k : Nat) (y : CompactWorker), k < n → g.workers[k]? = some y → y.regions = []
  waiting : ∀ k, n ≤ k → g.workers[k]? = (start (f.withAdjusted m) f.workerQueues).workers[k]?

namespace RanFirst

variable {schedule : List Nat} {n : Nat}

theorem none : RanFirst f m 0 [] (start (f.withAdjusted m) f.workerQueues) where
  run := rfl
  size := List.length_map ..
  finished := fun k y hk => by omega
  waiting := fun _ _ => rfl

theorem next (r : RanFirst f m n schedule g) {q : List Nat} (hq : f.workerQueues[n]? = some q)
    (hx : q.foldlM compactRegion g.collector = .ok x) :
    ∃ schedule' g', RanFirst f m (n + 1) schedule' g' ∧ g'.collector = x := by
  have hy : g.workers[n]? = some ⟨q, .between, []⟩ := by
    rw [r.waiting n (Nat.le_refl n), start, List.getElem?_map, hq]
    rfl
  obtain ⟨k, os, hrun⟩ := run_regions hy rfl rfl hx
  refine ⟨schedule ++ List.replicate k n, _, {
    run := (run_append r.run _).trans hrun
    size := (List.length_set ..).trans r.size
    finished := fun j y hj hjy => ?finished
    waiting := fun j hj => ?waiting }, rfl⟩
  case finished =>
    by_cases e : n = j
    · subst e
      obtain ⟨hlt, rfl⟩ := List.getElem?_eq_some_iff.mp hjy
      simp [put]
    · rw [put, List.getElem?_set_ne e] at hjy
      exact r.finished j y (by omega) hjy
  case waiting =>
    rw [put, List.getElem?_set_ne (by omega)]
    exact r.waiting j (by omega)

end RanFirst

/-- A collector's workers compact one after the other. -/
theorem exists_run_workers (w : h.Consistent L) (p : c.Planned h L f fill)
    (ha : f.Headed h c.scope m) : ∃ schedule g,
      (start (f.withAdjusted m) f.workerQueues).run schedule = .ok g ∧ g.isOver = true ∧
      (f.withAdjusted m).run .compact compactWorker = .ok g.collector := by
  have hsize : f.workerQueues.length = c.workers := by
    rw [workerQueues, List.length_map, Array.length_toList]
    exact p.size
  have hqueue : ∀ n, n < c.workers →
      f.workerQueues[n]? = some (Table.entry f.points n).regions := fun n hn => by
    have hp : f.points.size = c.workers := p.size
    rw [workerQueues, List.getElem?_map, Table.toList_eq_map, List.getElem?_map,
      List.getElem?_range (hp ▸ hn)]
    rfl
  have hworkers : (f.withAdjusted m).workers = c.workers := p.workers
  obtain ⟨x, hx, -, schedule, g, r, rfl⟩ :=
    (p.ready_adjusted m).run_of .compact compactWorker
    (fun n x => c.Compacting h L f m f.heap.region (f.listed n) x ∧
      ∃ schedule g, RanFirst f m n schedule g ∧ g.collector = x)
    (fun n x hn ⟨kx, schedule, g, r, hgx⟩ => by
      have hn : n < c.workers := hworkers ▸ hn
      obtain ⟨x', hx', kx'⟩ := compactWorker_of w p ha (hworkers.symm ▸ hn) kx
      have hc : (Table.entry f.points n).regions.foldlM compactRegion g.collector = .ok x' := by
        rw [hgx]
        rw [compactWorker, Checked.bind_of (kx.point p (hworkers.symm ▸ hn))] at hx'
        exact hx'
      exact ⟨x', hx', kx', r.next (hqueue n hn) hc⟩)
    ⟨p.compacting m, [], _, .none, rfl⟩
  refine ⟨schedule, g, r.run, List.all_eq_true.mpr fun y hy => ?_, hx⟩
  obtain ⟨k, hk⟩ := List.mem_iff_getElem?.mp hy
  have hlt := (List.getElem?_eq_some_iff.mp hk).1
  rw [r.finished k y (by rw [hworkers, ← hsize, ← r.size]; exact hlt) hk]
  rfl

theorem exists_run_serial {y z : Collector} {q : List Nat}
    (hz : q.foldlM compactRegion y = .ok z) : ∃ schedule g,
      (start y [q]).run schedule = .ok g ∧ g.isOver = true ∧ z = g.collector := by
  obtain ⟨k, os, hrun⟩ := run_regions (g := start y [q]) (k := 0) rfl rfl rfl hz
  exact ⟨_, _, hrun, rfl, rfl⟩

/-- The memory after compacting: the live objects that were to be moved are copied, with their
forwarding words cleared, and outside the queued regions nothing has changed. -/
structure CopiedAtOnce (h : Heap) (s : Scope) (f : Collector) (m m' : Memory) : Prop where
  copied : ∀ o, h.ToForward s o → ∀ i, i < Object.size h.memory o →
    m'.read (f.place o + 8 * i) = if i = 0 then 0 else m.read (o + 8 * i)
  other : ∀ a, (∀ i ∈ f.queues.flatten, ¬((h.region i).bottom ≤ a ∧ a < (h.region i).limit)) →
    m'.read a = m.read a

theorem copiedAtOnce (w : h.Consistent L) (p : c.Planned h L f fill)
    (k : c.Compacting h L f m base f.lists x) : CopiedAtOnce h c.scope f m x.memory := by
  refine ⟨fun o ho i hi => ?_, fun a ha => k.memory.other a ?_⟩
  · obtain ⟨j, hj, hf, hl⟩ := w.toForward_iff.mp ho
    rw [w.regionCount] at hj
    have hgone : c.Gone h L f.lists o :=
      ⟨(Heap.mem_liveIn.mp hl).2, (w.liveIn_inside hj hl).2.1 ▸ (p.mem j).mpr ⟨hj, hf⟩⟩
    by_cases hz : i = 0
    · rw [if_pos hz, hz]
      exact k.memory.header o hgone
    · rw [if_neg hz]
      exact k.memory.moved o hgone i (Nat.pos_of_ne_zero hz) hi
  · rintro ⟨o, ⟨ht, hr⟩, hfrom, hto⟩
    obtain ⟨n, hn, -, hb, hlim⟩ :=
      p.spot_of_slides w (p.slides_of w hr (w.mem_liveIn_regionOf ht))
    have hl := w.laid ((p.mem n).mp hn).1
    refine ha n (by rwa [flatten_queues]) ⟨hl.bottom ▸ Nat.le_trans hb hfrom, ?_⟩
    rw [hl.limit]
    omega

/-- However many workers compact a heap that nothing is marked in, and whatever it is asked to do:
with any memory that has the planned headers, in any order of their steps, and then serially, every
walk visits the objects marked in its region when it begins, and the memory ends as if all had been
copied at once. -/
theorem compacts_at_once (w : h.Clean L) {n : Nat} (hn : 0 < n ∧ n ≤ h.gang.size) (s : Scope) :
    ∃ m f a : Collector,
      ({ (Collector.create h n s.explicitRequest s.clearSoft s.maximal).prepare with scope := s } :
        Collector).markLive = .ok m ∧
      m.planCompaction = .ok f ∧ f.adjustReferences = .ok a ∧ f.Headed h s a.memory ∧
      ∀ memory, f.Headed h s memory →
        Compacts h L s.clearSoft (a.setMemory memory) f.workerQueues
          ((a.setMemory memory).run .compact compactWorker) fun x =>
            ∃ y, x.resetInPlace = .ok y ∧ Compacts h L s.clearSoft y [f.serial.regions]
              (y.serial.regions.foldlM compactRegion y) fun z =>
                CopiedAtOnce h s f memory z.memory := by
  have p := (prepare_of w s.explicitRequest s.clearSoft s.maximal hn).withScope s
  obtain ⟨l, live, hmark, hl, he, hs, hcounted⟩ := markLive_of w p.attributed p.ready.workers
    p.ready.live p.live
  have marked := p.marked hl he hs hcounted
  obtain ⟨f, fill, hplan, planned⟩ := planCompaction_of w.toConsistent marked
  obtain ⟨m₃, hadjust, adjusted⟩ := adjustReferences_of w.toConsistent planned
  have hheaded := headed_of_adjusted w.toConsistent adjusted
  refine ⟨_, f, f.withAdjusted m₃, hmark, hplan, hadjust, hheaded, fun memory headed => ?_⟩
  have hstart : (f.withAdjusted m₃).setMemory memory = f.withAdjusted memory := rfl
  rw [hstart]
  refine compacts_of w.toConsistent planned headed (fun i hi => planned.alike_listed hi)
    (queued_workers planned) (planned.compacting memory)
    (exists_run_workers w.toConsistent planned headed) fun x kx => ?_
  rw [List.nil_append] at kx
  obtain ⟨y, hy, ky⟩ := resetInPlace_of planned kx fun j hj => List.mem_append_left _ hj
  have hserial : y.serial = f.serial := by
    rw [ky.same]
    rfl
  obtain ⟨z, hz, -⟩ := compactRegions_of w.toConsistent planned headed
    (fun i hi => planned.inPlace_alike hi)
    (show f.lists = f.workerQueues.flatten ++ (f.serial.regions ++ []) by simp [lists_eq]) ky
  refine ⟨y, hy, compacts_of w.toConsistent planned headed
    (fun i hi => planned.inPlace_alike hi) (queued_serial planned) ky ?_ fun u ku => ?_⟩
  · obtain ⟨schedule, g, hrun, hover, rfl⟩ := exists_run_serial hz
    exact ⟨schedule, g, hrun, hover, hserial ▸ hz⟩
  · rw [List.flatten_singleton, ← lists_eq] at ku
    exact copiedAtOnce w.toConsistent planned ku

theorem samplePlan_of {m f : Collector} (hm : sampleMarked true = .ok m)
    (hf : m.planCompaction = .ok f) :
    (do let e ← samplePlan; (← e.planBehind [0, 1, 2, 3]).noteCompacted) = .ok f := by
  obtain ⟨d₀, hsort, hf⟩ := Checked.bind_eq_ok.mp hf
  obtain ⟨_, -, hf⟩ := Checked.bind_eq_ok.mp hf
  obtain ⟨d, hforget, hf⟩ := Checked.bind_eq_ok.mp hf
  obtain ⟨e₀, hworkers, hf⟩ := Checked.bind_eq_ok.mp hf
  have hplan : samplePlan = .ok e₀ := (Checked.bind_of hm _).trans <|
    (Checked.bind_of hsort _).trans <| (Checked.bind_of hforget _).trans hworkers
  have hmaximal : samplePlan.toOption.map (fun e => e.scope.maximal) = some true := by
    decide +kernel
  rw [hplan] at hmaximal
  obtain hmaximal : e₀.scope.maximal = true := Option.some.inj hmaximal
  dsimp only at hf
  rw [if_pos (by rw [hmaximal, Bool.true_or]), planSerially_of_sample hplan] at hf
  obtain ⟨e, hserial, hnote⟩ := Checked.bind_eq_ok.mp hf
  have hnone : (samplePlan >>= fun e => e.planBehind [0, 1, 2, 3]).toOption.map (fun e =>
      e.humongousStarts.isEmpty) = some true := by decide +kernel
  rw [Checked.bind_of hplan, hserial] at hnone
  obtain hnone : e.humongousStarts.isEmpty = true := Option.some.inj hnone
  rw [if_neg (by simp [hnone])] at hnote
  exact (Checked.bind_of hplan _).trans ((Checked.bind_of hserial _).trans hnote)

open Heap in
/-- Two workers compact two regions each, and at the bottom of the first the old place of an object
overlaps its new one. Asked to compact all they can, they leave the four regions to the serial
queue. -/
theorem sample_compacts_at_once : ∃ (h : Heap) (L : Layout), sample = .ok h ∧ h.Clean L ∧
    (0 < 2 ∧ 2 ≤ h.gang.size) ∧
    (List.range 4).map (fun i => Object.size h.memory (sampleWord i 4)) = [8, 8, 8, 8] ∧
    ∀ maximal, ∃ m f a : Collector, sampleMarked maximal = .ok m ∧
      m.planCompaction = .ok f ∧ f.adjustReferences = .ok a ∧
      f.Headed h ⟨true, false, maximal, 8192⟩ a.memory ∧
      (f.workerQueues, f.serial.regions, (List.range 4).map fun i => f.place (sampleWord i 4)) =
        (if maximal then ([[], []], [0, 1, 2, 3],
          [sampleWord 0 0, sampleWord 0 16, sampleWord 0 8, sampleWord 0 24])
        else ([[0, 2], [1, 3]], [],
          [sampleWord 0 0, sampleWord 1 0, sampleWord 0 8, sampleWord 1 8])) ∧
      Compacts h L false (a.setMemory a.memory) f.workerQueues
        ((a.setMemory a.memory).run .compact compactWorker) fun x =>
          ∃ y, x.resetInPlace = .ok y ∧ Compacts h L false y [f.serial.regions]
            (y.serial.regions.foldlM compactRegion y) fun z =>
              CopiedAtOnce h ⟨true, false, maximal, 8192⟩ f a.memory z.memory := by
  obtain ⟨h, L, hs, w⟩ := sample_wellFormed
  have hgang := of_sample (f := fun h => h.gang.size) (v := 2) hs (by decide +kernel)
  have hsizes := of_sample (v := [8, 8, 8, 8])
    (f := fun h => (List.range 4).map fun i => Object.size h.memory (sampleWord i 4)) hs
    (by decide +kernel)
  refine ⟨h, L, hs, w.toClean, by omega, hsizes, fun maximal => ?_⟩
  obtain ⟨m, f, a, hmark, hplan, hadjust, headed, hall⟩ :=
    compacts_at_once w.toClean (n := 2) (by omega) ⟨true, false, maximal, 8192⟩
  have hmarked : sampleMarked maximal = .ok m := (Checked.bind_of hs _).trans hmark
  refine ⟨m, f, a, hmarked, hplan, hadjust, headed, ?_, hall a.memory headed⟩
  cases maximal with
  | false =>
    have hlook : (sampleMarked false >>= planCompaction).toOption.map (fun f =>
        (f.workerQueues, f.serial.regions, (List.range 4).map fun i => f.place (sampleWord i 4))) =
        some ([[0, 2], [1, 3]], [],
          [sampleWord 0 0, sampleWord 1 0, sampleWord 0 8, sampleWord 1 8]) := by decide +kernel
    rw [Checked.bind_of hmarked, hplan] at hlook
    exact Option.some.inj hlook
  | true =>
    have hlook : (do
        let e ← samplePlan
        (← e.planBehind [0, 1, 2, 3]).noteCompacted).toOption.map (fun (f : Collector) =>
          (f.workerQueues, f.serial.regions,
            (List.range 4).map fun i => f.place (sampleWord i 4))) =
        some ([[], []], [0, 1, 2, 3],
          [sampleWord 0 0, sampleWord 0 16, sampleWord 0 8, sampleWord 0 24]) := by decide +kernel
    rw [samplePlan_of hmarked hplan] at hlook
    exact Option.some.inj hlook

end CompactionGang

end RegionHeap
