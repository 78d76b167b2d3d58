import RegionHeap.Proofs.HumongousPlan

/-!
The whole plan: what each region is going to be, and where each live object goes.
-/
set_option autoImplicit false

namespace RegionHeap.Collector

variable {c d e f g : Collector} {h : Heap} {L : Layout} {fill : Nat → List (Nat × Nat)}

/-- A region that is freed, or that no object slides into. -/
def LeftEmpty (c : Collector) (h : Heap) (L : Layout) (f : Collector)
    (fill : Nat → List (Nat × Nat)) (k : Nat) : Prop :=
  k < L.count ∧ h.fate c.scope.clearSoft c.scope.threshold k = .free ∨ k ∈ f.lists ∧ fill k = []

/-- Planning is done. Nothing was written but forwarding words. -/
structure Planned (c : Collector) (h : Heap) (L : Layout) (f : Collector)
    (fill : Nat → List (Nat × Nat)) : Prop extends c.Placed h L f fill where
  ready : f.Ready L
  scope : f.scope = c.scope
  workers : f.workers = c.workers
  heap : f.heap = { c.heap with table := f.heap.table, liveness := f.heap.liveness }
  exact : ∀ o, L.IsWord o → (f.heap.liveness.marked L o = true ↔ h.Traced c.scope.clearSoft o)
  region : ∀ i, i < L.count →
    (f.heap.region i).Alike (h.sorted c.scope.clearSoft c.scope.threshold i)
  blocks : ∀ i, i < L.count → h.fate c.scope.clearSoft c.scope.threshold i ≠ .compacting →
    (f.heap.region i).blocks = (h.sorted c.scope.clearSoft c.scope.threshold i).blocks
  moves : Moves h L c.scope.clearSoft (fun k =>
    h.fate c.scope.clearSoft c.scope.threshold k = .free ∨ k ∈ f.lists ∧ fill k = []) f.moves
  left : ∀ m ∈ f.moves, ∀ k, m.Leaves k → f.attrs.attr k = .compacting
  stay : ∀ k, k < L.count → (∀ m ∈ f.moves, ¬m.Leaves k) →
    f.attrs.attr k = h.fate c.scope.clearSoft c.scope.threshold k
  sent : ∀ m ∈ f.moves, f.memory.read (L.bottom m.source) = L.bottom m.target
  memory : ∀ a, ¬h.Slides c.scope.clearSoft c.scope.threshold a →
    (∀ m ∈ f.moves, a ≠ L.bottom m.source) → f.memory.read a = h.memory.read a
  compacted : f.compacted = f.lists
  compactedLive : f.compactedLive = Word.total (f.lists.map (h.liveWords c.scope.clearSoft))
  /-- In a maximal compaction every humongous object that may move goes as low as it can. -/
  lowest : c.scope.maximal = true →
    AllLowest h L c.scope.clearSoft (c.LeftEmpty h L f fill) f.moves

theorem Moves.mono {clearSoft : Bool} {empty empty' : Nat → Prop} {moves : List HumongousMove}
    (v : Moves h L clearSoft empty moves) (hv : ∀ k, empty k → empty' k) :
    Moves h L clearSoft empty' moves :=
  ⟨v.source, v.down, fun before m after e k hk => (v.vacant before m after e k hk).imp_left (hv k),
    v.ascending, v.apart⟩

theorem bottom_not_slides (w : h.Consistent L) {clearSoft : Bool} {threshold i : Nat}
    (hi : i < L.count) (hk : (h.region i).kind.isStartsHumongous) :
    ¬h.Slides clearSoft threshold (L.bottom i) := by
  rintro ⟨j, hj, hf, ho⟩
  rw [w.regionCount] at hj
  have hr := (w.liveIn_inside hj ho).2.1
  rw [L.regionOf_bottom] at hr
  subst hr
  have := ((w.fate_eq_compacting hi).mp hf).1
  rw [Heap.kind_eq_starts hk] at this
  contradiction

theorem SlidePlan.scope (s : c.Sorted h L d) (o : c.SlidePlan h L d e fill) :
    e.scope = c.scope := by
  rw [o.same]
  show d.scope = _
  rw [s.same]
  rfl

theorem SlidePlan.live (s : c.Sorted h L d) (o : c.SlidePlan h L d e fill) : e.live = c.live := by
  rw [o.same]
  show d.live = _
  rw [s.same]
  rfl

theorem SlidePlan.heap (s : c.Sorted h L d) (o : c.SlidePlan h L d e fill) :
    e.heap = { c.heap with table := e.heap.table, liveness := e.heap.liveness } := by
  obtain ⟨plan, points, serial, he⟩ : ∃ plan points serial,
      e = (d.withPlan plan points).withSerial serial := ⟨_, _, _, o.same⟩
  obtain ⟨t, l, attrs, points', starts, freed, hd⟩ : ∃ t l attrs points starts freed,
      d = c.withSorting t l attrs points starts freed := ⟨_, _, _, _, _, _, s.same⟩
  rw [he, hd]
  rfl

/-- Forwarding a humongous object does not write over the header of one that slides. -/
theorem MovesPlanned.placed (w : h.Consistent L) (o : c.SlidePlan h L d e fill)
    (p : c.MovesPlanned h L e f) : c.Placed h L f fill := by
  obtain ⟨mem, attrs, moves, rfl⟩ : ∃ mem attrs moves, f = e.withMoves mem attrs moves :=
    ⟨_, _, _, p.same⟩
  refine ⟨o.size, o.nodup, o.mem, o.ascending, o.serialAscending, fun k hk => ?_, o.only, o.all,
    o.closed⟩
  refine (o.filled k hk).congr rfl fun q hq => p.memory q.1 fun v hv e' => ?_
  obtain ⟨hv, hmove, -⟩ := p.moves.source v hv
  have hslides := (o.only k hk q hq).2
  rw [e'] at hslides
  exact bottom_not_slides w hv hmove.1 hslides

theorem MovesPlanned.planned (w : h.Consistent L) (m : c.Marked h L) (s : c.Sorted h L d)
    (o : c.SlidePlan h L d e fill) (p : c.MovesPlanned h L e f)
    (hlowest : c.scope.maximal = true →
      AllLowest h L c.scope.clearSoft (c.LeftEmpty h L e fill) f.moves) :
    ∃ g, f.noteCompacted = .ok g ∧ c.Planned h L g fill := by
  have placed := p.placed w o
  -- planning for humongous objects changed headers, attributes and moves only
  obtain ⟨mem, attrs, moves, rfl⟩ : ∃ mem attrs moves, f = e.withMoves mem attrs moves :=
    ⟨_, _, _, p.same⟩
  have hready := o.ready s
  have hwords : e.lists.mapM (e.withMoves mem attrs moves).liveWords =
      .ok (e.lists.map (h.liveWords c.scope.clearSoft)) := by
    refine Checked.mapM_of fun k hk => ?_
    have hk := ((o.mem k).mp hk).1
    rw [← m.counted k hk, ← o.live s]
    exact hready.liveWords_of hk
  refine ⟨{ e.withMoves mem attrs moves with
    compacted := e.lists
    compactedLive := Word.total (e.lists.map (h.liveWords c.scope.clearSoft)) },
    (Checked.bind_of hwords _).trans rfl, {
    toPlaced := ⟨placed.size, placed.nodup, placed.mem, placed.ascending, placed.serialAscending,
      placed.filled, placed.only, placed.all, placed.closed⟩
    ready := ⟨hready.heap.withTable (o.plan.laid.withMemory mem), p.size, hready.live, hready.tops,
      hready.points, hready.workers, hready.gang⟩
    scope := ?scope
    workers := ?workers
    heap := ?heap
    exact := ?marks
    region := fun i hi => (o.plan.region i hi).trans (s.region i hi).1
    blocks := fun i hi hf => (o.plan.blocks i hi hf).trans (s.region i hi).2
    moves := Moves.mono p.moves fun k hk => hk.imp_right fun hk =>
      ⟨List.mem_append_right _ (e.serial.untouched_sublist.subset hk), o.untouched k hk⟩
    left := p.left
    stay := fun k hk hno => ?stay
    sent := p.sent
    memory := fun a hs ha => (p.memory a ha).trans (o.plan.memory a hs)
    compacted := rfl
    compactedLive := rfl
    lowest := hlowest }⟩
  case scope =>
    show e.scope = _
    exact o.scope s
  case workers =>
    show e.workers = _
    rw [o.same]
    show d.workers = _
    rw [s.same]
    rfl
  case heap =>
    have hheap := o.heap s
    show { e.heap with table := { e.heap.table with memory := mem } } = _
    rw [hheap]
    rfl
  case marks =>
    show ∀ o, L.IsWord o → (e.heap.liveness.marked L o = true ↔ _)
    rw [o.same]
    exact s.exact
  case stay =>
    rw [← s.attr k hk, ← o.attrs]
    exact p.stay k hno

/-- Planning again, if that is called for. A maximal compaction always does. -/
theorem WorkersPlanned.again_of (w : h.Consistent L) (m : c.Marked h L) (s : c.Sorted h L d)
    (p : c.WorkersPlanned h L d c.workers e fill) :
    ∃ e' fill', (if e.scope.maximal || !(e.hasFreeTargets || e.freed)
      then e.planSerially else pure e) = .ok e' ∧ c.SlidePlan h L d e' fill' ∧
      (c.scope.maximal = true → ∀ k ∈ e'.lists, fill' k = [] → k ∈ e'.serial.untouched) := by
  have o := p.slidePlan w m s
  by_cases hagain : (e.scope.maximal || !(e.hasFreeTargets || e.freed)) = true
  · rw [if_pos hagain]
    obtain ⟨e', fill', he, o', htouched⟩ := planSerially_touches w m s p
    exact ⟨e', fill', he, o', fun _ => htouched⟩
  · rw [if_neg hagain]
    refine ⟨e, fill, rfl, o, fun hmax => absurd ?_ hagain⟩
    rw [o.scope s, hmax]
    rfl

theorem SlidePlan.moves_of (w : h.Consistent L) (m : c.Marked h L) (s : c.Sorted h L d)
    (o : c.SlidePlan h L d e fill)
    (htouched : c.scope.maximal = true → ∀ k ∈ e.lists, fill k = [] → k ∈ e.serial.untouched) :
    ∃ f, (if e.scope.maximal && !e.humongousStarts.isEmpty
      then e.planHumongous else pure e) = .ok f ∧ c.MovesPlanned h L e f ∧
      (c.scope.maximal = true →
        AllLowest h L c.scope.clearSoft (c.LeftEmpty h L e fill) f.moves) := by
  have hstarts : e.humongousStarts = d.humongousStarts := by
    rw [o.same]
    rfl
  by_cases hmove : (e.scope.maximal && !e.humongousStarts.isEmpty) = true
  · rw [if_pos hmove]
    obtain ⟨f, hf, g, hlowest⟩ := planHumongous_of w m s o
    refine ⟨f, hf, g, fun hmax i hi hm j hj => (hlowest i hi hm j hj).of_vacated fun k hv =>
      hv.mono fun hk => List.mem_append.mpr ?_⟩
    rcases hk with ⟨hkl, hfree⟩ | ⟨hl, hnil⟩
    · exact .inr (List.mem_filter.mpr ⟨List.mem_range.mpr hkl, beq_iff_eq.mpr hfree⟩)
    · exact .inl (htouched hmax k hl hnil)
  · rw [if_neg hmove]
    refine ⟨e, rfl, o.still m s, fun hmax i hi hm => absurd ?_ hmove⟩
    have hstart : i ∈ d.humongousStarts := (s.starts.2 i).mpr ⟨hi, hi, hm⟩
    rw [o.scope s, hmax, hstarts]
    simpa using List.ne_nil_of_mem hstart

theorem planCompaction_of (w : h.Consistent L) (m : c.Marked h L) :
    ∃ f fill, c.planCompaction = .ok f ∧ c.Planned h L f fill := by
  obtain ⟨d₀, hsort, s₀⟩ := sortRegions_of w m
  obtain ⟨d, hforget, s⟩ := forgetReferences_of s₀
  obtain ⟨e₀, fill₀, hplan, p⟩ := planWorkers_of w s
  obtain ⟨e, fill, hserial, o, htouched⟩ := p.again_of w m s
  obtain ⟨f, hmoves, p', hlowest⟩ := o.moves_of w m s htouched
  obtain ⟨g, hnote, q⟩ := p'.planned w m s o hlowest
  have hworkers : (decide (0 < d₀.workers)) = true := by simpa using s₀.ready.workers
  refine ⟨g, fill, ?_, q⟩
  rw [planCompaction, Checked.bind_of hsort, Checked.unless_of hworkers, Checked.ok_bind,
    Checked.bind_of hforget, Checked.bind_of hplan, Checked.ite_bind, Checked.bind_of hserial]
  dsimp only
  rw [Checked.ite_bind, Checked.bind_of hmoves, hnote]

end RegionHeap.Collector
