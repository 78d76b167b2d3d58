import RegionHeap.Proofs.SlidePlan

/-!
Planning again in one list. The current regions of the workers and those behind them are planned
once more; what was forwarded into the regions before them, and into the lowest one, stays. The
objects that are asked for are those that were to go into one of the other regions.
-/
set_option autoImplicit false

namespace RegionHeap

open CompactionPoint

/-- Looks up whether an object was to go into one of these regions. -/
def Heap.sendsInto (h : Heap) (regions : List Nat) (m : Memory) (o : Nat) : Checked Bool := do
  let region ← h.regionOf (Object.destination m o)
  return regions.contains region

/-- What planning again takes from a point, and what it leaves. -/
def CompactionPoint.split (p : CompactionPoint) : List Nat × CompactionPoint :=
  if p.hasRegions then p.takeRest else ([], p)

theorem CompactionPoint.foldl_add (xs : List Nat) (p : CompactionPoint) :
    xs.foldl add p = { p with regions := p.regions ++ xs } := by
  induction xs generalizing p with
  | nil => simp
  | cons x xs ih => simp [ih, add]

variable {h : Heap} {L : Layout} {fill : Nat → List (Nat × Nat)}

theorem Slid.split_of {clearSoft : Bool} {s : Plan} {p : CompactionPoint} {rs : List Nat}
    (slid : Slid h L clearSoft rs fill p s) :
    rs = p.split.2.regions ++ p.split.1 ∧ ∀ k ∈ p.split.1.drop 1, fill k = [] := by
  have hr := slid.regions
  rcases slid.current with ⟨rfl, hc⟩ | ⟨before, cur, after, hlist, hc, hempty⟩
  · have : p.split = ([], p) := by simp [split, hasRegions, hr]
    rw [this]
    simp [hr]
  · have : p.split = (cur :: after, { p with regions := before, current := none }) := by
      simp [split, hasRegions, hr, hlist, takeRest, hc]
    rw [this]
    exact ⟨hlist, by simpa using hempty⟩

namespace Collector

variable {c d e : Collector}

theorem Placed.destination_of (w : h.Consistent L) (o : c.Placed h L e fill) {k x q : Nat}
    (hk : k ∈ e.lists) (hq : (x, q) ∈ fill k) :
    Object.destination e.memory x = q ∧ L.IsWord q ∧ L.regionOf q = k := by
  have hx : h.IsObject x := (o.only k hk (x, q) hq).2.isObject
  have hf := o.filled k hk
  obtain ⟨hw, hr⟩ := hf.place ((o.mem k).mp hk).1 hq (Nat.lt_of_lt_of_le (by decide) (w.size_ge hx))
  exact ⟨(hf.sent (x, q) hq).destination (Nat.lt_of_lt_of_le L.start_pos hw.start_le), hw, hr⟩

/-- The regions that are planned again, as the workers listed them. -/
def again (e : Collector) : List Nat := e.points.toList.flatMap fun p => p.split.1

/-- The points with what they keep. -/
def kept (e : Collector) : Array CompactionPoint := e.points.map fun p => p.split.2

theorem WorkersPlanned.split_of (p : c.WorkersPlanned h L d c.workers e fill) {k : Nat}
    (hk : k < c.workers) : (Table.entry d.points k).regions =
      (Table.entry e.points k).split.2.regions ++ (Table.entry e.points k).split.1 :=
  (p.slid k hk hk).split_of.1

theorem WorkersPlanned.mem_again (p : c.WorkersPlanned h L d c.workers e fill) {j : Nat} :
    j ∈ e.again ↔ ∃ k, k < c.workers ∧ j ∈ (Table.entry e.points k).split.1 := by
  rw [again, Table.mem_flatMap_entries, p.size]

theorem WorkersPlanned.kept_not_again (s : c.Sorted h L d)
    (p : c.WorkersPlanned h L d c.workers e fill) {k j : Nat} (hk : k < c.workers)
    (hj : j ∈ (Table.entry e.points k).split.2.regions) : j ∉ e.again := by
  intro hm
  obtain ⟨k', hk', hj'⟩ := p.mem_again.mp hm
  have hhere : j ∈ (Table.entry d.points k).regions := p.split_of hk ▸ List.mem_append_left _ hj
  have hthere : j ∈ (Table.entry d.points k').regions :=
    p.split_of hk' ▸ List.mem_append_right _ hj'
  obtain rfl := s.points.once j k k' hk hk' hhere hthere
  have hn : (Table.entry d.points k).regions.Nodup := (s.points.ascending k hk).imp Nat.ne_of_lt
  rw [p.split_of hk, List.nodup_append] at hn
  exact hn.2.2 j hj j hj' rfl

theorem WorkersPlanned.kept_of (p : c.WorkersPlanned h L d c.workers e fill) {k : Nat}
    (hk : k < c.workers) : Table.entry e.kept k = (Table.entry e.points k).split.2 :=
  Table.entry_map _ (p.size ▸ hk)

theorem WorkersPlanned.mem_kept (p : c.WorkersPlanned h L d c.workers e fill) {j : Nat} :
    j ∈ e.kept.toList.flatMap CompactionPoint.regions ↔
      ∃ k, k < c.workers ∧ j ∈ (Table.entry e.points k).split.2.regions := by
  rw [Table.mem_flatMap_entries, kept, Array.size_map, p.size]
  constructor
  · rintro ⟨k, hk, hj⟩
    exact ⟨k, hk, p.kept_of hk ▸ hj⟩
  · rintro ⟨k, hk, hj⟩
    exact ⟨k, hk, by rw [← p.kept_of hk] at hj; exact hj⟩

theorem WorkersPlanned.kept_or_again (s : c.Sorted h L d)
    (p : c.WorkersPlanned h L d c.workers e fill) {j : Nat} :
    j ∈ e.kept.toList.flatMap CompactionPoint.regions ∨ j ∈ e.again ↔
      j < L.count ∧ h.fate c.scope.clearSoft c.scope.threshold j = .compacting := by
  rw [p.mem_kept, p.mem_again]
  constructor
  · rintro (⟨k, hk, hj⟩ | ⟨k, hk, hj⟩)
    · exact s.points.inside hk (p.split_of hk ▸ List.mem_append_left _ hj)
    · exact s.points.inside hk (p.split_of hk ▸ List.mem_append_right _ hj)
  · intro hj
    obtain ⟨k, hk, hjk⟩ := (s.points.dealt j).mpr ⟨hj.1, hj⟩
    rw [p.split_of hk] at hjk
    rcases List.mem_append.mp hjk with hjk | hjk
    · exact .inl ⟨k, hk, hjk⟩
    · exact .inr ⟨k, hk, hjk⟩

theorem WorkersPlanned.nodup_kept (s : c.Sorted h L d)
    (p : c.WorkersPlanned h L d c.workers e fill) :
    (e.kept.toList.flatMap CompactionPoint.regions).Nodup := by
  have hsize : e.kept.size = c.workers := by rw [kept, Array.size_map, p.size]
  refine Table.nodup_flatMap_entries (fun k hk => ?_) fun j k k' hk hk' hj hj' => ?_
  · rw [hsize] at hk
    rw [p.kept_of hk]
    have hn : (Table.entry d.points k).regions.Nodup := (s.points.ascending k hk).imp Nat.ne_of_lt
    rw [p.split_of hk, List.nodup_append] at hn
    exact hn.1
  · rw [hsize] at hk hk'
    rw [p.kept_of hk] at hj
    rw [p.kept_of hk'] at hj'
    exact s.points.once j k k' hk hk' (p.split_of hk ▸ List.mem_append_left _ hj)
      (p.split_of hk' ▸ List.mem_append_left _ hj')

theorem WorkersPlanned.nodup_again (s : c.Sorted h L d)
    (p : c.WorkersPlanned h L d c.workers e fill) : e.again.Nodup := by
  refine Table.nodup_flatMap_entries (fun k hk => ?_) fun j k k' hk hk' hj hj' => ?_
  · rw [p.size] at hk
    have hn : (Table.entry d.points k).regions.Nodup := (s.points.ascending k hk).imp Nat.ne_of_lt
    rw [p.split_of hk, List.nodup_append] at hn
    exact hn.2.1
  · rw [p.size] at hk hk'
    exact s.points.once j k k' hk hk' (p.split_of hk ▸ List.mem_append_right _ hj)
      (p.split_of hk' ▸ List.mem_append_right _ hj')

/-- An object that is to go into a region that is planned again comes from such a region, which
does not lie below. -/
theorem WorkersPlanned.source_of (w : h.Consistent L) (s : c.Sorted h L d)
    (p : c.WorkersPlanned h L d c.workers e fill) {j i x q : Nat} (hj : j ∈ e.again)
    (hi : i < L.count) (hx : x ∈ h.liveIn c.scope.clearSoft i) (hq : (x, q) ∈ fill j) :
    i ∈ e.again ∧ j ≤ i := by
  obtain ⟨k, hk, hjk⟩ := p.mem_again.mp hj
  have slid := p.slid k hk hk
  have hjr : j ∈ (Table.entry d.points k).regions := p.split_of hk ▸ List.mem_append_right _ hjk
  obtain ⟨hle, i', hi', hx'⟩ := slid.only j hjr (x, q) hq
  obtain rfl := w.liveIn_unique hi (s.points.inside hk hi').1 hx hx'
  have hsize : 0 < Object.size h.memory x := (w.liveIn_inside hi hx).2.2.2.1
  have hji : j ≤ i := by
    have hplace := ((slid.filled j hjr).place (s.points.inside hk hjr).1 hq hsize).2
    rw [← hplace, ← (w.liveIn_inside hi hx).2.1]
    exact Layout.regionOf_mono hle
  refine ⟨p.mem_again.mpr ⟨k, hk, ?_⟩, hji⟩
  have hempty := slid.split_of.2
  have hasc := s.points.ascending k hk
  rw [p.split_of hk] at hi' hasc
  -- a region that holds something is the first of those that are taken
  cases ht : (Table.entry e.points k).split.1 with
  | nil => simp [ht] at hjk
  | cons first rest =>
    rw [ht] at hjk hempty hi' hasc
    rcases List.mem_cons.mp hjk with rfl | hjk
    · rcases List.mem_append.mp hi' with hi' | hi'
      · have := (List.pairwise_append.mp hasc).2.2 i hi' j (by simp)
        omega
      · exact hi'
    · rw [hempty j (by simpa using hjk)] at hq
      simp at hq

/-- A region that nothing went into is taken, and so is one that lies before it. -/
theorem WorkersPlanned.again_of_empty (s : c.Sorted h L d)
    (p : c.WorkersPlanned h L d c.workers e fill) {k j : Nat} (hk : k < c.workers)
    (hj : j ∈ (Table.entry d.points k).regions) (he : fill j = []) :
    j ∈ e.again ∧ ∃ i ∈ e.again, i < j := by
  have slid := p.slid k hk hk
  have hun := slid.touched j hj he
  rcases slid.current with ⟨h0, -⟩ | ⟨before, cur, after, hlist, hc, -⟩
  · simp [h0] at hj
  · have hr : (Table.entry e.points k).regions = before ++ cur :: after := slid.regions.trans hlist
    have hafter : j ∈ after := by
      simpa [CompactionPoint.untouched, hc, hr] using hun
    have hsplit : (Table.entry e.points k).split.1 = cur :: after := by
      simp [split, hasRegions, hr, takeRest, hc]
    have hasc := s.points.ascending k hk
    rw [hlist, List.pairwise_append, List.pairwise_cons] at hasc
    exact ⟨p.mem_again.mpr ⟨k, hk, by simp [hsplit, hafter]⟩, cur,
      p.mem_again.mpr ⟨k, hk, by simp [hsplit]⟩, hasc.2.1.1 j hafter⟩

theorem planSerially_eq (hserial : e.serial = {}) :
    e.planSerially = (do
      let kept := { e with points := e.kept }
      let p : CompactionPoint := { regions := e.again }
      if !p.hasRegions then return { kept with serial := p }
      let p ← (← p.sort).start e.plan
      let again := p.regions.drop 1
      let (p, s) ← again.foldlM (sweepRegion e.liveness (e.heap.sendsInto again)) (p, e.plan)
      return { kept.setPlan (← p.save s) with serial := p }) := by
  have htaken : (e.points.toList.map fun (p : CompactionPoint) =>
      if p.hasRegions then p.takeRest else ([], p)) = e.points.toList.map split := rfl
  have hkept : ((e.points.toList.map split).map Prod.snd).toArray =
      e.kept := by
    rw [List.map_map]
    apply Array.ext'
    simp [kept, Function.comp_def]
  have hagain : (e.points.toList.map split).flatMap Prod.fst = e.again := by
    rw [again, List.flatMap_map]
  rw [planSerially, htaken]
  simp only [hkept, hagain, hserial, foldl_add, List.nil_append]
  rfl

theorem WorkersPlanned.serial_of_nil (m : c.Marked h L) (s : c.Sorted h L d)
    (p : c.WorkersPlanned h L d c.workers e fill) (hnil : e.again = []) :
    e.planSerially = .ok e := by
  have hsplit : ∀ k, k < c.workers → (Table.entry e.points k).split.2 = Table.entry e.points k := by
    intro k hk
    have hr := (p.slid k hk hk).regions
    rcases (p.slid k hk hk).current with ⟨h0, hc⟩ | ⟨before, cur, after, hlist, hc, hempty⟩
    · have hno : (Table.entry e.points k).hasRegions = false := by simp [hasRegions, hr, h0]
      simp only [split, hno, Bool.false_eq_true, if_false]
    · have : cur ∈ e.again := p.mem_again.mpr ⟨k, hk, by
        simp [split, hasRegions, hr, hlist, takeRest, hc]⟩
      rw [hnil] at this
      simp at this
  have hpoints : e.kept = e.points := by
    unfold kept
    refine Array.ext (by simp) fun k hk hk' => ?_
    have hw : k < c.workers := p.size ▸ hk'
    have := hsplit k hw
    rw [(Table.entry_of_getElem? (Array.getElem?_eq_getElem hk')).2] at this
    simpa using this
  have hserial := p.serial_eq_empty m s
  rw [planSerially_eq hserial, hnil, hpoints]
  show Except.ok { e with serial := {} } = _
  rw [← hserial]

/-- What the lowest region holds; the others are emptied. -/
def lowestOnly (fill : Nat → List (Nat × Nat)) (first k : Nat) : List (Nat × Nat) :=
  if k = first then fill first else []

/-- Whether an object was to go into one of these regions. -/
def goesInto (L : Layout) (m : Memory) (regions : List Nat) (o : Nat) : Bool :=
  regions.contains (L.regionOf (Object.destination m o))

theorem Placed.not_goesInto (w : h.Consistent L) (o : c.Placed h L e fill) {first j : Nat}
    {rest : List Nat} (hfirst : first ∈ e.lists) (hrest : first ∉ rest) {q : Nat × Nat}
    (hq : q ∈ lowestOnly fill first j) : goesInto L e.memory rest q.1 = false := by
  unfold lowestOnly at hq
  split at hq
  · obtain ⟨hd, -, hr⟩ := o.destination_of w hfirst hq
    rw [goesInto, hd, hr, List.contains_eq_mem, decide_eq_false_iff_not]
    exact hrest
  · simp at hq

/-- While planning again, an object that was not forwarded again still knows where it was to go. -/
theorem WorkersPlanned.asked_of (w : h.Consistent L) (m : c.Marked h L) (s : c.Sorted h L d)
    (p : c.WorkersPlanned h L d c.workers e fill) (regions : List Nat) {o : Nat} (mem : Memory)
    (ho : h.Slides c.scope.clearSoft c.scope.threshold o) (hmem : mem.read o = e.memory.read o) :
    e.heap.sendsInto regions mem o = .ok (goesInto L e.memory regions o) := by
  have hheap : e.heap.Laid L := by
    rw [p.same]
    exact s.ready.heap.withTable p.plan.laid
  obtain ⟨j, hj, q, -, hq⟩ := (p.slidePlan w m s).all o ho
  obtain ⟨hd, hword, -⟩ := (p.slidePlan w m s).destination_of w hj hq
  have he : Object.destination mem o = Object.destination e.memory o :=
    Object.destination_congr hmem
  rw [Heap.sendsInto, he, goesInto, hd, Checked.bind_of (hheap.regionOf_of hword)]
  rfl

/-- The taken regions are planned again, in ascending order. -/
structure Replanned (c : Collector) (h : Heap) (L : Layout) (d e : Collector)
    (fill : Nat → List (Nat × Nat)) (first : Nat) (rest : List Nat)
    (fill' : Nat → List (Nat × Nat)) (s : Plan) (p : CompactionPoint) : Prop where
  taken : ∀ j, j ∈ first :: rest ↔ j ∈ e.again
  ascending : (first :: rest).Pairwise (· < ·)
  regions : p.regions = first :: rest
  plan : s.Of h L c.scope.clearSoft c.scope.threshold d.heap.table
  filled : ∀ j ∈ first :: rest,
    Filled (Object.size h.memory) L s j (fill' j) (Table.entry s.tops j)
  untouched : ∀ j ∈ p.untouched, j ∈ first :: rest ∧ fill' j = []
  grown : Grown (lowestOnly fill first) fill' (first :: rest)
    (rest.flatMap fun i => (h.liveIn c.scope.clearSoft i).filter (goesInto L e.memory rest))
  within : Plan.Within (· ∈ first :: rest) (· ∈ rest.flatMap fun i =>
    (h.liveIn c.scope.clearSoft i).filter (goesInto L e.memory rest)) e.plan s
  snug : (first :: rest).IsChain (Snug (Object.size h.memory) L fill')
  touched : ∀ j ∈ first :: rest, fill' j = [] → j ∈ p.untouched

/-- The collector after planning again. -/
def replanned (e : Collector) (s : Plan) (p : CompactionPoint) : Collector :=
  { ({ e with points := e.kept }).setPlan s with serial := p }

/-- Plans the regions behind the first of a list again. -/
def planBehind (e : Collector) (regions : List Nat) : Checked Collector := do
  let q ← CompactionPoint.start { regions := regions } e.plan
  let again := q.regions.drop 1
  let (p, s) ← again.foldlM (sweepRegion e.liveness (e.heap.sendsInto again)) (q, e.plan)
  return e.replanned (← p.save s) p

theorem planSerially_of_cons (hserial : e.serial = {}) {first : Nat} {rest : List Nat}
    (hsorted : e.again.mergeSort (· ≤ ·) = first :: rest) :
    e.planSerially = e.planBehind (first :: rest) := by
  have hsort : ({ regions := e.again } : CompactionPoint).sort =
      .ok { regions := first :: rest } := by
    rw [sort, hsorted]
    rfl
  have hhas : ({ regions := e.again } : CompactionPoint).hasRegions = true := by
    have hmem : first ∈ e.again.mergeSort (· ≤ ·) := hsorted ▸ List.mem_cons_self
    have hfirst : first ∈ e.again := List.mem_mergeSort.mp hmem
    cases ha : e.again with
    | nil => simp [ha] at hfirst
    | cons => rfl
  rw [planSerially_eq hserial]
  simp only [hhas, Bool.not_true, Bool.false_eq_true, if_false, hsort, Checked.ok_bind]
  rfl

/-- Something went into the lowest of the taken regions, for one that is empty lies behind another
one that is taken. -/
theorem WorkersPlanned.lowest_held (s : c.Sorted h L d)
    (p : c.WorkersPlanned h L d c.workers e fill) {first : Nat} {rest : List Nat}
    (hmem : ∀ j, j ∈ first :: rest ↔ j ∈ e.again) (hasc : (first :: rest).Pairwise (· < ·)) :
    fill first ≠ [] := by
  intro he
  have hfirst := (p.kept_or_again s).mp (.inr ((hmem first).mp (by simp)))
  obtain ⟨k, hk, hfk⟩ := (s.points.dealt first).mpr ⟨hfirst.1, hfirst⟩
  obtain ⟨-, i, hi, hlt⟩ := p.again_of_empty s hk hfk he
  rcases List.mem_cons.mp ((hmem i).mpr hi) with rfl | hi
  · exact Nat.lt_irrefl _ hlt
  · exact Nat.lt_asymm hlt ((List.pairwise_cons.mp hasc).1 i hi)

/-- Planning again succeeds. -/
theorem WorkersPlanned.replan_of (w : h.Consistent L) (m : c.Marked h L) (s : c.Sorted h L d)
    (p : c.WorkersPlanned h L d c.workers e fill) {first : Nat} {rest : List Nat}
    (hsorted : e.again.mergeSort (· ≤ ·) = first :: rest) :
    ∃ fill' p' s', e.planSerially = .ok (e.replanned s' p') ∧
      c.Replanned h L d e fill first rest fill' s' p' := by
  have o := p.slidePlan w m s
  have hmem : ∀ j, j ∈ first :: rest ↔ j ∈ e.again := fun j => by
    rw [← hsorted, List.mem_mergeSort]
  have hasc : (first :: rest).Pairwise (· < ·) := hsorted ▸ ascending_mergeSort (p.nodup_again s)
  have hin : ∀ j ∈ first :: rest, j < L.count ∧
      h.fate c.scope.clearSoft c.scope.threshold j = .compacting :=
    fun j hj => (p.kept_or_again s).mp (.inr ((hmem j).mp hj))
  have hfirst : first ∈ e.lists := (o.mem first).mpr (hin first (by simp))
  have hlow : ∀ k ∈ rest, k ≠ first :=
    fun k hk => Nat.ne_of_gt ((List.pairwise_cons.mp hasc).1 k hk)
  -- the lowest region keeps what went into it, so that the point starts behind that
  obtain ⟨q, hstart, -, k₀⟩ := start_of (p := { regions := first :: rest })
    (lowestOnly fill first) rfl p.plan rfl (hasc.imp Nat.ne_of_lt) hin
    (by rw [lowestOnly, if_pos rfl]; exact o.filled first hfirst)
    (fun k hk => by rw [lowestOnly, if_neg (hlow k hk)])
  obtain ⟨before, cur, after, fill', p', s', hloop, hlist, k', g, hw⟩ := sweepRegions_of w
    (fun j hj hf => s.top_of hj hf) s.ready.heap.liveness s.exact
    (e.heap.sendsInto rest) (goesInto L e.memory rest) (sweepRegion _ _) (fun _ _ _ _ => rfl) hasc
    (fun k hk => (hin k (by simp [hk])).1) k₀
    (fun j q hq i _ _ => o.not_goesInto w hfirst (fun hm => hlow first hm rfl) hq)
    fun i hi a ha mem hm => p.asked_of w m s rest mem
      ⟨i, by rw [w.regionCount]; exact (hin i (by simp [hi])).1, (hin i (by simp [hi])).2, ha⟩ hm
  have hcm : cur ∈ first :: rest := hlist ▸ by simp
  refine ⟨fill', p', _, ?_, hmem, hasc, ?_, k'.saved.2.1,
    fun j hj => k'.filled_saved (hlist ▸ hj), fun j hj => ?_, g,
    hw.trans (k'.saved.2.2.mono (fun _ e => e ▸ hcm) fun _ h => h.elim), hlist ▸ k'.snug,
    fun j hj he => ?_⟩
  · have hliveness : e.liveness = d.heap.liveness := by
      rw [p.same]
      rfl
    have hregions : q.regions.drop 1 = rest := by
      rw [k₀.point]
      rfl
    rw [planSerially_of_cons (p.serial_eq_empty m s) hsorted, planBehind, Checked.bind_of hstart]
    dsimp only
    rw [hregions, hliveness]
    refine (Checked.bind_of hloop _).trans ?_
    exact Checked.bind_of k'.save_of _
  · rw [k'.point]
    simpa using hlist
  · have hj : j ∈ after := by
      have : p'.untouched = after := by
        rw [k'.point]
        simp [CompactionPoint.untouched]
      exact this ▸ hj
    exact ⟨hlist ▸ by simp [hj], k'.empty j (by simp [hj])⟩
  · -- the lowest region keeps what went into it
    obtain ⟨x, hx⟩ := List.exists_mem_of_ne_nil _ (p.lowest_held s hmem hasc)
    have hx' := g.keeps first x (by rw [lowestOnly, if_pos rfl]; exact hx)
    exact k'.touched ⟨first, hlist ▸ by simp, List.ne_nil_of_mem hx'⟩ j (hlist ▸ hj) he

namespace Replanned

variable {first : Nat} {rest : List Nat} {fill' : Nat → List (Nat × Nat)} {s' : Plan}
  {p' : CompactionPoint} (w : h.Consistent L) (m : c.Marked h L) (s : c.Sorted h L d)
  (p : c.WorkersPlanned h L d c.workers e fill)
  (r : c.Replanned h L d e fill first rest fill' s' p')

include r in
theorem mem_lists {j : Nat} : j ∈ (e.replanned s' p').lists ↔
    j ∈ e.kept.toList.flatMap CompactionPoint.regions ∨ j ∈ first :: rest := by
  rw [lists, ← r.regions]
  exact List.mem_append

include s p r

theorem sliding {j : Nat} : j ∈ (e.replanned s' p').lists ↔
    j < L.count ∧ h.fate c.scope.clearSoft c.scope.threshold j = .compacting := by
  rw [r.mem_lists, r.taken, p.kept_or_again s]

theorem nodup : (e.replanned s' p').lists.Nodup := by
  refine List.nodup_append.mpr ⟨p.nodup_kept s, ?_, fun i hi j hj hij => ?_⟩
  · show p'.regions.Nodup
    exact r.regions ▸ r.ascending.imp Nat.ne_of_lt
  · subst hij
    have hj : i ∈ p'.regions := hj
    obtain ⟨k, hk, hik⟩ := p.mem_kept.mp hi
    exact p.kept_not_again s hk hik ((r.taken i).mp (r.regions ▸ hj))

include w m

theorem filled_kept {k : Nat} (hk : k ∈ e.lists) (hks : k ∉ first :: rest) :
    Filled (Object.size h.memory) L s' k (fill k) (Table.entry s'.tops k) := by
  have o := p.slidePlan w m s
  rw [r.within.top k hks]
  refine (o.filled k hk).within r.within hks fun q hq hm => ?_
  obtain ⟨i, -, hm⟩ := List.mem_flatMap.mp hm
  obtain ⟨hd, -, hr⟩ := o.destination_of w hk hq
  have hin := (List.mem_filter.mp hm).2
  rw [goesInto, hd, hr] at hin
  exact hks (List.mem_cons_of_mem _ (by simpa using hin))

theorem only {j : Nat} {q : Nat × Nat} (hq : q ∈ fill' j) :
    q.2 ≤ q.1 ∧ ∃ i ∈ first :: rest, q.1 ∈ h.liveIn c.scope.clearSoft i := by
  have o := p.slidePlan w m s
  have hfirst : first ∈ e.again := (r.taken first).mp (by simp)
  rcases r.grown.only j q hq with hq | ⟨hq, hle⟩
  · unfold lowestOnly at hq
    split at hq
    · have hl := (o.mem first).mpr ((p.kept_or_again s).mp (.inr hfirst))
      obtain ⟨hle, i, hi, -, hx⟩ := o.only first hl q hq
      rw [w.regionCount] at hi
      exact ⟨hle, i, (r.taken i).mpr (p.source_of w s hfirst hi hx hq).1, hx⟩
    · simp at hq
  · obtain ⟨i, hi, hx⟩ := List.mem_flatMap.mp hq
    exact ⟨hle, i, by simp [hi], (List.mem_filter.mp hx).1⟩

theorem all {j x q : Nat} (hj : j ∈ first :: rest) (hq : (x, q) ∈ fill j) :
    ∃ k ∈ first :: rest, ∃ q', q' ≤ x ∧ (x, q') ∈ fill' k := by
  have o := p.slidePlan w m s
  have hl := (o.mem j).mpr ((p.kept_or_again s).mp (.inr ((r.taken j).mp hj)))
  obtain ⟨hle, i, hi, -, hx⟩ := o.only j hl (x, q) hq
  rw [w.regionCount] at hi
  rcases List.mem_cons.mp hj with rfl | hrest
  · exact ⟨j, by simp, q, hle, r.grown.keeps j (x, q) (by rw [lowestOnly, if_pos rfl]; exact hq)⟩
  · obtain ⟨hi', hji⟩ := p.source_of w s ((r.taken j).mp hj) hi hx hq
    have hlt := (List.pairwise_cons.mp r.ascending).1 j hrest
    have hirest : i ∈ rest := by
      rcases List.mem_cons.mp ((r.taken i).mpr hi') with rfl | h'
      · omega
      · exact h'
    obtain ⟨hd, -, hr⟩ := o.destination_of w hl hq
    refine r.grown.all x (List.mem_flatMap.mpr ⟨i, hirest, List.mem_filter.mpr ⟨hx, ?_⟩⟩)
    rw [goesInto, hd, hr]
    simpa using hrest

theorem dealt {k i o j q : Nat} (hk : k < c.workers) (hi : i ∈ (Table.entry d.points k).regions)
    (ho : o ∈ h.liveIn c.scope.clearSoft i) (hj : j ∈ e.lists)
    (hq : (o, q) ∈ if j ∈ first :: rest then fill' j else fill j) :
    j ∈ (Table.entry e.points k).split.2.regions ∨ j ∈ first :: rest := by
  by_cases hjs : j ∈ first :: rest
  · exact .inr hjs
  · rw [if_neg hjs] at hq
    have hj' := p.dealt_of w m s hk hi ho hj hq
    rw [p.regions_eq hk, p.split_of hk] at hj'
    exact (List.mem_append.mp hj').imp_right fun hj' =>
      (r.taken j).mpr (p.mem_again.mpr ⟨k, hk, hj'⟩)

theorem closed {k i o j q : Nat} (hk : k < c.workers)
    (hi : i ∈ (Table.entry e.points k).split.2.regions)
    (ho : o ∈ h.liveIn c.scope.clearSoft i) (hj : j ∈ e.lists)
    (hq : (o, q) ∈ if j ∈ first :: rest then fill' j else fill j) :
    j ∈ (Table.entry e.points k).split.2.regions := by
  have hdealt : i ∈ (Table.entry d.points k).regions := p.split_of hk ▸ List.mem_append_left _ hi
  refine (r.dealt w m s p hk hdealt ho hj hq).resolve_right fun hjs => ?_
  rw [if_pos hjs] at hq
  obtain ⟨-, i', hi', ho'⟩ := r.only w m s p hq
  have hi'' := (r.taken i').mp hi'
  have := w.liveIn_unique (s.points.inside hk hdealt).1 ((p.kept_or_again s).mp (.inr hi'')).1 ho
    ho'
  exact absurd (this ▸ hi'') (p.kept_not_again s hk hi)

theorem mem_first {j : Nat} : j ∈ (e.replanned s' p').lists ↔ j ∈ e.lists :=
  (r.sliding s p).trans ((p.slidePlan w m s).mem j).symm

/-- Both plans together place every sliding object: where an object of a taken region goes is told
by the second plan, else by the first. -/
theorem placed : c.Placed h L (e.replanned s' p')
    fun j => if j ∈ first :: rest then fill' j else fill j := by
  have o := p.slidePlan w m s
  refine {
    size := ?size
    nodup := r.nodup s p
    mem := fun j => r.sliding s p
    ascending := fun k hk => ?ascending
    serialAscending := ?serialAscending
    filled := fun k hk => ?filled
    only := fun k hk q hq => ?only
    all := fun a ha => ?all
    closed := fun k hk i hi a ha j hj q hq => ?closed }
  case size =>
    show e.kept.size = _
    rw [kept, Array.size_map, p.size]
  case ascending =>
    show (Table.entry e.kept k).regions.Pairwise _
    have := s.points.ascending k hk
    rw [p.split_of hk, List.pairwise_append] at this
    rw [p.kept_of hk]
    exact this.1
  case serialAscending =>
    show p'.regions.Pairwise _
    exact r.regions ▸ r.ascending
  case filled =>
    show Filled _ L s' k _ (Table.entry s'.tops k)
    split
    · exact r.filled k ‹_›
    · exact r.filled_kept w m s p ((r.mem_first w m s p).mp hk) ‹_›
  case only =>
    split at hq
    · obtain ⟨hle, i, hi, hx⟩ := r.only w m s p hq
      obtain ⟨hic, hif⟩ := (p.kept_or_again s).mp (.inr ((r.taken i).mp hi))
      exact ⟨hle, i, by rw [w.regionCount]; exact hic, hif, hx⟩
    · exact o.only k ((r.mem_first w m s p).mp hk) q hq
  -- an object that went into a taken region is forwarded again, the others stay where they were
  -- sent
  case all =>
    obtain ⟨k, hk, q, hle, hq⟩ := o.all a ha
    by_cases hks : k ∈ first :: rest
    · obtain ⟨k', hk', q', hle', hq'⟩ := r.all w m s p hks hq
      exact ⟨k', (r.mem_lists).mpr (.inr hk'), q', hle', by simpa only [hk', if_true] using hq'⟩
    · exact ⟨k, (r.mem_first w m s p).mpr hk, q, hle, by simpa only [hks, if_false] using hq⟩
  case closed =>
    show j ∈ (Table.entry e.kept k).regions
    have hi : i ∈ (Table.entry e.kept k).regions := hi
    rw [p.kept_of hk] at hi ⊢
    exact r.closed w m s p hk hi ha ((r.mem_first w m s p).mp hj) hq

theorem slidePlan : c.SlidePlan h L d (e.replanned s' p')
    fun j => if j ∈ first :: rest then fill' j else fill j := by
  have hsame : ∀ P X, e = d.withPlan P X → e.replanned s' p' =
      (d.withPlan (e.replanned s' p').plan (e.replanned s' p').points).withSerial
        (e.replanned s' p').serial := by
    rintro P X rfl
    rfl
  refine {
    r.placed w m s p with
    same := hsame _ _ p.same
    plan := r.plan
    untouched := fun k hk => ?untouched
    dealt := fun k hk i hi a ha j hj q hq => ?dealt
    snug := fun k hk => ?snug
    serialSnug := ?serialSnug }
  case untouched =>
    obtain ⟨hks, he⟩ := r.untouched k hk
    simp only [hks, if_true]
    exact he
  case dealt =>
    show j ∈ (Table.entry e.kept k).regions ∨ j ∈ p'.regions
    rw [r.regions, p.kept_of hk]
    exact r.dealt w m s p hk hi ha ((r.mem_first w m s p).mp hj) hq
  case snug =>
    show (Table.entry e.kept k).regions.IsChain _
    have hsnug := (p.slid k hk hk).snug
    rw [p.split_of hk] at hsnug
    have hkept : ∀ j, j ∈ (Table.entry e.points k).split.2.regions → j ∉ first :: rest :=
      fun j hj hjs => p.kept_not_again s hk hj ((r.taken j).mp hjs)
    rw [p.kept_of hk]
    exact hsnug.left_of_append.imp_of_mem_imp fun i j hi hj f =>
      f.congr (if_neg (hkept i hi)) (if_neg (hkept j hj))
  case serialSnug =>
    show p'.regions.IsChain _
    rw [r.regions]
    exact r.snug.imp_of_mem_imp fun i j hi hj f => f.congr (if_pos hi) (if_pos hj)

end Replanned

/-- The plan after planning again. All regions that nothing goes into lie behind the current one of
the serial list. -/
theorem planSerially_touches (w : h.Consistent L) (m : c.Marked h L) (s : c.Sorted h L d)
    (p : c.WorkersPlanned h L d c.workers e fill) :
    ∃ e' fill', e.planSerially = .ok e' ∧ c.SlidePlan h L d e' fill' ∧
      ∀ j ∈ e'.lists, fill' j = [] → j ∈ e'.serial.untouched := by
  have o := p.slidePlan w m s
  have hempty : ∀ j ∈ e.lists, fill j = [] → j ∈ e.again := fun j hj he => by
    obtain ⟨k, hk, hjk⟩ := (p.mem_lists m s).mp hj
    exact (p.again_of_empty s hk hjk he).1
  cases hsorted : e.again.mergeSort (· ≤ ·) with
  | nil =>
    have hnil : e.again = [] := by
      have := (List.mergeSort_perm e.again (· ≤ ·)).length_eq
      rw [hsorted] at this
      exact List.length_eq_zero_iff.mp this.symm
    exact ⟨e, fill, p.serial_of_nil m s hnil, o,
      fun j hj he => absurd (hnil ▸ hempty j hj he) List.not_mem_nil⟩
  | cons first rest =>
    obtain ⟨fill', p', s', he, r⟩ := p.replan_of w m s hsorted
    refine ⟨_, _, he, r.slidePlan w m s p, fun j hj hnone => ?_⟩
    have hj' : j ∈ e.lists := (o.mem j).mpr ((r.sliding s p).mp hj)
    by_cases hjs : j ∈ first :: rest
    · exact r.touched j hjs (by simpa only [hjs, if_true] using hnone)
    · refine absurd ((r.taken j).mpr (hempty j hj' ?_)) hjs
      simpa only [hjs, if_false] using hnone

theorem planSerially_of (w : h.Consistent L) (m : c.Marked h L) (s : c.Sorted h L d)
    (p : c.WorkersPlanned h L d c.workers e fill) :
    ∃ e' fill', e.planSerially = .ok e' ∧ c.SlidePlan h L d e' fill' := by
  obtain ⟨e', fill', he, o, -⟩ := planSerially_touches w m s p
  exact ⟨e', fill', he, o⟩

end Collector

end RegionHeap
