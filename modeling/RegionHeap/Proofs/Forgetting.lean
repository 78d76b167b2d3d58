import RegionHeap.Proofs.Collecting
import RegionHeap.Proofs.Nominating

/-!
What a collection makes a heap forget. The groups are abandoned before anything is marked, the
regions that are not free are swept while the targets are planned, and a region that is freed has
nothing to remember. So no candidate and no reference is left, whatever became of a region.
-/
set_option autoImplicit false

namespace RegionHeap

open Checked

theorem Checked.foldlM_perm {α β : Type} {f : β → α → Checked β}
    (hf : ∀ b x y, (f b x >>= fun c => f c y) = (f b y >>= fun c => f c x)) {xs ys : List α}
    (h : xs.Perm ys) (b : β) : xs.foldlM f b = ys.foldlM f b := by
  induction h generalizing b with
  | nil => rfl
  | cons x _ ih => simp only [List.foldlM_cons, ih]
  | swap x y l =>
    simp only [List.foldlM_cons, ← bind_assoc, hf]
  | trans _ _ ih₁ ih₂ => exact (ih₁ b).trans (ih₂ b)

theorem Table.get_outside {α : Type} {xs : Array α} {i : Nat} (h : ¬i < xs.size) :
    Table.get xs i = .error .outOfBounds := by
  simp [Table.get, Nat.le_of_not_lt h]

theorem RegionTable.put_comm (t : RegionTable) {i j : Nat} (h : i ≠ j) (r s : Region) :
    (t.put i r).put j s = (t.put j s).put i r := by
  simp only [RegionTable.put, Array.setIfInBounds_comm r s h]

/-- A region that remembers nothing any more. -/
def Region.forget (r : Region) : Region := { r with remSet := r.remSet.clear false }

/-- A region whose remembered set is maintained, or not any more. -/
def Region.track (tracking : Tracking) (r : Region) : Region :=
  { r with remSet := { r.remSet with tracking := tracking } }

namespace Collector

variable {c d : Collector} {t t' : RegionTable} {order : List Nat} {i j : Nat}

theorem initialAttr_eq_free {r : Region} : initialAttr r = .free ↔ r.kind.isFree = true := by
  unfold initialAttr
  split_ifs <;> simp_all

/-- Makes a region forget, unless it is free. -/
def sweep (c : Collector) (t : RegionTable) (i : Nat) : Checked RegionTable := do
  if (← c.attrs.get i) == .free then return t
  t.update i fun r => return r.forget

theorem sweep_eq (c : Collector) (t : RegionTable) (i : Nat) :
    c.sweep t i = if i < c.attrs.size then
      if c.attrs.attr i = .free then .ok t
      else if i < t.size then .ok (t.put i (t.region i).forget) else .error .outOfBounds
    else .error .outOfBounds := by
  by_cases ha : i < c.attrs.size
  · rw [sweep, AttrTable.get_of_lt ha, if_pos ha, ok_bind]
    by_cases hfree : c.attrs.attr i = .free
    · simp [hfree]
    · by_cases hi : i < t.size
      · simp [hfree, hi, RegionTable.update_of_lt hi]
      · have hget : t.get i = .error .outOfBounds := Table.get_outside hi
        simp [hfree, hi, RegionTable.update, hget]
  · have hget : c.attrs.get i = .error .outOfBounds := Table.get_outside ha
    rw [if_neg ha, sweep, hget, error_bind]

theorem sweep_comm (c : Collector) (t : RegionTable) (i j : Nat) :
    (c.sweep t i >>= fun t => c.sweep t j) = (c.sweep t j >>= fun t => c.sweep t i) := by
  by_cases hij : i = j
  · rw [hij]
  · have hji : ¬j = i := fun h => hij h.symm
    simp only [sweep_eq]
    split_ifs <;> simp_all [RegionTable.region_put, RegionTable.put_comm t hij]

theorem sweep_eq_ok (h : c.sweep t i = .ok t') : i < c.attrs.size ∧ ∀ j, t'.region j =
    if i = j ∧ c.attrs.attr j ≠ .free then (t.region j).forget else t.region j := by
  rw [sweep_eq] at h
  split_ifs at h with ha hfree hi
  · obtain rfl := Except.ok.inj h
    refine ⟨ha, fun j => (if_neg ?_).symm⟩
    rintro ⟨rfl, hne⟩
    exact hne hfree
  · obtain rfl := Except.ok.inj h
    refine ⟨ha, fun j => ?_⟩
    rw [RegionTable.region_put hi]
    by_cases hij : i = j
    · subst hij
      simp [hfree]
    · simp [hij]

/-- What a worker does at one time while the targets are planned. -/
inductive PlanStep where
  /-- Claims a region for the sweep. -/
  | claim (region : Nat)
  /-- Plans a region of its own. -/
  | plan (worker region : Nat)
  /-- Notes where its last region will end. -/
  | save (worker : Nat)

/-- Takes over where a worker is and what has become of the plan. -/
def withPoint (c : Collector) (worker : Nat) (state : CompactionPoint × Plan) : Collector :=
  { c.setPlan state.2 with points := c.points.set! worker state.1 }

def planStep (c : Collector) : PlanStep → Checked Collector
  | .claim region => return c.setTable (← c.sweep c.heap.table region)
  | .plan worker region => do
    let p ← Table.get c.points worker
    return c.withPoint worker (← planRegion c.liveness (p, c.plan) region)
  | .save worker => do
    let p ← Table.get c.points worker
    return c.setPlan (← p.save c.plan)

theorem foldlM_claim (c : Collector) (order : List Nat) :
    (order.map PlanStep.claim).foldlM planStep c =
      (order.foldlM c.sweep c.heap.table >>= fun t => .ok (c.setTable t)) := by
  induction order generalizing c with
  | nil => rfl
  | cons i order ih =>
    simp only [List.map_cons, List.foldlM_cons, planStep, bind_assoc, pure_eq, ok_bind, ih]
    rfl

/-- The regions may be claimed in any order. -/
theorem foldlM_claim_perm (c : Collector) (h : order.Perm c.heap.table.indices) :
    (order.map PlanStep.claim).foldlM planStep c = c.forgetReferences := by
  rw [foldlM_claim, foldlM_perm c.sweep_comm h]
  rfl

theorem get_withPoint {k : Nat} (hk : k < c.points.size) (state : CompactionPoint × Plan) :
    Table.get (c.withPoint k state).points k = .ok state.1 := by
  simp [withPoint, Table.get, hk]

theorem withPoint_withPoint (c : Collector) (k : Nat) (state state' : CompactionPoint × Plan) :
    (c.withPoint k state).withPoint k state' = c.withPoint k state' := by
  simp [withPoint, setPlan, setTable]

theorem withPoint_self {k : Nat} {p : CompactionPoint} (hp : Table.get c.points k = .ok p) :
    c.withPoint k (p, c.plan) = c := by
  obtain ⟨hk, rfl⟩ := Array.getElem?_eq_some_iff.mp (Table.get_eq_ok.mp hp)
  have hpoints : c.points.set! k c.points[k] = c.points := by
    rw [Array.set!_eq_setIfInBounds, Array.setIfInBounds, dif_pos hk, Array.set_getElem_self]
  rw [withPoint, hpoints]
  rfl

theorem foldlM_plan {k : Nat} (hk : k < c.points.size) (regions : List Nat)
    (state : CompactionPoint × Plan) :
    (regions.map (PlanStep.plan k)).foldlM planStep (c.withPoint k state) =
      (regions.foldlM (planRegion c.liveness) state >>= fun state => .ok (c.withPoint k state)) := by
  induction regions generalizing state with
  | nil => rfl
  | cons i regions ih =>
    simp only [List.map_cons, List.foldlM_cons, planStep, get_withPoint hk, withPoint_withPoint,
      bind_assoc, pure_eq, ok_bind, ih]
    rfl

/-- A worker plans its regions in such steps. -/
theorem planWorker_eq {k : Nat} {p : CompactionPoint} (hp : Table.get c.points k = .ok p) :
    planWorker k c =
      (p.regions.map (PlanStep.plan k) ++ [PlanStep.save k]).foldlM planStep c := by
  have hk : k < c.points.size := (Array.getElem?_eq_some_iff.mp (Table.get_eq_ok.mp hp)).1
  have hrun := foldlM_plan hk p.regions (p, c.plan)
  rw [withPoint_self hp] at hrun
  rw [List.foldlM_append, hrun, planWorker, hp]
  simp only [bind_assoc, pure_eq, ok_bind, List.foldlM_cons, List.foldlM_nil, planStep,
    get_withPoint hk]
  rfl

theorem planStep_reuses (c : Collector) (step : PlanStep) :
    Leaves (fun d => d.attrs = c.attrs ∧ c.heap.table.Reused d.heap.table) (c.planStep step) := by
  have aplan : c.plan.Reuses c.heap.table := .refl _
  cases step with
  | claim i =>
    refine Leaves.bind (P := c.heap.table.Reused) ?_ fun t a => Leaves.ok ⟨rfl, a⟩
    refine Leaves.bind_any fun _ _ => Leaves.ite (Leaves.ok (.refl _))
      ((RegionTable.Reused.refl _).update (fun r => Leaves.ok ?_) i)
    exact ⟨.of_same rfl rfl rfl rfl rfl, rfl, .inl r.remSet.blank_clear⟩
  | plan k i =>
    exact Leaves.bind_any fun p _ =>
      Leaves.bind (aplan.planRegion c.liveness i) fun _ a => Leaves.ok ⟨rfl, a⟩
  | save k => exact Leaves.bind_any fun p _ => Leaves.bind aplan.save fun _ a => Leaves.ok ⟨rfl, a⟩

end Collector

/-- Regions with the attribute of free ones remember nothing. -/
def AttrTable.Forgets (a : AttrTable) (t : RegionTable) : Prop :=
  ∀ i, i < a.size → a.attr i = .free → (t.region i).remSet.Blank

namespace AttrTable

variable {a a' : AttrTable} {t : RegionTable} {attr : RegionAttr} {i : Nat}

theorem set_eq_ok (h : a.set i attr = .ok a') : i < a.size ∧ a' = a.put i attr := by
  by_cases hi : i < a.size
  · rw [set_of_lt hi] at h
    exact ⟨hi, (Except.ok.inj h).symm⟩
  · have hset : Table.set a.attrs i attr = .error .outOfBounds := if_neg hi
    rw [set, hset] at h
    contradiction

theorem Forgets.set (h : a.Forgets t) (hne : attr ≠ .free) :
    Leaves (fun a => a.Forgets t) (a.set i attr) := by
  intro a' ha
  obtain ⟨hi, rfl⟩ := set_eq_ok ha
  intro j hj hfree
  rw [size_put] at hj
  rw [attr_put hi] at hfree
  split at hfree
  · exact absurd hfree hne
  · exact h j hj hfree

end AttrTable

namespace Collector

variable {c : Collector} {attr : RegionAttr} {i : Nat}

/-- Regions that count as free remember nothing. -/
def Forgets (c : Collector) : Prop := c.attrs.Forgets c.heap.table

namespace Forgets

theorem freeRegion (h : c.Forgets) (i : Nat) : Leaves Forgets (c.freeRegion i) := by
  refine Leaves.bind_any fun heap hheap => Leaves.bind_any fun _ _ =>
    Leaves.bind_any fun attrs hattrs => Leaves.ok ?_
  obtain ⟨t, ht, hset⟩ := bind_eq_ok.mp hheap
  obtain rfl := Except.ok.inj hset
  obtain ⟨hi, r, hr, rfl⟩ := RegionTable.update_eq_ok ht
  obtain rfl := Except.ok.inj hr
  obtain ⟨ha, rfl⟩ := AttrTable.set_eq_ok hattrs
  intro j hj hfree
  rw [AttrTable.size_put] at hj
  rw [AttrTable.attr_put ha] at hfree
  change ((c.heap.table.put i (c.heap.table.region i).clear).region j).remSet.Blank
  rw [RegionTable.region_put hi]
  split
  · exact RemSet.blank_clear _
  · next hne =>
    rw [if_neg hne] at hfree
    exact h j hj hfree

theorem setAttrs (h : c.Forgets) (first count : Nat) (hne : attr ≠ .free) :
    Leaves Forgets (c.setAttrs first count attr) :=
  Leaves.bind (Leaves.foldlM (fun _ _ h => AttrTable.Forgets.set h hne) _ h) fun _ h => Leaves.ok h

theorem sortHumongous (h : c.Forgets) (region : Region) :
    Leaves Forgets (c.sortHumongous region) := by
  refine Leaves.bind_any fun _ _ => Leaves.ite ?_
    (Leaves.foldlM (fun d i h => freeRegion h i) _ h)
  refine Leaves.bind (h.setAttrs _ _ (by simp)) fun d h => Leaves.ok ?_
  split <;> exact h

theorem sortRegion (h : c.Forgets) (next i : Nat) :
    Leaves (fun x => x.1.Forgets) (c.sortRegion next i) := by
  refine Leaves.bind_any fun region _ => Leaves.bind_any fun attr _ => ?_
  cases attr
  case free | skipMarking => exact Leaves.ok h
  all_goals
    refine Leaves.ite (Leaves.ok h) (Leaves.ite ?_ (Leaves.bind_any fun live _ => Leaves.ite ?_
      (Leaves.ite ?_ (Leaves.ite ?_ ?_))))
    · exact Leaves.bind (h.sortHumongous region) fun _ h => Leaves.ok h
    · exact Leaves.ite (Leaves.bind (h.freeRegion i) fun _ h => Leaves.ok h)
        (Leaves.bind (Leaves.ok h) fun _ h => Leaves.ok h)
    · exact Leaves.bind (h.freeRegion i) fun _ h => Leaves.ok h
    · exact Leaves.bind (Leaves.bind_any fun _ _ => Leaves.bind_any fun _ _ =>
        AttrTable.Forgets.set h (by simp)) fun _ h => Leaves.ok h
    · exact Leaves.bind_any fun _ _ => Leaves.ok h

theorem sortRegions (h : c.Forgets) : Leaves Forgets c.sortRegions :=
  Leaves.bind (P := fun x => x.1.Forgets)
    (Leaves.foldlM (fun (x : Collector × Nat) i h => sortRegion h x.2 i) _ h)
    fun _ h => Leaves.ok h

/-- A region that is claimed remembers nothing then, and none that remembers nothing learns
anything. -/
theorem planStep {d : Collector} {step : PlanStep} (h : c.Forgets) (hindex : c.heap.table.Indexed)
    (hd : c.planStep step = .ok d) : d.Forgets ∧ d.heap.table.Indexed ∧
      (∀ i, (c.heap.region i).remSet.Blank → (d.heap.region i).remSet.Blank) ∧
      ∀ i, step = .claim i → (d.heap.region i).remSet.Blank := by
  obtain ⟨hattrs, a⟩ := planStep_reuses c step d hd
  have hblank : ∀ i, (c.heap.region i).remSet.Blank → (d.heap.region i).remSet.Blank :=
    fun i hi => (a.region hindex i).blank hi
  refine ⟨fun i hi hfree => ?_, fun i hi => ?_, hblank, ?_⟩
  · rw [hattrs] at hi hfree
    exact hblank i (h i hi hfree)
  · exact (a.region hindex i).index.trans (hindex i (a.size ▸ hi))
  · rintro i rfl
    obtain ⟨t, ht, hd⟩ := bind_eq_ok.mp hd
    obtain rfl := Except.ok.inj hd
    obtain ⟨hi, hregion⟩ := sweep_eq_ok ht
    by_cases hfree : c.attrs.attr i = .free
    · exact hblank i (h i hi hfree)
    · change (t.region i).remSet.Blank
      rw [hregion, if_pos ⟨rfl, hfree⟩]
      exact RemSet.blank_clear _

/-- However the workers take turns, a region that was claimed remembers nothing in the end. -/
theorem planSteps {d : Collector} {steps : List PlanStep} (h : c.Forgets)
    (hindex : c.heap.table.Indexed) (hd : steps.foldlM Collector.planStep c = .ok d) :
    (∀ i, (c.heap.region i).remSet.Blank → (d.heap.region i).remSet.Blank) ∧
      ∀ i, .claim i ∈ steps → (d.heap.region i).remSet.Blank := by
  induction steps generalizing c with
  | nil =>
    obtain rfl := Except.ok.inj hd
    simp
  | cons step steps ih =>
    rw [List.foldlM_cons] at hd
    obtain ⟨e, hfirst, hrest⟩ := bind_eq_ok.mp hd
    obtain ⟨h', hindex', hkeep, hclaim⟩ := h.planStep hindex hfirst
    obtain ⟨hkeep', hclaim'⟩ := ih h' hindex' hrest
    refine ⟨fun i hi => hkeep' i (hkeep i hi), fun i hi => ?_⟩
    obtain heq | hi := List.mem_cons.mp hi
    · exact hkeep' i (hclaim i heq.symm)
    · exact hclaim' i hi

end Forgets

end Collector

/-- No free region remembers anything. -/
def RegionTable.Forgets (t : RegionTable) : Prop :=
  ∀ i, i < t.size → (t.region i).kind.isFree = true → (t.region i).remSet.Blank

namespace RegionTable.Forgets

variable {t t' : RegionTable} {i : Nat}

theorem rearranged (h : t.Forgets) (a : t.Rearranged t') : t'.Forgets := by
  intro i hi hk
  obtain ⟨own, group, hr, hown⟩ := a.region i
  rw [hr] at hk ⊢
  have hblank := h i (a.size ▸ hi) hk
  rcases hown with ⟨rfl, rfl⟩ | ⟨hcontainers, hoccupied⟩
  · exact ⟨hblank.containers, hblank.occupied, hblank.tracking⟩
  · exact ⟨hcontainers, hoccupied, hblank.tracking⟩

theorem reused (h : t.Forgets) (hindex : t.Indexed) (a : t.Reused t') : t'.Forgets := by
  intro i hi hk
  obtain hblank | ⟨hkept, hfree⟩ := (a.region hindex i).remembers
  · exact hblank
  · exact hkept ▸ h i (a.size ▸ hi) (hfree hk)

theorem put {r : Region} (h : t.Forgets) (hi : i < t.size) (hr : r.kind.isFree = false) :
    (t.put i r).Forgets := by
  intro j hj hk
  rw [size_put] at hj
  rw [region_put hi] at hk ⊢
  split at hk
  · rw [hr] at hk
    contradiction
  · next hne =>
    rw [if_neg hne]
    exact h j hj hk

theorem addReference {slot : Nat} {x : Bool × RegionTable} (h : t.Forgets)
    (hused : (t.region i).kind.isFree = false) (hx : t.addReference i slot = .ok x) :
    x.2.Forgets := by
  intro j hj hk
  obtain ⟨own, hr, hown⟩ := addReference_region hx j
  rw [hr] at hk ⊢
  have hne : i ≠ j := by
    rintro rfl
    exact absurd hk (by simp [hused])
  have hblank := h j ((addReference_group hx).1 ▸ hj) hk
  obtain rfl := hown hne
  exact hblank

end RegionTable.Forgets

namespace Heap

variable {h h' : Heap} {e : Event} {explicitRequest clearSoft maximal : Bool} {i : Nat}

/-- A heap that was made and has been used since, also without regard to its objects: references
are recorded in any region, and remembered sets are tracked or not. -/
inductive Evolved : Heap → Prop where
  | create {system : Mapping.System} {rounds : Rounds} {o : Options} {bytes : Nat} {p : Policy}
    {h : Heap} (hc : create system rounds o bytes p = .ok h) : Evolved h
  | happen {h h' : Heap} {e : Event} (a : Evolved h) (hh : h.happen e = .ok h') : Evolved h'
  | addReference {h : Heap} {i slot : Nat} {x : Bool × RegionTable} (a : Evolved h)
    (hx : h.table.addReference i slot = .ok x) : Evolved { h with table := x.2 }
  | track {h : Heap} {i : Nat} {t : RegionTable} (tracking : Tracking) (a : Evolved h)
    (ht : h.table.update i (fun r => return r.track tracking) = .ok t) :
    Evolved { h with table := t }
  | rate {h : Heap} {i : Nat} {t : RegionTable} (bytes : Nat) (a : Evolved h)
    (ht : h.table.update i (fun r => return { r with marked := bytes }) = .ok t) :
    Evolved { h with table := t }
  | allocate {h : Heap} {i words : Nat} {x : Option Nat × RegionTable} (a : Evolved h)
    (hx : h.table.allocate i words = .ok x) : Evolved { h with table := x.2 }
  | write {h : Heap} (m : Memory) (a : Evolved h) : Evolved (h.setMemory m)
  | mark {h : Heap} (l : LivenessMap) (a : Evolved h) : Evolved { h with liveness := l }

theorem happen_cases (hrun : h.happen e = .ok h') :
    h.Reused h' ∨
    (∃ i slot x, (h.region i).kind.isFree = false ∧ h.table.addReference i slot = .ok x ∧
      h' = { h with table := x.2 }) ∨
    ∃ op s, h.toSelection.Performs op [] s ∧ (h.setSelection s).Reused h' := by
  cases e with
  | operate op => exact .inl (Reused.perform (.refl h) op h' hrun)
  | allocateHumongous words =>
    obtain ⟨x, hx, hh⟩ := bind_eq_ok.mp hrun
    exact .inl (Except.ok.inj hh ▸ Reused.allocateHumongous (.refl h) words x hx)
  | record i slot =>
    obtain ⟨x, hused, hx, rfl⟩ := record_eq_ok hrun
    exact .inr (.inl ⟨i, slot, x, hused, hx, rfl⟩)
  | fromMarking cs =>
    obtain ⟨s, hs, hh⟩ := bind_eq_ok.mp hrun
    exact .inr (.inr ⟨_, s, .fromMarking hs, Except.ok.inj hh ▸ .refl _⟩)
  | retain i =>
    obtain ⟨s, hs, hh⟩ := bind_eq_ok.mp hrun
    exact .inr (.inr ⟨_, s, .retain hs, Except.ok.inj hh ▸ .refl _⟩)
  | sortMarking =>
    obtain ⟨s, hs, hh⟩ := bind_eq_ok.mp hrun
    exact .inr (.inr ⟨_, s, .sortMarking hs, Except.ok.inj hh ▸ .refl _⟩)
  | sortRetained =>
    obtain ⟨s, hs, hh⟩ := bind_eq_ok.mp hrun
    exact .inr (.inr ⟨_, s, .sortRetained hs, Except.ok.inj hh ▸ .refl _⟩)
  | rounds r => exact .inl (Except.ok.inj hrun ▸ ⟨.withRounds (.refl _) r, rfl, rfl⟩)
  | collect explicitRequest clearSoft maximal =>
    obtain ⟨s, hs, a⟩ := fullCollect_eq_ok hrun
    exact .inr (.inr ⟨_, s, .clear hs, a⟩)

namespace Grouped

theorem update {f : Region → Region} {t : RegionTable} (g : h.Grouped)
    (hf : ∀ r, (f r).index = r.index ∧ (f r).remSet.group = r.remSet.group)
    (ht : h.table.update i (fun r => return f r) = .ok t) :
    Heap.Grouped { h with table := t } := by
  obtain ⟨hi, r, hr, rfl⟩ := RegionTable.update_eq_ok ht
  obtain rfl := Except.ok.inj hr
  refine g.frame rfl (RegionTable.size_put ..) rfl fun j => ?_
  change ((h.table.put i (f (h.table.region i))).region j).index = _ ∧
    ((h.table.put i (f (h.table.region i))).region j).remSet.group = _
  rw [RegionTable.region_put hi]
  split
  · next e => exact e ▸ hf _
  · exact ⟨rfl, rfl⟩

theorem happen (g : h.Grouped) (hrun : h.happen e = .ok h') : h'.Grouped := by
  obtain a | ⟨i, slot, x, -, hx, rfl⟩ | ⟨op, s, hs, a⟩ := happen_cases hrun
  · exact g.reused a
  · exact g.addReference hx
  · exact (g.selected hs).reused a

end Grouped

theorem Evolved.grouped (a : h.Evolved) : h.Grouped := by
  induction a with
  | create hc => exact (tracked_create hc).inGroups
  | happen _ hh g => exact g.happen hh
  | addReference _ hx g => exact g.addReference hx
  | track tracking _ ht g => exact g.update (f := Region.track tracking) (fun _ => ⟨rfl, rfl⟩) ht
  | rate bytes _ ht g =>
    exact g.update (f := fun r => { r with marked := bytes }) (fun _ => ⟨rfl, rfl⟩) ht
  | allocate _ hx g => exact g.reused ⟨RegionTable.Reused.allocate (.refl _) _ _ _ hx, rfl, rfl⟩
  | write m _ g => exact g.reused ((Reused.refl _).setMemory m)
  | mark l _ g => exact g.reused ⟨.refl _, rfl, rfl⟩

/-- As long as references are recorded in regions in use, free regions remember nothing. -/
theorem Evolved.happen_forgets (a : h.Evolved) (hfree : h.table.Forgets)
    (hrun : h.happen e = .ok h') : h'.table.Forgets := by
  have g := a.grouped
  obtain a | ⟨i, slot, x, hused, hx, rfl⟩ | ⟨op, s, hs, a⟩ := happen_cases hrun
  · exact hfree.reused g.indexed a.table
  · exact hfree.addReference hused hx
  · exact (hfree.rearranged (hs.attached g.attached).1).reused (g.selected hs).indexed a.table

theorem Evolved.live_forgets {events : List Event} (a : h.Evolved) (hfree : h.table.Forgets)
    (hrun : h.live events = .ok h') : h'.Evolved ∧ h'.table.Forgets := by
  induction events generalizing h with
  | nil => exact Except.ok.inj hrun ▸ ⟨a, hfree⟩
  | cons e events ih =>
    rw [Heap.live, List.foldlM_cons] at hrun
    obtain ⟨h₁, hfirst, hrest⟩ := bind_eq_ok.mp hrun
    exact ih (a.happen hfirst) (a.happen_forgets hfree hfirst) hrest

theorem forgets_create {system : Mapping.System} {rounds : Rounds} {o : Options} {bytes : Nat}
    {p : Policy} (hc : create system rounds o bytes p = .ok h) : h.table.Forgets := by
  obtain ⟨start, count, config, ht, -⟩ := create_table hc
  obtain ⟨hsize, -, -, hregions⟩ := RegionTable.create_eq_ok ht
  intro i hi _
  rw [(hregions i (hsize ▸ hi)).2.2]
  exact ⟨rfl, rfl, rfl⟩

/-- A collection up to the point at which the fate of every region is known. -/
def settled (h : Heap) (explicitRequest clearSoft maximal : Bool) : Checked Collector := do
  let h ← { h with collections := h.collections + 1 }.abandonCandidates
  let h := h.activateWorkers
  let c ← (Collector.create h h.gang.active explicitRequest clearSoft maximal).prepare.markLive
  c.sortRegions

theorem settled_eq_ok {d : Collector} (hd : h.settled explicitRequest clearSoft maximal = .ok d) :
    ∃ s, h.toSelection.clear = .ok s ∧ (h.setSelection s).Reused d.heap ∧ ∃ c : Collector,
      c.attrs = ⟨s.table.regions.map Collector.initialAttr⟩ ∧
      (h.setSelection s).Reused c.heap ∧ c.sortRegions = .ok d := by
  obtain ⟨h₁, habandon, hrun⟩ := bind_eq_ok.mp hd
  obtain ⟨s, hs, hset⟩ := bind_eq_ok.mp habandon
  obtain rfl := Except.ok.inj hset
  obtain ⟨_, hmark, hsort⟩ := bind_eq_ok.mp hrun
  obtain ⟨c, roots, ⟨hattrs, a⟩, rfl⟩ := Collector.markLive_leaves
    (P := fun c => c.attrs = ⟨s.table.regions.map Collector.initialAttr⟩ ∧
      c.Reuses (h.setSelection s) h.roots)
    (fun c l live p => ⟨p.1, Collector.Reuses.unmarked c l live p.2⟩)
    ⟨rfl, ⟨.refl _, rfl, rfl⟩, rfl⟩ _ hmark
  have aroots : Collector.Reuses (h.setSelection s) roots
      { c with heap := { c.heap with roots := roots } } :=
    ⟨⟨a.1.table, a.1.candidates, a.1.options⟩, rfl⟩
  exact ⟨s, hs, (aroots.sortRegions d hsort).1,
    { c with heap := { c.heap with roots := roots } }, hattrs, aroots.1, hsort⟩

theorem fullCollect_sweeps (hc : h.fullCollect explicitRequest clearSoft maximal = .ok h') :
    ∃ d e, h.settled explicitRequest clearSoft maximal = .ok d ∧ d.forgetReferences = .ok e ∧
      d.heap.Reused e.heap ∧ e.heap.Reused h' := by
  obtain ⟨h₁, habandon, hrun⟩ := bind_eq_ok.mp hc
  obtain ⟨x, hcollect, hrest⟩ := bind_eq_ok.mp hrun
  obtain ⟨y, hcomplete, hy⟩ := bind_eq_ok.mp hrest
  obtain rfl := Except.ok.inj hy
  obtain ⟨c, hmark, hphases⟩ := bind_eq_ok.mp hcollect
  obtain ⟨f, hplan, hphases⟩ := bind_eq_ok.mp hphases
  obtain ⟨g, hadjust, hcompact⟩ := bind_eq_ok.mp hphases
  obtain ⟨d, hsort, hsorted⟩ := bind_eq_ok.mp hplan
  obtain ⟨_, -, hworkers⟩ := bind_eq_ok.mp hsorted
  obtain ⟨e, hforget, htargets⟩ := bind_eq_ok.mp hworkers
  have asort : d.Reuses d.heap d.heap.roots := ⟨.refl _, rfl⟩
  have aforget : e.Reuses e.heap e.heap.roots := ⟨.refl _, rfl⟩
  obtain ⟨_, aend⟩ := (aforget.planTargets f htargets).afterPlanning y
    (bind_eq_ok.mpr ⟨g, hadjust, bind_eq_ok.mpr ⟨x, hcompact, hcomplete⟩⟩)
  exact ⟨d, e, bind_eq_ok.mpr ⟨h₁, habandon, bind_eq_ok.mpr ⟨c, hmark, hsort⟩⟩, hforget,
    (asort.forgetReferences e hforget).1, aend.1⟩

theorem Evolved.settled_forgets {d : Collector} (a : h.Evolved) (hfree : h.table.Forgets)
    (hd : h.settled explicitRequest clearSoft maximal = .ok d) :
    d.Forgets ∧ d.heap.Grouped ∧ ∃ origins : Array Origin,
      d.heap.candidates = ⟨origins.map fun _ => .invalid, {}, {}, 0⟩ := by
  obtain ⟨s, hs, asort, c, hattrs, amark, hsort⟩ := settled_eq_ok hd
  have g := a.grouped.selected (.clear hs)
  have hcleared := hfree.rearranged (Selection.attached_clear a.grouped.attached hs).1
  obtain ⟨t, rfl, -⟩ := Selection.clear_eq_ok hs
  have hforgets : c.Forgets := by
    intro i hi hattr
    rw [hattrs, AttrTable.size, Array.size_map] at hi
    rw [hattrs, AttrTable.attr, Table.entry_map _ hi] at hattr
    exact (amark.table.region g.indexed i).blank
      (hcleared i hi (Collector.initialAttr_eq_free.mp hattr))
  exact ⟨hforgets.sortRegions d hsort, g.reused asort, _, asort.candidates⟩

/-- Nothing is a candidate, and no region remembers a reference or is to remember one. -/
structure Forgetful (h : Heap) : Prop where
  empty : h.candidates.isEmpty = true
  marking : h.candidates.marking = {}
  retained : h.candidates.retained = {}
  lastMarking : h.candidates.lastMarking = 0
  contains : ∀ i, i < h.regionCount → h.candidates.contains i = .ok false
  group : ∀ i, i < h.regionCount → (h.region i).remSet.group = none
  blank : ∀ i, i < h.regionCount → (h.region i).remSet.Blank
  occupied : ∀ i, i < h.regionCount → (h.region i).remSet.occupied h.table.shared = .ok 0
  references : ∀ i, i < h.regionCount → ∀ slot,
    (h.region i).remSet.contains h.table.shared slot = .ok false

theorem Grouped.forgetful {origins : Array Origin} (g : h.Grouped)
    (hc : h.candidates = ⟨origins.map fun _ => .invalid, {}, {}, 0⟩)
    (hblank : ∀ i, i < h.regionCount → (h.region i).remSet.Blank) : h.Forgetful := by
  have hgroup : ∀ i, i < h.regionCount → (h.region i).remSet.group = none := by
    intro i hi
    have hlisted := (RegionTable.Attached.grouped g.attached hi).not
    exact not_not.mp (hlisted.mpr (by simp [hc]))
  refine ⟨by rw [hc]; rfl, by rw [hc], by rw [hc], by rw [hc], fun i hi => ?_, hgroup, hblank,
    fun i hi => ?_, fun i hi slot => ?_⟩
  · have hsize : i < h.candidates.origins.size := g.room ▸ hi
    rw [hc, Array.size_map] at hsize
    have hget : Table.get (origins.map fun _ => Origin.invalid) i = .ok .invalid := by
      rw [Table.get_of_lt (by rwa [Array.size_map]), Table.entry_map _ hsize]
    rw [hc, Registry.contains, Fault.unless, if_pos (by simpa using hsize), ok_bind,
      Registry.origin, hget]
    rfl
  · simp [RemSet.occupied, RemSet.active, hgroup i hi, (hblank i hi).occupied]
  · simp [RemSet.contains, RemSet.active, hgroup i hi, CardSet.contains, (hblank i hi).containers]

/-- Whatever was recorded and nominated, after a collection nothing is a candidate and nothing is
remembered. It does not matter in which order the workers claim the regions, or what they have
planned meanwhile. If there is nothing wrong with the heap the collection passes. -/
theorem Evolved.fullCollect_forgets (a : h.Evolved) (hfree : h.table.Forgets)
    (explicitRequest clearSoft maximal : Bool) :
    (∀ h', h.fullCollect explicitRequest clearSoft maximal = .ok h' → h'.Forgetful) ∧
    (∀ L, h.Clean L → ∃ h', h.fullCollect explicitRequest clearSoft maximal = .ok h') ∧
    ∀ c, h.settled explicitRequest clearSoft maximal = .ok c →
      (∀ order : List Nat, order.Perm c.heap.table.indices →
        (order.map Collector.PlanStep.claim).foldlM Collector.planStep c = c.forgetReferences) ∧
      ∀ (steps : List Collector.PlanStep) (d : Collector), (∀ i < c.heap.regionCount,
        .claim i ∈ steps) → steps.foldlM Collector.planStep c = .ok d →
        ∀ i < c.heap.regionCount, (d.heap.region i).remSet.Blank := by
  refine ⟨fun h' hc => ?_, fun L w => ?_, fun c hc => ⟨fun order => c.foldlM_claim_perm, ?_⟩⟩
  · obtain ⟨c, d, hsettled, hforget, aforget, aend⟩ := fullCollect_sweeps hc
    obtain ⟨hforgets, g, origins, hcandidates⟩ := a.settled_forgets hfree hsettled
    have gforget := g.reused aforget
    refine (gforget.reused aend).forgetful
      (aend.candidates.trans (aforget.candidates.trans hcandidates)) fun i hi => ?_
    have hsize : h'.regionCount = c.heap.table.size := aend.table.size.trans aforget.table.size
    rw [← c.foldlM_claim_perm (.refl _)] at hforget
    have hclaimed : .claim i ∈ c.heap.table.indices.map Collector.PlanStep.claim :=
      List.mem_map_of_mem (List.mem_range.mpr (hsize ▸ hi))
    exact (aend.table.region gforget.indexed i).blank
      ((hforgets.planSteps g.indexed hforget).2 i hclaimed)
  · obtain ⟨_, _, _, _, _, _, h', hc, -⟩ := fullCollect_of w explicitRequest clearSoft maximal
    exact ⟨h', hc⟩
  · intro steps d hclaimed hd i hi
    obtain ⟨hforgets, g, -⟩ := a.settled_forgets hfree hc
    exact (hforgets.planSteps g.indexed hd).2 i (hclaimed i hi)

/-- Two old regions that are referred to, one of them a candidate from a marking, and a closed
archive that is retained. -/
def rememberedEvents : List Event :=
  [.operate (.allocateRegion .old), .operate (.allocateRegion .old),
    .operate (.allocateRegion .closedArchive), .operate (.newObject 0 10 1),
    .operate (.setRoots { strong := [0x7ffff7a20000] }), .record 0 0x7ffff7a30000,
    .rounds { sampleRounds with current := 7 }, .record 1 0x7ffff7a20000,
    .fromMarking [{ region := 0, efficiency := 0 }], .retain 2]

/-- Two candidates with cards and a region that is tracked are forgotten by one collection. -/
theorem sample_forgets : ∃ h₀ h t h',
    create sampleSystem sampleRounds { threads := 2, regionSize := 65536 } 262144 {} = .ok h₀ ∧
    h₀.live rememberedEvents = .ok h ∧
    h.table.update 1 (fun r => return r.track .complete) = .ok t ∧
    Evolved { h with table := t } ∧ t.Forgets ∧ h.candidates.contains 0 = .ok true ∧
    (t.region 0).remSet.occupied t.shared = .ok 1 ∧ (t.region 1).remSet.tracking = .complete ∧
    Heap.fullCollect { h with table := t } true false true = .ok h' ∧ h'.Forgetful := by
  have hlook : (do
      let h₀ ← create sampleSystem sampleRounds { threads := 2, regionSize := 65536 } 262144 {}
      let h ← h₀.live rememberedEvents
      let t ← h.table.update 1 fun r => return r.track .complete
      let listed ← h.candidates.contains 0
      let cards ← (t.region 0).remSet.occupied t.shared
      let h' ← Heap.fullCollect { h with table := t } true false true
      return (listed, cards, (t.region 1).remSet.tracking, (h.region 1).kind,
        h'.collections)).toOption = some (true, 1, .complete, .old, 1) := by
    decide +kernel
  simp only [Checked.toOption_eq_some, Checked.bind_eq_ok, Checked.pure_eq, Except.ok.injEq,
    Prod.mk.injEq] at hlook
  obtain ⟨h₀, hc, h, hrun, t, ht, listed, hlisted, cards, hcards, h', hcollect, rfl, rfl, htracking,
    hkind, -⟩ := hlook
  obtain ⟨a, hfree⟩ := (Evolved.create hc).live_forgets (forgets_create hc) hrun
  have atrack := a.track .complete ht
  have hfree' : t.Forgets := by
    obtain ⟨hi, r, hr, rfl⟩ := RegionTable.update_eq_ok ht
    obtain rfl := Except.ok.inj hr
    exact hfree.put hi (congrArg RegionKind.isFree hkind)
  exact ⟨h₀, h, t, h', hc, hrun, ht, atrack, hfree', hlisted, hcards, htracking, hcollect,
    (atrack.fullCollect_forgets hfree' true false true).1 h' hcollect⟩

end Heap

end RegionHeap
