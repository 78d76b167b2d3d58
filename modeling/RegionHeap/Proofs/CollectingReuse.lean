import RegionHeap.Collection.Full
import RegionHeap.Proofs.Reuse

/-!
What a collection does to roots and regions, whatever is marked and moved. It clears references to
objects that are not marked, redirects the others, and uses regions anew like any other operation.
It lets the candidates go before it starts and does not look at them again.
-/
set_option autoImplicit false

namespace RegionHeap

open Checked

variable {t : RegionTable} {h : Heap} {roots : Roots}

theorem LivenessMap.walk_leaves {σ : Type} {map : σ → LivenessMap}
    {visit : σ → Nat → Checked (Nat × σ)} {P : σ → Prop} {region limit : Nat} {s : σ}
    (hvisit : ∀ s a, P s → Leaves (fun x => P x.2) (visit s a)) (h : P s) :
    Leaves P (walk map visit region limit s) := by
  have hfrom : ∀ n cursor s, P s → Leaves P (walkFrom map visit limit n cursor s) := by
    intro n
    induction n with
    | zero => exact fun cursor s h => Leaves.ok h
    | succ n ih =>
      intro cursor s h
      refine Leaves.bind_any fun found _ => Leaves.ite (Leaves.ok h) ?_
      refine Leaves.bind (hvisit s found h) fun x hx => ?_
      exact Leaves.bind_any fun _ _ => Leaves.bind_any fun cursor _ => ih cursor x.2 hx
  exact Leaves.bind_any fun _ _ => Leaves.ite (Leaves.ok h) (hfrom _ _ s h)

/-- The plan reuses the regions of a table. -/
def Plan.Reuses (t : RegionTable) (s : Plan) : Prop := t.Reused s.table

namespace Plan.Reuses

variable {s : Plan} {p : CompactionPoint}

theorem save (a : s.Reuses t) : Leaves (Reuses t) (p.save s) := by
  refine Leaves.bind_any fun region _ => ?_
  split
  · exact Leaves.bind_any fun _ _ => Leaves.ok a
  · exact Leaves.ok a

theorem advance (a : s.Reuses t) : Leaves (fun x => Reuses t x.2) (p.advance s) := by
  refine Leaves.bind a.save fun s a => ?_
  dsimp only
  split
  · exact Leaves.bind_any fun _ _ => Leaves.error _
  · exact Leaves.bind_any fun _ _ => Leaves.bind_any fun _ _ => Leaves.bind_any fun _ _ =>
      Leaves.ok a

theorem makeRoom (a : s.Reuses t) (words n : Nat) :
    Leaves (fun x => Reuses t x.2) (p.makeRoom words n s) := by
  induction n generalizing p s with
  | zero => exact Leaves.ok a
  | succ n ih =>
    exact Leaves.bind_any fun _ _ => Leaves.ite (Leaves.ok a)
      (Leaves.bind a.advance fun _ a => ih a)

/-- The region that learns of the object is the one that was read. -/
theorem forward (a : s.Reuses t) (object words : Nat) :
    Leaves (fun x => Reuses t x.2) (p.forward s object words) := by
  refine Leaves.bind_any fun _ _ => Leaves.bind (a.makeRoom words _) fun x a => ?_
  refine Leaves.bind_any fun _ _ => Leaves.bind_any fun top _ => Leaves.bind_any fun r hr => ?_
  refine Leaves.bind_any fun _ _ => Leaves.bind_any fun r' hr' => ?_
  obtain ⟨j, -, hj⟩ := bind_eq_ok.mp hr
  obtain ⟨hlt, rfl⟩ := RegionTable.get_eq_ok hj
  refine Leaves.bind ((a.withMemory _).set fun hi => ?_) fun _ a => Leaves.ok a
  -- the region is written back where its index says, which is where it was read
  have hindex : (x.2.table.region j).index = j := by
    rw [(a.region hi j).index]
    exact hi j (a.size ▸ hlt)
  rw [hindex]
  exact (Region.Reused.refl _).recordBlock _ _ r' hr'

theorem emptyTarget (a : s.Reuses t) (i : Nat) :
    Leaves (Reuses t) (Collector.emptyTarget s i) := by
  refine Leaves.bind_any fun _ _ => Leaves.bind (P := Reuses t)
    (Leaves.bind_any fun _ _ => Leaves.ok a) fun s a => ?_
  refine Leaves.bind (a.update (fun r => Leaves.ok ?_) i) fun _ a => Leaves.ok a
  exact .resetBlocks r

theorem forwardRegion (a : s.Reuses t) (liveness : LivenessMap)
    (which : Memory → Nat → Checked Bool) (i : Nat) :
    Leaves (fun x => Reuses t x.2) (Collector.forwardRegion liveness which p s i) := by
  refine Leaves.bind_any fun _ _ => LivenessMap.walk_leaves (P := fun x => Reuses t x.2)
    (fun (x : CompactionPoint × Plan) o a => ?_) a
  refine Leaves.bind_any fun _ _ => Leaves.ite ?_ (Leaves.ok a)
  exact Leaves.bind (forward a o _) fun _ a => Leaves.ok a

theorem planRegion (a : s.Reuses t) (liveness : LivenessMap) (i : Nat) :
    Leaves (fun x => Reuses t x.2) (Collector.planRegion liveness (p, s) i) := by
  refine Leaves.bind (a.emptyTarget i) fun s a => ?_
  dsimp only
  rw [ite_bind]
  exact Leaves.bind_any fun p _ => a.forwardRegion _ _ _

end Plan.Reuses

/-- The collector works on a heap that was reused only, and these are its roots. -/
def Collector.Reuses (h : Heap) (roots : Roots) (c : Collector) : Prop :=
  h.Reused c.heap ∧ c.heap.roots = roots

/-- Something about a collector that is not about marks or the words that were found live. -/
def Collector.Unmarked (P : Collector → Prop) : Prop :=
  ∀ c l live, P c → P { c.setLiveness l with live := live }

namespace Marker

variable {P : Collector → Prop} {k : Marker}

theorem share_leaves (a : P k.collector) : Leaves (fun k => P k.collector) k.share :=
  Leaves.ite (Leaves.ok a) (Leaves.bind_any fun _ _ => Leaves.ok a)

theorem mark_leaves (hP : Collector.Unmarked P) (a : P k.collector) (object : Nat) :
    Leaves (fun k => P k.collector) (k.mark object) := by
  refine Leaves.bind_any fun _ _ => Leaves.bind_any fun _ _ => Leaves.bind_any fun attr _ => ?_
  refine Leaves.ite (Leaves.bind_any fun _ _ => Leaves.ok a) (Leaves.bind_any fun x _ => ?_)
  refine Leaves.ite (Leaves.ok (hP _ x.2 _ a)) ?_
  refine Leaves.bind_any fun _ _ => Leaves.bind_any fun live _ => ?_
  exact share_leaves (hP _ x.2 live a)

theorem markAll_leaves (hP : Collector.Unmarked P) (a : P k.collector) (references : List Nat) :
    Leaves (fun k => P k.collector) (k.markAll references) :=
  Leaves.foldlM (fun _ object a => Leaves.ite (Leaves.ok a) (mark_leaves hP a object)) _ a

theorem drainIn_leaves (hP : Collector.Unmarked P) (n : Nat) (a : P k.collector) :
    Leaves (fun k => P k.collector) (k.drainIn n) := by
  induction n generalizing k with
  | zero => exact Leaves.ok a
  | succ n ih =>
    unfold Marker.drainIn
    split
    · next object rest _ =>
      rw [scan_eq_markAll]
      exact Leaves.bind (markAll_leaves (k := { k with stack := rest }) hP a _) fun _ a => ih a
    · split
      · exact ih a
      · exact Leaves.ok a

end Marker

theorem Collector.markLive_leaves {P : Collector → Prop} (hP : Unmarked P) {c : Collector}
    (a : P c) : Leaves (fun d => ∃ e roots, P e ∧
      d = { e with heap := { e.heap with roots := roots } }) c.markLive := by
  refine Leaves.bind_any fun shared _ => ?_
  refine Leaves.bind (Marker.markAll_leaves (k := { collector := c, shared := shared }) hP a _)
    fun k a => Leaves.bind (Marker.drainIn_leaves hP _ a) fun k a => ?_
  refine Leaves.bind_any fun _ _ => ?_
  dsimp only [Collector.processReferences]
  rw [ite_bind]
  exact Leaves.bind_any fun _ _ => Leaves.bind_any fun _ _ => Leaves.ok ⟨_, _, a, rfl⟩

namespace Collector.Reuses

variable {c : Collector}

theorem updateRegion {z : Heap} (a : h.Reused z ∧ z.roots = roots) {f : Region → Checked Region}
    (hf : ∀ r, Leaves r.Reused (f r)) (i : Nat) :
    Leaves (fun z => h.Reused z ∧ z.roots = roots) (z.updateRegion i f) :=
  Leaves.bind (a.1.table.update hf i) fun _ at' =>
    Leaves.ok ⟨⟨at', a.1.candidates, a.1.options⟩, a.2⟩

theorem unmarked : Unmarked (Reuses h roots) := fun _ _ _ a =>
  ⟨⟨a.1.table, a.1.candidates, a.1.options⟩, a.2⟩

theorem markLive (a : c.Reuses h roots) :
    Leaves (fun d => ∃ roots, Reuses h roots d) c.markLive := by
  intro d hd
  obtain ⟨e, roots', a, rfl⟩ := markLive_leaves unmarked a d hd
  exact ⟨roots', ⟨a.1.table, a.1.candidates, a.1.options⟩, rfl⟩

theorem freeRegion (a : c.Reuses h roots) (i : Nat) :
    Leaves (Reuses h roots) (c.freeRegion i) := by
  refine Leaves.bind (updateRegion a (fun r => Leaves.ok (.clear (.refl r))) i) fun _ a => ?_
  exact Leaves.bind_any fun _ _ => Leaves.bind_any fun _ _ =>
    Leaves.ok ⟨⟨a.1.table, a.1.candidates, a.1.options⟩, a.2⟩

theorem setAttrs (a : c.Reuses h roots) (first count : Nat) (attr : RegionAttr) :
    Leaves (Reuses h roots) (c.setAttrs first count attr) :=
  Leaves.bind_any fun _ _ => Leaves.ok a

theorem sortHumongous (a : c.Reuses h roots) (region : Region) :
    Leaves (Reuses h roots) (c.sortHumongous region) := by
  refine Leaves.bind_any fun _ _ => Leaves.ite ?_
    (Leaves.foldlM (fun d i a => freeRegion a i) _ a)
  refine Leaves.bind (a.setAttrs _ _ _) fun d a => Leaves.ok ?_
  split <;> exact a

theorem sortRegion (a : c.Reuses h roots) (next i : Nat) :
    Leaves (fun x => Reuses h roots x.1) (c.sortRegion next i) := by
  refine Leaves.bind_any fun region _ => Leaves.bind_any fun attr _ => ?_
  cases attr
  case free | skipMarking => exact Leaves.ok a
  all_goals
    refine Leaves.ite (Leaves.ok a) (Leaves.ite ?_ (Leaves.bind_any fun live _ => Leaves.ite ?_
      (Leaves.ite ?_ (Leaves.ite ?_ ?_))))
    · exact Leaves.bind (a.sortHumongous region) fun _ a => Leaves.ok a
    · exact Leaves.ite (Leaves.bind (a.freeRegion i) fun _ a => Leaves.ok a)
        (Leaves.bind (Leaves.ok a) fun _ a => Leaves.ok a)
    · exact Leaves.bind (a.freeRegion i) fun _ a => Leaves.ok a
    · exact Leaves.bind_any fun _ _ => Leaves.ok a
    · exact Leaves.bind_any fun _ _ => Leaves.ok a

theorem sortRegions (a : c.Reuses h roots) : Leaves (Reuses h roots) c.sortRegions :=
  Leaves.bind (P := fun x => Reuses h roots x.1)
    (Leaves.foldlM (fun x i a => sortRegion a x.2 i) _ a) fun _ a => Leaves.ok a

theorem forgetReferences (a : c.Reuses h roots) : Leaves (Reuses h roots) c.forgetReferences := by
  refine Leaves.bind (P := h.table.Reused) (Leaves.foldlM (fun t i a => ?_) _ a.1.table)
    fun t at' => Leaves.ok ⟨⟨at', a.1.candidates, a.1.options⟩, a.2⟩
  refine Leaves.bind_any fun _ _ => Leaves.ite (Leaves.ok a) (a.update (fun r => Leaves.ok ?_) i)
  exact ⟨.of_same rfl rfl rfl rfl rfl, rfl, .inl r.remSet.blank_clear⟩

theorem run (a : c.Reuses h roots) {task : CollectionTask}
    {work : Nat → Collector → Checked Collector}
    (hwork : ∀ d k, Reuses h roots d → Leaves (Reuses h roots) (work k d)) :
    Leaves (Reuses h roots) (c.run task work) := by
  refine Leaves.foldlM (fun d k a => ?_) _ a
  cases he : work k d with
  | ok d' => exact Leaves.ok (hwork d k a d' he)
  | error f => exact Leaves.error _

theorem planWorker (a : c.Reuses h roots) (k : Nat) :
    Leaves (Reuses h roots) (planWorker k c) := by
  have aplan : c.plan.Reuses h.table := a.1.table
  refine Leaves.bind_any fun p _ => Leaves.bind (P := fun x => Plan.Reuses h.table x.2)
    (Leaves.foldlM (fun x i a => Plan.Reuses.planRegion a _ i) _ aplan) fun x aplan' => ?_
  exact Leaves.bind aplan'.save fun _ at' => Leaves.ok ⟨⟨at', a.1.candidates, a.1.options⟩, a.2⟩

theorem planSerially (a : c.Reuses h roots) : Leaves (Reuses h roots) c.planSerially := by
  have aplan : c.plan.Reuses h.table := a.1.table
  refine Leaves.ite (Leaves.ok a) (Leaves.bind_any fun _ _ => Leaves.bind_any fun p _ => ?_)
  refine Leaves.bind (P := fun x => Plan.Reuses h.table x.2)
    (Leaves.foldlM (fun x i a => ?_) _ aplan) fun x aplan' => ?_
  · exact Leaves.bind (Plan.Reuses.emptyTarget a i) fun s a => a.forwardRegion _ _ _
  · exact Leaves.bind aplan'.save fun _ at' => Leaves.ok ⟨⟨at', a.1.candidates, a.1.options⟩, a.2⟩

theorem forwardHumongous {t₀ : RegionTable} {p : CompactionPoint} (a : t₀.Reused t)
    (region count : Nat) :
    Leaves (fun x => t₀.Reused x.2.2) (p.forwardHumongous t region count) := by
  refine Leaves.bind_any fun r _ => Leaves.bind_any fun _ _ => Leaves.bind_any fun start _ => ?_
  cases start with
  | some start => exact Leaves.bind_any fun _ _ => Leaves.ok (a.withMemory _)
  | none =>
    dsimp only
    split
    · exact Leaves.bind_any fun _ _ => Leaves.ok a
    · exact Leaves.ok a

theorem planHumongous (a : c.Reuses h roots) : Leaves (Reuses h roots) c.planHumongous := by
  refine Leaves.bind_any fun free _ => ?_
  dsimp only
  split
  · exact Leaves.ok a
  · refine Leaves.bind_any fun _ _ => Leaves.bind_any fun _ _ => ?_
    refine Leaves.bind (P := fun x => Reuses h roots x.1)
      (Leaves.foldlM (fun x start a => ?_) _ a) fun _ a => Leaves.ok a
    refine Leaves.bind_any fun count _ => Leaves.bind (forwardHumongous a.1.table start count)
      fun y at' => ?_
    obtain ⟨target, p, table⟩ := y
    have a' : (x.1.setTable table).Reuses h roots := ⟨⟨at', a.1.candidates, a.1.options⟩, a.2⟩
    cases target with
    | none => exact Leaves.ok a'
    | some target => exact Leaves.bind (a'.setAttrs _ _ _) fun _ a => Leaves.ok a

theorem planTargets (a : c.Reuses h roots) : Leaves (Reuses h roots) (do
    let c ← c.run .plan Collector.planWorker
    let c ← if c.scope.maximal || !(c.hasFreeTargets || c.freed) then c.planSerially else pure c
    let c ← if c.scope.maximal && !c.humongousStarts.isEmpty then c.planHumongous else pure c
    c.noteCompacted) := by
  refine Leaves.bind (a.run fun d k a => a.planWorker k) fun d a => ?_
  rw [ite_bind]
  refine Leaves.bind (Leaves.ite a.planSerially (Leaves.ok a)) fun d a => ?_
  dsimp only
  rw [ite_bind]
  refine Leaves.bind (Leaves.ite a.planHumongous (Leaves.ok a)) fun d a => ?_
  exact Leaves.bind_any fun _ _ => Leaves.ok a

theorem planCompaction (a : c.Reuses h roots) : Leaves (Reuses h roots) c.planCompaction := by
  refine Leaves.bind a.sortRegions fun d a => Leaves.bind_any fun _ _ => ?_
  exact Leaves.bind a.forgetReferences fun d a => a.planTargets

theorem adjustReferences (a : c.Reuses h roots) :
    Leaves (Reuses h (roots.redirect c.memory)) c.adjustReferences := by
  have aroots : Reuses h (roots.redirect c.memory)
      { c with heap := { c.heap with roots := c.heap.roots.redirect c.memory } } :=
    ⟨⟨a.1.table, a.1.candidates, a.1.options⟩, congrArg (fun r => Roots.redirect r c.memory) a.2⟩
  refine Leaves.foldlM (fun d i a => ?_) _ aroots
  refine Leaves.bind_any fun _ _ => Leaves.bind_any fun _ _ => Leaves.ite (Leaves.ok a) ?_
  exact Leaves.bind_any fun m _ => Leaves.ok ⟨a.1.setMemory m, a.2⟩

theorem compactRegion (a : c.Reuses h roots) (i : Nat) :
    Leaves (Reuses h roots) (c.compactRegion i) := by
  refine Leaves.bind_any fun region _ => Leaves.bind_any fun _ _ => Leaves.bind_any fun _ _ => ?_
  refine Leaves.bind (P := fun z => h.Reused z ∧ z.roots = roots)
    (LivenessMap.walk_leaves (fun z o a => ?_) a) fun z a => ?_
  · refine Leaves.bind_any fun l _ => ?_
    have aclear : h.Reused { z with liveness := l } := ⟨a.1.table, a.1.candidates, a.1.options⟩
    dsimp only
    split
    · exact Leaves.ok ⟨aclear, a.2⟩
    · exact Leaves.bind_any fun _ _ => Leaves.ok ⟨aclear.setMemory _, a.2⟩
  · refine Leaves.bind_any fun top _ => ?_
    exact Leaves.bind (updateRegion a (fun r => .resetCompacted r top) i) fun _ a => Leaves.ok a

theorem compactWorker (a : c.Reuses h roots) (k : Nat) :
    Leaves (Reuses h roots) (compactWorker k c) :=
  Leaves.bind_any fun _ _ => Leaves.foldlM (fun _ i a => compactRegion a i) _ a

theorem resetInPlace (a : c.Reuses h roots) : Leaves (Reuses h roots) c.resetInPlace := by
  refine Leaves.foldlM (fun d i a => ?_) _ a
  refine Leaves.bind_any fun _ _ => Leaves.ite (Leaves.ok a) ?_
  exact Leaves.bind (updateRegion a .resetInPlace i) fun _ a => Leaves.ok a

theorem moveHumongous (a : c.Reuses h roots) (move : HumongousMove) :
    Leaves (Reuses h roots) (c.moveHumongous move) := by
  refine Leaves.bind_any fun _ _ => Leaves.bind_any fun _ _ => Leaves.bind_any fun _ _ =>
    Leaves.bind_any fun _ _ => ?_
  refine Leaves.bind (Leaves.foldlM (fun t i a => a.clear i) _ (a.1.table.withMemory _))
    fun t at' => ?_
  exact Leaves.bind (at'.placeHumongous _ _ _ _) fun _ at' =>
    Leaves.ok ⟨⟨at', a.1.candidates, a.1.options⟩, a.2⟩

theorem compact (a : c.Reuses h roots) : Leaves (Reuses h roots) c.compact := by
  refine Leaves.bind (a.run fun d k a => a.compactWorker k) fun d a => ?_
  refine Leaves.bind a.resetInPlace fun d a => ?_
  refine Leaves.bind (Leaves.foldlM (fun _ i a => compactRegion a i) _ a) fun d a => ?_
  exact Leaves.foldlM (fun _ move a => moveHumongous a move) _ a

theorem complete (a : c.Reuses h roots) : Leaves (Reuses h roots) c.complete := by
  simp only [Collector.complete, Heap.rebuildFreeList, bind_assoc, pure_eq, ok_bind]
  refine Leaves.bind_any fun _ _ => Leaves.bind_any fun _ _ => Leaves.bind_any fun flaw _ => ?_
  cases flaw with
  | none => exact Leaves.ok ⟨⟨a.1.table, a.1.candidates, a.1.options⟩, a.2⟩
  | some flaw => exact Leaves.error _

theorem afterPlanning (a : c.Reuses h roots) :
    Leaves (fun d => ∃ m, Reuses h (roots.redirect m) d) (do
      let c ← c.adjustReferences
      let c ← c.compact
      c.complete) := by
  refine Leaves.bind a.adjustReferences fun d a => ?_
  exact Leaves.bind a.compact fun x a y hy => ⟨c.memory, a.complete y hy⟩

theorem afterMarking (a : c.Reuses h roots) :
    Leaves (fun d => ∃ m, Reuses h (roots.redirect m) d) (do
      let c ← c.planCompaction
      let c ← c.adjustReferences
      let c ← c.compact
      c.complete) :=
  Leaves.bind a.planCompaction fun _ a => a.afterPlanning

theorem collect (a : c.Reuses h roots) :
    Leaves (fun d => ∃ roots, Reuses h roots d) (c.collect >>= Collector.complete) := by
  simp only [Collector.collect, bind_assoc]
  refine Leaves.bind a.markLive fun d hd e he => ?_
  obtain ⟨roots', a⟩ := hd
  obtain ⟨m, a⟩ := a.afterMarking e he
  exact ⟨_, a⟩

end Collector.Reuses

/-- A collection lets all candidates go and then uses the regions anew. -/
theorem Heap.fullCollect_eq_ok {h' : Heap} {explicitRequest clearSoft maximal : Bool}
    (hc : h.fullCollect explicitRequest clearSoft maximal = .ok h') :
    ∃ s, h.toSelection.clear = .ok s ∧ (h.setSelection s).Reused h' := by
  obtain ⟨h₁, habandon, hrun⟩ := bind_eq_ok.mp hc
  obtain ⟨s, hs, hset⟩ := bind_eq_ok.mp habandon
  obtain rfl := Except.ok.inj hset
  obtain ⟨c, hcollect, hrest⟩ := bind_eq_ok.mp hrun
  obtain ⟨d, hcomplete, hd⟩ := bind_eq_ok.mp hrest
  obtain rfl := Except.ok.inj hd
  obtain ⟨roots, a⟩ := Collector.Reuses.collect (h := h.setSelection s) ⟨⟨.refl _, rfl, rfl⟩, rfl⟩ d
    (bind_eq_ok.mpr ⟨c, hcollect, hcomplete⟩)
  exact ⟨s, hs, a.1⟩

end RegionHeap
