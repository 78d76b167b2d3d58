import RegionHeap.Proofs.CollectingApart
import RegionHeap.Proofs.CollectingReuse
import RegionHeap.Proofs.History

/-!
Marks that a collection finds in the liveness map. It takes them for its own. Those in closed
archives it does not look at; any other keeps a dead object.
-/
set_option autoImplicit false

namespace RegionHeap

open Checked

namespace LivenessMap

variable {L : Layout} {A : Nat → Prop} {l l' : LivenessMap} {a b i : Nat}

/-- Marks objects one after the other. -/
def markAll (l : LivenessMap) (objects : List Nat) : Checked LivenessMap :=
  objects.foldlM (fun l o => return (← l.mark o).2) l

theorem Agree.setRight (h : Agree L A l l') (hi : A i) (s : LivenessSlice) :
    Agree L A l (l'.setSlice i s) := by
  refine ⟨h.start, h.bytes, ?_, by simp [LivenessMap.setSlice, h.size], fun j hj => ?_⟩
  · rw [h.same]
    rfl
  · rw [slice_setSlice, if_neg fun e : i = j ∧ _ => hj (e.1 ▸ hi)]
    exact h.slice j hj

theorem Agree.markRight (h : Agree L A l l') (ha : A (L.regionOf a)) :
    Leaves (fun x => Agree L A l x.2) (l'.mark a) := by
  refine Leaves.bind_any fun i hi => ?_
  obtain rfl := h.regionOf (h.regionOf_eq a ▸ hi)
  refine Leaves.bind (P := Agree L A l) ?_ fun m hm =>
    Leaves.bind_any fun _ _ => Leaves.bind_any fun _ _ => Leaves.ok (hm.setRight ha _)
  refine Leaves.bind_any fun s _ => Leaves.ite (Leaves.ok h) ?_
  refine Leaves.bind_any fun x _ => Leaves.bind_any fun y _ => Leaves.ite (Leaves.ok ?_)
    (Leaves.ok (h.setRight ha _))
  have hs := h.setRight ha ⟨y.2, .empty⟩
  exact ⟨hs.start, hs.bytes, by rw [hs.same], hs.size, hs.slice⟩

theorem Laid.isWord_of_mark (h : l.Laid L) {x : Bool × LivenessMap} (hm : l.mark a = .ok x) :
    L.IsWord a := by
  obtain ⟨i, hi, hm⟩ := bind_eq_ok.mp hm
  obtain ⟨m, -, hm⟩ := bind_eq_ok.mp hm
  obtain ⟨bit, hbit, -⟩ := bind_eq_ok.mp hm
  simp only [regionOf, bind_eq_ok, Fault.unless_eq_ok, decide_eq_true_eq, regions, h.start,
    h.bytes, h.size] at hi
  obtain ⟨_, hstart, _, hlt, -⟩ := hi
  obtain ⟨_, haligned, -⟩ := bind_eq_ok.mp hbit
  have hmod : a % 8 = 0 := by
    simpa [Address.isWordAligned, Address.bytesInWord] using Fault.unless_eq_ok.mp haligned
  have hpos := L.bytes_ge
  rw [Nat.div_lt_iff_lt_mul (by omega)] at hlt
  refine ⟨hstart, ?_, hmod⟩
  rw [Layout.limit, Layout.bottom]
  omega

theorem markAll_of (h : l.Laid L) {objects : List Nat} (ho : ∀ o ∈ objects, L.IsWord o) :
    ∃ l', l.markAll objects = .ok l' ∧ l'.Laid L ∧
      (∀ b, L.IsWord b → l'.marked L b = (decide (b ∈ objects) || l.marked L b)) ∧
      ∀ A : Nat → Prop, (∀ o ∈ objects, A (L.regionOf o)) → Agree L A l l' := by
  obtain ⟨l', hl', done⟩ := foldlM_split
    (f := fun (l : LivenessMap) o => do return (← l.mark o).2) (l := objects)
    (fun done m => m.Laid L ∧
      (∀ b, L.IsWord b → m.marked L b = (decide (b ∈ done) || l.marked L b)) ∧
      ∀ A : Nat → Prop, (∀ o ∈ done, A (L.regionOf o)) → Agree L A l m)
    (fun done o rest m hsplit ⟨hm, hb, hA⟩ => by
      obtain ⟨m', hmark, hm', hb'⟩ := mark_of hm (ho o (by rw [hsplit]; simp))
      refine ⟨m', (bind_of hmark _).trans rfl, hm', fun b hbw => ?_, fun A hdone => ?_⟩
      · rw [hb' b hbw, hb b hbw]
        simp only [List.mem_append, List.mem_singleton]
        by_cases e : b = o <;> simp [e]
      · exact (hA A fun p hp => hdone p (by simp [hp])).markRight (hdone o (by simp)) _ hmark)
    l ⟨h, fun b _ => by simp, fun A _ => .refl h.start h.bytes⟩
  exact ⟨l', hl', done⟩

end LivenessMap

namespace Marker

variable {c : Collector} {L : Layout} {o : Nat} {k : Marker}

/-- Marking leaves a mark where it is, and changes nothing but marks. -/
structure Holds (c : Collector) (L : Layout) (o : Nat) (k : Marker) : Prop where
  heap : k.collector.heap = { c.heap with liveness := k.collector.liveness }
  attrs : k.collector.attrs = c.attrs
  liveness : k.collector.liveness.Laid L
  marked : k.collector.liveness.marked L o = true

theorem Holds.share (h : Holds c L o k) : Leaves (Holds c L o) k.share :=
  Leaves.ite (Leaves.ok h) (Leaves.bind_any fun _ _ =>
    Leaves.ok ⟨h.heap, h.attrs, h.liveness, h.marked⟩)

theorem Holds.mark (h : Holds c L o k) (hw : L.IsWord o) (p : Nat) :
    Leaves (Holds c L o) (k.mark p) := by
  refine Leaves.bind_any fun _ _ => Leaves.bind_any fun i _ => Leaves.bind_any fun attr _ => ?_
  refine Leaves.ite (Leaves.bind_any fun _ _ => Leaves.ok h) (Leaves.bind_any fun x hx => ?_)
  obtain ⟨y, hy, -⟩ := bind_eq_ok.mp hx
  obtain ⟨l, hl, hlaid, hb⟩ := LivenessMap.tryMark_of h.liveness (h.liveness.isWord_of_mark hy)
  obtain rfl := Except.ok.inj (hl.symm.trans hx)
  have hmarked : l.marked L o = true := by
    rw [hb o hw, h.marked, Bool.or_true]
  have hheap : ∀ l : LivenessMap, ({ k.collector.heap with liveness := l } : Heap) =
      { c.heap with liveness := l } := fun l => by
    rw [h.heap]
  refine Leaves.ite (Leaves.ok ⟨hheap l, h.attrs, hlaid, hmarked⟩) ?_
  refine Leaves.bind_any fun _ _ => Leaves.bind_any fun _ _ => ?_
  exact Holds.share ⟨hheap l, h.attrs, hlaid, hmarked⟩

theorem Holds.markAll (h : Holds c L o k) (hw : L.IsWord o) (ps : List Nat) :
    Leaves (Holds c L o) (k.markAll ps) :=
  Leaves.foldlM (fun _ p hk => Leaves.ite (Leaves.ok hk) (hk.mark hw p)) ps h

theorem Holds.drainIn (h : Holds c L o k) (hw : L.IsWord o) (n : Nat) :
    Leaves (Holds c L o) (Marker.drainIn n k) := by
  induction n generalizing k with
  | zero => exact Leaves.ok h
  | succ n ih =>
    unfold Marker.drainIn
    split
    · next rest _ =>
      have h' : Holds c L o { k with stack := rest } := ⟨h.heap, h.attrs, h.liveness, h.marked⟩
      rw [scan_eq_markAll]
      exact Leaves.bind (h'.markAll hw _) fun _ hk => ih hk
    · split
      · exact ih ⟨h.heap, h.attrs, h.liveness, h.marked⟩
      · exact Leaves.ok h

end Marker

theorem Checked.mapM_map_eq {α β γ : Type} {f : α → Checked β} {xs : List α} {r : β → γ}
    {g : α → γ} {ys : List β} (h : xs.mapM f = .ok ys) (e : ys.map r = xs.map g) :
    ∀ x ∈ xs, ∃ y, f x = .ok y ∧ r y = g x := by
  induction xs generalizing ys with
  | nil => simp
  | cons x rest ih =>
    rw [List.mapM_cons] at h
    obtain ⟨y, hy, h⟩ := bind_eq_ok.mp h
    obtain ⟨ys', hys, h⟩ := bind_eq_ok.mp h
    obtain rfl := Except.ok.inj h
    obtain ⟨e, e'⟩ := List.cons.inj e
    intro z hz
    rcases List.mem_cons.mp hz with rfl | hz
    · exact ⟨y, hy, e⟩
    · exact ih hys e' z hz

namespace Collector

variable {c : Collector} {L : Layout} {o : Nat} {g : Nat → Nat}

theorem isAlive_of_marked (hc : c.heap.Laid L) (ha : c.attrs.size = L.count) (hw : L.IsWord o)
    (hm : c.liveness.marked L o = true) : c.isAlive o = .ok true := by
  have hattr : c.attrs.get (L.regionOf o) = .ok (c.attrs.attr (L.regionOf o)) :=
    AttrTable.get_of_lt (ha ▸ hw.regionOf_lt)
  rw [isAlive_eq_marked hc hw hattr, hm, Bool.or_true]

theorem redirect_ne_zero (m : Memory) (ho : o ≠ 0) : Object.redirect m o ≠ 0 := by
  rw [Object.redirect, if_neg ho, Object.destination, Object.forwardee?]
  split
  · exact ho
  · next hz => exact hz

theorem clearDead_keeps (hc : c.heap.Laid L) (ha : c.attrs.size = L.count) (hw : L.IsWord o)
    (hz : o ≠ 0) (hm : c.liveness.marked L o = true) {references kept : List Nat}
    (ho : o ∈ references) (hg : g o = 0) (hk : c.clearDead references = .ok kept) (m : Memory) :
    kept.map (Object.redirect m) ≠ references.map g := by
  intro e
  obtain ⟨p, hp, e⟩ := mapM_map_eq hk e o ho
  rw [if_neg hz, isAlive_of_marked hc ha hw hm] at hp
  obtain rfl : o = p := Except.ok.inj hp
  exact redirect_ne_zero m hz (e.trans hg)

theorem markLive_keeps (hc : c.heap.Laid L) (ha : c.attrs.size = L.count) (hw : L.IsWord o)
    (hz : o ≠ 0) (hm : c.liveness.marked L o = true) (ho : o ∈ c.heap.roots.weak) (hg : g o = 0) :
    Leaves (fun d => ∀ m, (d.heap.roots.redirect m).weak ≠ c.heap.roots.weak.map g) c.markLive := by
  refine Leaves.bind_any fun shared _ => ?_
  have hk : Marker.Holds c L o { collector := c, shared := shared } := ⟨rfl, rfl, hc.liveness, hm⟩
  refine Leaves.bind (hk.markAll hw _) fun k hk => Leaves.bind (hk.drainIn hw _) fun k hk => ?_
  have hheap : k.collector.heap.Laid L := by
    rw [hk.heap]
    exact hc.withLiveness hk.liveness
  have hroots : k.collector.heap.roots = c.heap.roots := by rw [hk.heap]
  have hfinal : ∀ weak, k.collector.clearDead k.collector.heap.roots.weak = .ok weak →
      ∀ m, weak.map (Object.redirect m) ≠ c.heap.roots.weak.map g := fun weak hweak m => by
    rw [hroots] at hweak
    exact clearDead_keeps hheap (hk.attrs ▸ ha) hw hz hk.marked ho hg hweak m
  refine Leaves.bind_any fun _ _ => Leaves.ite ?_ ?_ <;>
    exact Leaves.bind_any fun soft _ => Leaves.bind_any fun weak hweak =>
      Leaves.ok fun m => hfinal weak hweak m

/-- The weak roots that a collection ends with lead to all marked objects that they led to. -/
theorem collect_keeps (hc : c.heap.Laid L) (ha : c.attrs.size = L.count) (hw : L.IsWord o)
    (hz : o ≠ 0) (hm : c.liveness.marked L o = true) (ho : o ∈ c.heap.roots.weak) (hg : g o = 0) :
    Leaves (fun d => d.heap.roots.weak ≠ c.heap.roots.weak.map g) (c.collect >>= complete) := by
  simp only [collect, bind_assoc]
  refine Leaves.bind (markLive_keeps hc ha hw hz hm ho hg) fun d hd e he => ?_
  have a : d.Reuses d.heap d.heap.roots := ⟨.refl _, rfl⟩
  obtain ⟨m, -, hr⟩ := a.afterMarking e he
  rw [hr]
  exact hd m

end Collector

namespace Heap

variable {h h' : Heap} {L : Layout} {l : LivenessMap} {objects : List Nat} {o : Nat}

/-- A collection keeps every weak root to an object that was marked before. -/
theorem fullCollect_keeps_marked (w : h.WellFormed L) (hobj : ∀ p ∈ objects, h.IsObject p)
    (hl : h.liveness.markAll objects = .ok l) (ho : o ∈ objects) (hweak : o ∈ h.roots.weak)
    {g : Nat → Nat} (hg : g o = 0) (explicitRequest clearSoft maximal : Bool) :
    Leaves (fun h' => h'.roots.weak ≠ h.roots.weak.map g)
      (({ h with liveness := l } : Heap).fullCollect explicitRequest clearSoft maximal) := by
  have hword : ∀ p ∈ objects, L.IsWord p := fun p hp => (w.mem_objectsIn (hobj p hp)).1
  obtain ⟨l', hl', hlaid, hmarked, -⟩ := LivenessMap.markAll_of w.liveness hword
  obtain rfl := Except.ok.inj (hl.symm.trans hl')
  have hw := hword o ho
  obtain ⟨h₀, habandon, a, w₁, -, -⟩ := abandon_of w.toClean
  refine Leaves.bind (P := fun x => x = { h₀ with liveness := l }) ?_ fun x hx => ?_
  · obtain ⟨s, hs, habandon⟩ := bind_eq_ok.mp habandon
    obtain rfl := Except.ok.inj habandon
    refine Leaves.bind_any fun s' hs' => Leaves.ok ?_
    obtain rfl := Except.ok.inj (hs.symm.trans hs')
    rfl
  · subst hx
    dsimp only
    rw [← bind_assoc]
    refine Leaves.bind (P := fun d => d.heap.roots.weak ≠ h.roots.weak.map g) ?_
      fun d hd => Leaves.ok hd
    have hroots : h₀.roots = h.roots := a.roots
    rw [← hroots] at hweak ⊢
    refine Collector.collect_keeps (L := L) (w₁.laid.withLiveness hlaid) ?_ hw ?_ ?_ hweak hg
    · rw [AttrTable.size, Collector.prepare, Array.size_map]
      exact w₁.table.size
    · have := hw.start_le
      have := L.start_pos
      omega
    · show l.marked L o = true
      rw [hmarked o hw]
      simp [ho]

/-- Whatever the roots are, a collection keeps what can be reached and gives the same heap whether
these objects were marked before it or not. -/
def IgnoresMarks (h : Heap) (L : Layout) (objects : List Nat) : Prop :=
  ∀ roots : Roots, ({ h with roots := roots } : Heap).WellFormed L →
    ∀ explicitRequest clearSoft maximal, ∃ (place : Nat → Nat) (l l' : LivenessMap) (h' : Heap),
      h.liveness.markAll objects = .ok l ∧
      ({ h with roots := roots } : Heap).fullCollect explicitRequest clearSoft maximal = .ok h' ∧
      ({ h with roots := roots, liveness := l } : Heap).fullCollect explicitRequest clearSoft
        maximal = .ok { h' with liveness := l' } ∧
      ({ h with roots := roots } : Heap).Preserved clearSoft place { h' with liveness := l' }

theorem traced_withLiveness (h : Heap) (l : LivenessMap) (clearSoft : Bool) (o : Nat) :
    ({ h with liveness := l } : Heap).Traced clearSoft o ↔ h.Traced clearSoft o := by
  constructor
  · intro ht
    induction ht with
    | root ho hz ha => exact .root ho hz ha
    | field _ hp hz ha ih => exact .field ih hp hz ha
  · intro ht
    induction ht with
    | root ho hz ha => exact .root ho hz ha
    | field _ hp hz ha ih => exact .field ih hp hz ha

theorem Preserved.withLiveness {clearSoft : Bool} {place : Nat → Nat}
    (g : h.Preserved clearSoft place h') (l : LivenessMap) :
    h.Preserved clearSoft place { h' with liveness := l } :=
  ⟨g.injective, g.isObject, g.header, g.klass, g.field, g.payload, g.archived, g.strong, g.soft,
    g.weak, fun p => (h'.traced_withLiveness l clearSoft p).trans (g.traced p)⟩

theorem ignoresMarks_of_archived (w : h.WellFormed L)
    (ho : ∀ o ∈ objects, h.IsObject o ∧ h.InClosedArchive o) : h.IgnoresMarks L objects := by
  intro roots wr explicitRequest clearSoft maximal
  have hword : ∀ p ∈ objects, L.IsWord p := fun p hp => (w.mem_objectsIn (ho p hp).1).1
  obtain ⟨l, hl, -, -, hagree⟩ := LivenessMap.markAll_of w.liveness hword
  have hsealed : ∀ p ∈ objects, ({ h with roots := roots } : Heap).Sealed L (L.regionOf p) :=
    fun p hp => ⟨(hword p hp).regionOf_lt, (w.inClosedArchive_iff (hword p hp)).mp (ho p hp).2⟩
  obtain ⟨h₁, c, f, fill, m₃, x, h', hrun, a, hscope, k⟩ :=
    fullCollect_of wr.toClean explicitRequest clearSoft maximal
  have hclear : c.scope.clearSoft = clearSoft := by
    rw [hscope]
    rfl
  have g := k.preserved (a.selfContained wr.archived)
  rw [hclear] at g
  have both := fullCollect_both wr.toClean (hagree _ hsealed) explicitRequest clearSoft maximal
  rw [hrun] at both
  obtain ⟨_, hrun', l', rfl⟩ := both.passes
  exact ⟨f.place, l, l', h', hl, hrun, hrun', (a.preserved g).withLiveness l'⟩

theorem not_traced_of_weak (h : Heap) (weak : List Nat) (clearSoft : Bool) (o : Nat) :
    ¬({ h with roots := { weak := weak } } : Heap).Traced clearSoft o := by
  intro ht
  induction ht with
  | root ho _ _ => cases clearSoft <;> simp [markingRoots] at ho
  | field _ _ _ _ ih => exact ih

theorem IgnoresMarks.archived (hi : h.IgnoresMarks L objects) (hobj : ∀ p ∈ objects, h.IsObject p)
    (ho : o ∈ objects) (w : ({ h with roots := { weak := [o] } } : Heap).WellFormed L) :
    h.InClosedArchive o := by
  obtain ⟨place, l, l', h', hl, -, hrun, g⟩ := hi _ w false false false
  by_cases ha : h.InClosedArchive o
  · exact ha
  · refine absurd g.weak
      (fullCollect_keeps_marked w hobj hl ho (by simp) ?_ false false false _ hrun)
    have hdead : ¬({ h with roots := { weak := [o] } } : Heap).Alive false o := fun halive =>
      halive.elim (h.not_traced_of_weak [o] false o) fun h' => ha h'.2
    rw [kept, if_neg hdead, relocate, if_pos rfl]

/-- Which marks that were set before it full collections do not depend on: those in closed
archives. Any other keeps a dead object, if there can be a root to it at all. -/
theorem fullCollect_ignores_marks (w : h.WellFormed L) (hobj : ∀ o ∈ objects, h.IsObject o) :
    ((∀ o ∈ objects, h.InClosedArchive o) → h.IgnoresMarks L objects) ∧
    (h.IgnoresMarks L objects → ∀ o ∈ objects,
      ({ h with roots := { weak := [o] } } : Heap).WellFormed L → h.InClosedArchive o) :=
  ⟨fun ha => ignoresMarks_of_archived w fun o ho => ⟨hobj o ho, ha o ho⟩,
    fun hi _ ho wo => hi.archived hobj ho wo⟩

/-- An object in a closed archive may be marked, and one that nothing refers to may not. -/
theorem sample_ignores_marks : ∃ h L, sample = .ok h ∧ h.WellFormed L ∧
    (∀ o ∈ [sampleWord 4 0, sampleWord 0 0], h.IsObject o) ∧ h.IgnoresMarks L [sampleWord 4 0] ∧
    ({ h with roots := { weak := [sampleWord 0 0] } } : Heap).WellFormed L ∧
    ¬h.IgnoresMarks L [sampleWord 4 0, sampleWord 0 0] := by
  obtain ⟨h, L, hs, t⟩ := sample_tidy
  have hlook := of_sample (f := fun h => decide (h.Interlinked ∧
    Interlinked { h with roots := { weak := [sampleWord 0 0] } } ∧
    (∀ o ∈ [sampleWord 4 0, sampleWord 0 0], h.IsObject o) ∧
    h.InClosedArchive (sampleWord 4 0) ∧ ¬h.InClosedArchive (sampleWord 0 0))) (v := true) hs
    (by decide +kernel)
  obtain ⟨hlinked, hweak, hobjects, hclosed, hopen⟩ := of_decide_eq_true hlook
  have w := t.wellFormed hlinked
  have hweak := (t.setRoots { weak := [sampleWord 0 0] }).wellFormed hweak
  refine ⟨h, L, hs, w, hobjects, ?_, hweak, fun hi => hopen ?_⟩
  · refine (fullCollect_ignores_marks w fun o ho => hobjects o (by simp_all)).1 fun o ho => ?_
    exact List.mem_singleton.mp ho ▸ hclosed
  · exact (fullCollect_ignores_marks w hobjects).2 hi _ (by simp) hweak

end Heap

end RegionHeap
