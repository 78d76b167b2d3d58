import RegionHeap.Proofs.Planned

/-!
Adjusting references. The slots of live objects are no headers, so that what a reference is changed
to does not depend on how many references have been changed before.
-/
set_option autoImplicit false

namespace RegionHeap

namespace Object

variable {m m' : Memory} {o a : Nat}

theorem nodup_slots (m : Memory) (o : Nat) : (slots m o).Nodup := by
  unfold slots slot
  refine List.pairwise_map.mpr (List.nodup_range.imp fun hne e => hne ?_)
  omega

theorem redirect_congr {x : Nat} (h : x ≠ 0 → m'.read x = m.read x) :
    redirect m' x = redirect m x := by
  unfold redirect
  split
  · rfl
  · next hx => exact destination_congr (h hx)

theorem read_adjustSlot (m : Memory) (a b : Nat) :
    (adjustSlot m a).read b = if b = a then redirect m (m.read a) else m.read b := by
  unfold adjustSlot
  dsimp only
  split
  · next e =>
    split
    · next e' => rw [e', e]
    · rfl
  · rw [Memory.read_write]
    by_cases e : b = a
    · simp [e]
    · rw [if_neg (Ne.symm e), if_neg e]

theorem read_adjustSlots {as : List Nat} (hn : as.Nodup)
    (hr : ∀ a ∈ as, m.read a ≠ 0 → m.read a ∉ as) (b : Nat) :
    (as.foldl adjustSlot m).read b = if b ∈ as then redirect m (m.read b) else m.read b := by
  induction as generalizing m with
  | nil => simp
  | cons a as ih =>
    obtain ⟨ha, hn⟩ := List.nodup_cons.mp hn
    have hsame : ∀ c, c ≠ a → (adjustSlot m a).read c = m.read c := fun c hc => by
      rw [read_adjustSlot, if_neg hc]
    have hmem : ∀ c ∈ as, c ≠ a := fun c hc e => ha (e ▸ hc)
    rw [List.foldl_cons, ih hn fun c hc => ?_]
    · by_cases hb : b ∈ as
      · rw [if_pos hb, if_pos (by simp [hb]), hsame b (hmem b hb)]
        exact redirect_congr fun hx => hsame _ fun e =>
          hr b (by simp [hb]) hx (by rw [e]; simp)
      · rw [if_neg hb, read_adjustSlot]
        by_cases e : b = a
        · rw [if_pos e, if_pos (by simp [e]), e]
        · rw [if_neg e, if_neg (by simp [e, hb])]
    · rw [hsame c (hmem c hc)]
      exact fun hx hm => hr c (by simp [hc]) hx (by simp [hm])

theorem read_adjust (hr : ∀ a ∈ slots m o, m.read a ≠ 0 → m.read a ∉ slots m o) (b : Nat) :
    (adjust m o).read b = if b ∈ slots m o then redirect m (m.read b) else m.read b :=
  read_adjustSlots (nodup_slots m o) hr b

end Object

namespace Heap.Consistent

variable {h : Heap} {L : Layout} {o p a : Nat}

theorem header_not_slot (w : h.Consistent L) (ho : h.IsObject o) (hp : h.IsObject p)
    (ha : a ∈ Object.slots h.memory o) : a ≠ p ∧ a ≠ p + 8 := by
  have hslot := Object.slots_bounds (w.formatted o ho) ha
  have hafter := fun hlt => w.apart ho hp hlt
  by_cases hlt : o < p
  · have := hafter hlt
    omega
  · omega

theorem slots_disjoint (w : h.Consistent L) (ho : h.IsObject o) (hp : h.IsObject p)
    (ha : a ∈ Object.slots h.memory o) (ha' : a ∈ Object.slots h.memory p) : o = p := by
  have hslot := Object.slots_bounds (w.formatted o ho) ha
  have hslot' := Object.slots_bounds (w.formatted p hp) ha'
  by_cases hlt : o < p
  · have := w.apart ho hp hlt
    omega
  · by_cases hgt : p < o
    · have := w.apart hp ho hgt
      omega
    · omega

end Heap.Consistent

/-- The references in these objects are redirected, and nothing else has changed. -/
structure Adjusted (h : Heap) (m₂ : Memory) (D : Nat → Prop) (m : Memory) : Prop where
  slot : ∀ o, D o → ∀ a ∈ Object.slots h.memory o, m.read a = Object.redirect m₂ (m₂.read a)
  other : ∀ a, (∀ o, D o → a ∉ Object.slots h.memory o) → m.read a = m₂.read a

namespace Adjusted

variable {h : Heap} {L : Layout} {m₂ m : Memory} {D : Nat → Prop} {clearSoft : Bool} {o : Nat}

theorem congr {D' : Nat → Prop} (g : Adjusted h m₂ D m) (hD : ∀ o, D o ↔ D' o) :
    Adjusted h m₂ D' m :=
  ⟨fun o ho => g.slot o ((hD o).mpr ho), fun a ha => g.other a fun o ho => ha o ((hD o).mp ho)⟩

theorem header (w : h.Consistent L) (g : Adjusted h m₂ D m) (hD : ∀ o, D o → h.IsObject o)
    (ho : h.IsObject o) : m.read o = m₂.read o ∧ m.read (o + 8) = m₂.read (o + 8) :=
  ⟨g.other o fun p hp ha => (w.header_not_slot (hD p hp) ho ha).1 rfl,
    g.other (o + 8) fun p hp ha => (w.header_not_slot (hD p hp) ho ha).2 rfl⟩

theorem step (w : h.Consistent L) (hm : ∀ a, ¬h.IsObject a → m₂.read a = h.memory.read a)
    (g : Adjusted h m₂ D m) (hD : ∀ o, D o → h.Traced clearSoft o) (ho : h.Traced clearSoft o)
    (hnew : ¬D o) :
    Object.size (Object.adjust m o) o = Object.size h.memory o ∧
      Adjusted h m₂ (fun p => D p ∨ p = o) (Object.adjust m o) := by
  have hobj := w.traced_isObject ho
  have hDo := fun p hp => w.traced_isObject (hD p hp)
  have hk : Object.klass m o = Object.klass h.memory o :=
    (g.header w hDo hobj).2.trans (hm _ (w.klass_not_object hobj))
  have hslots := Object.slots_congr hk
  have hold : ∀ a ∈ Object.slots h.memory o, m.read a = m₂.read a := fun a ha =>
    g.other a fun p hp ha' => hnew (w.slots_disjoint (hDo p hp) hobj ha' ha ▸ hp)
  -- what the slots refer to are objects
  have href : ∀ a ∈ Object.slots h.memory o, m₂.read a ≠ 0 → h.IsObject (m₂.read a) := by
    intro a ha hz
    have he := hm a fun ho' => (w.header_not_slot hobj ho' ha).1 rfl
    rw [he] at hz ⊢
    exact w.referent_isObject ho (List.mem_map.mpr ⟨a, ha, rfl⟩) hz
  have hread := Object.read_adjust (m := m) (o := o) fun a ha hz hin => by
    rw [hslots] at ha hin
    rw [hold a ha] at hz hin
    exact (w.header_not_slot hobj (href a ha hz) hin).1 rfl
  rw [hslots] at hread
  refine ⟨Object.size_congr ?_, fun p hp a ha => ?_, fun a ha => ?_⟩
  · rw [Object.klass, hread, if_neg fun ha => (w.header_not_slot hobj hobj ha).2 rfl]
    exact hk
  · rw [hread]
    rcases hp with hp | rfl
    · rw [if_neg fun ha' => hnew (w.slots_disjoint (hDo p hp) hobj ha ha' ▸ hp)]
      exact g.slot p hp a ha
    · rw [if_pos ha, hold a ha]
      exact Object.redirect_congr fun hz => (g.header w hDo (href a ha hz)).1
  · rw [hread, if_neg (ha o (.inr rfl))]
    exact g.other a fun p hp => ha p (.inl hp)

end Adjusted

namespace Collector

variable {c f : Collector} {h : Heap} {L : Layout} {fill : Nat → List (Nat × Nat)}

/-- What adjusting changes. -/
def withAdjusted (c : Collector) (m : Memory) : Collector :=
  { c with heap := { c.heap.setMemory m with roots := c.heap.roots.redirect c.memory } }

namespace Planned

variable (p : c.Planned h L f fill)

include p

theorem read_of_not_object (w : h.Consistent L) {a : Nat} (ha : ¬h.IsObject a) :
    f.memory.read a = h.memory.read a := by
  refine p.memory a (fun hs => ha hs.isObject) fun m hm e => ha ?_
  obtain ⟨hs, hk, -⟩ := p.moves.source m hm
  exact e ▸ w.isObject hs (by rw [w.objectsIn_humongous hs hk.1]; simp)

/-- Where live objects are, regions are gone through. -/
theorem isMarkedThrough (w : h.Consistent L) {i : Nat} (hi : i < L.count) :
    (f.attrs.attr i).isMarkedThrough = false ∨ (f.heap.region i).kind = (h.region i).kind ∧
      (f.heap.region i).top = (h.region i).top := by
  by_cases hleft : ∃ m ∈ f.moves, m.Leaves i
  · obtain ⟨m, hm, hk⟩ := hleft
    have hf := (w.fate_of_leaves c.scope.threshold p.moves hm hk).2
    have ha := p.region i hi
    rw [Heap.sorted, if_neg (by rw [hf]; simp)] at ha
    exact .inr ⟨ha.kind, ha.top⟩
  · have hattr := p.stay i hi fun m hm hk => hleft ⟨m, hm, hk⟩
    by_cases hf : h.fate c.scope.clearSoft c.scope.threshold i = .free
    · rw [hattr, hf]
      exact .inl rfl
    · have ha := p.region i hi
      rw [Heap.sorted, if_neg fun e => hf e.1] at ha
      exact .inr ⟨ha.kind, ha.top⟩

theorem liveIn_eq_nil (w : h.Consistent L) {i : Nat} (hi : i < L.count)
    (ha : (f.attrs.attr i).isMarkedThrough = false ∨
      (f.heap.region i).kind.isContinuesHumongous = true) :
    h.liveIn c.scope.clearSoft i = [] := by
  by_cases ha' : (f.attrs.attr i).isMarkedThrough = false
  · by_cases hleft : ∃ m ∈ f.moves, m.Leaves i
    · obtain ⟨m, hm, hk⟩ := hleft
      rw [p.left m hm i hk] at ha'
      contradiction
    · rw [p.stay i hi fun m hm hk => hleft ⟨m, hm, hk⟩] at ha'
      exact w.liveIn_eq_nil_of_fate hi ha'
  · have hk := ha.resolve_left ha'
    rw [((p.isMarkedThrough w hi).resolve_left ha').1] at hk
    exact w.liveIn_eq_nil hi (.inr (.inr (by simpa [RegionKind.isContinuesHumongous] using hk)))

end Planned

/-- The live objects of a region that the walk has visited are adjusted, after those of the regions
below. -/
theorem Planned.adjustNext (w : h.Consistent L) (p : c.Planned h L f fill) {i o : Nat}
    (hi : i < L.count) {seen left : List Nat} {m : Memory}
    (hseen : h.liveIn c.scope.clearSoft i = seen ++ o :: left)
    (g : Adjusted h f.memory
      (fun o => (h.Traced c.scope.clearSoft o ∧ L.regionOf o < i) ∨ o ∈ seen) m) :
    Object.size (Object.adjust m o) o = Object.size h.memory o ∧ Adjusted h f.memory
      (fun q => (h.Traced c.scope.clearSoft q ∧ L.regionOf q < i) ∨ q ∈ seen ++ [o])
      (Object.adjust m o) := by
  have hnodup : (h.liveIn c.scope.clearSoft i).Nodup := (w.liveIn_sorted hi).imp Nat.ne_of_lt
  rw [hseen, List.nodup_append] at hnodup
  have hin : ∀ q ∈ o :: seen, q ∈ h.liveIn c.scope.clearSoft i := fun q hq => by
    rw [hseen]
    rcases List.mem_cons.mp hq with rfl | hq <;> simp [*]
  have hnew : ¬((h.Traced c.scope.clearSoft o ∧ L.regionOf o < i) ∨ o ∈ seen) := by
    rintro (⟨-, hlt⟩ | hs)
    · have hregion := (w.liveIn_inside hi (hin o (by simp))).2.1
      omega
    · exact hnodup.2.2 o hs o (by simp) rfl
  obtain ⟨hsize, g'⟩ := g.step w (fun a => p.read_of_not_object w)
    (fun q hq => hq.elim And.left fun hq => (Heap.mem_liveIn.mp (hin q (by simp [hq]))).2)
    (Heap.mem_liveIn.mp (hin o (by simp))).2 hnew
  refine ⟨hsize, g'.congr fun q => ?_⟩
  rw [List.mem_append, List.mem_singleton, or_assoc]

theorem adjustLive_of (w : h.Consistent L) (p : c.Planned h L f fill) {i : Nat} (hi : i < L.count)
    (htop : (f.heap.region i).top = (h.region i).top) {m : Memory}
    (g : Adjusted h f.memory (fun o => h.Traced c.scope.clearSoft o ∧ L.regionOf o < i) m) :
    ∃ m', LivenessMap.walk (fun _ : Memory => f.heap.liveness) (fun m object => do
        let m := Object.adjust m object
        return (Object.size m object, m)) i (f.heap.region i).top m = .ok m' ∧
      Adjusted h f.memory (fun o => (h.Traced c.scope.clearSoft o ∧ L.regionOf o < i) ∨
        o ∈ h.liveIn c.scope.clearSoft i) m' := by
  have hl := p.ready.heap.table.region i hi
  have walk : LivenessMap.WalkInvariant (fun _ : Memory => f.heap.liveness) (fun m object => do
        let m := Object.adjust m object
        return (Object.size m object, m)) L i (f.heap.region i).top (Object.size h.memory)
      (h.liveIn c.scope.clearSoft i) fun left m =>
        ∃ seen, h.liveIn c.scope.clearSoft i = seen ++ left ∧ Adjusted h f.memory
          (fun o => (h.Traced c.scope.clearSoft o ∧ L.regionOf o < i) ∨ o ∈ seen) m :=
    w.walkInvariant hi p.ready.heap.liveness p.exact htop
      (fun _ _ ⟨seen, hseen, _⟩ => ⟨seen, hseen⟩) fun o left m ⟨seen, hseen, gm⟩ => by
        obtain ⟨hsize, gm'⟩ := p.adjustNext w hi hseen gm
        exact ⟨_, by rw [← hsize]; rfl, seen ++ [o], by simp [hseen], gm'⟩
  obtain ⟨m', hwalk, seen, hseen, g'⟩ :=
    LivenessMap.walk_of walk hi hl.top_le hl.aligned (w.liveIn_apart hi)
      ⟨[], rfl, by simpa using g⟩
  rw [List.append_nil] at hseen
  exact ⟨m', hwalk, hseen ▸ g'⟩

theorem traced_below_succ (w : h.Consistent L) {i : Nat} (hi : i < L.count) (o : Nat) :
    (h.Traced c.scope.clearSoft o ∧ L.regionOf o < i) ∨ o ∈ h.liveIn c.scope.clearSoft i ↔
      h.Traced c.scope.clearSoft o ∧ L.regionOf o < i + 1 := by
  constructor
  · rintro (ho | ho)
    · exact ⟨ho.1, Nat.lt_succ_of_lt ho.2⟩
    · have := (w.liveIn_inside hi ho).2.1
      exact ⟨(Heap.mem_liveIn.mp ho).2, by omega⟩
  · rintro ⟨ht, hlt⟩
    by_cases e : L.regionOf o = i
    · exact .inr (e ▸ w.mem_liveIn_regionOf ht)
    · exact .inl ⟨ht, by omega⟩

theorem adjustRegion_of (w : h.Consistent L) (p : c.Planned h L f fill) {i : Nat}
    (hi : i < L.count) {m : Memory} (g : Adjusted h f.memory
      (fun o => h.Traced c.scope.clearSoft o ∧ L.regionOf o < i) m) :
    ∃ m', (f.withAdjusted m).adjustRegion i = .ok (f.withAdjusted m') ∧
      Adjusted h f.memory (fun o => h.Traced c.scope.clearSoft o ∧ L.regionOf o < i + 1) m' := by
  have hregion : (f.withAdjusted m).region i = .ok (f.heap.region i) := p.ready.region_of hi
  have hattr : (f.withAdjusted m).attrs.get i = .ok (f.attrs.attr i) := p.ready.attr_of hi
  rw [adjustRegion, Checked.bind_of hregion, Checked.bind_of hattr]
  by_cases hpass : (f.attrs.attr i).isMarkedThrough = false ∨
      (f.heap.region i).kind.isContinuesHumongous = true
  · have hnil := p.liveIn_eq_nil w hi hpass
    refine ⟨m, ?_, g.congr fun o => ?_⟩
    · rw [if_pos]
      · rfl
      · simpa using hpass
    · rw [← traced_below_succ w hi, hnil]
      simp
  · have hmt : ¬(f.attrs.attr i).isMarkedThrough = false := fun e => hpass (.inl e)
    obtain ⟨m', hwalk, g'⟩ :=
      adjustLive_of w p hi ((p.isMarkedThrough w hi).resolve_left hmt).2 g
    refine ⟨m', ?_, g'.congr (traced_below_succ w hi)⟩
    rw [if_neg (by simpa using hpass)]
    exact (Checked.bind_of hwalk _).trans rfl

/-- Adjusting redirects the roots and the slots of all live objects. -/
theorem adjustReferences_of (w : h.Consistent L) (p : c.Planned h L f fill) :
    ∃ m, f.adjustReferences = .ok (f.withAdjusted m) ∧
      Adjusted h f.memory (h.Traced c.scope.clearSoft) m := by
  obtain ⟨g, hg, m, rfl, ha⟩ := Checked.foldlM_range_of (n := L.count) (f := adjustRegion)
    (fun i (g : Collector) => ∃ m, g = f.withAdjusted m ∧ Adjusted h f.memory
      (fun o => h.Traced c.scope.clearSoft o ∧ L.regionOf o < i) m)
    (fun i g hi ⟨m, e, ha⟩ => by
      obtain ⟨m', hg, ha'⟩ := adjustRegion_of w p hi ha
      exact ⟨_, e ▸ hg, m', rfl, ha'⟩)
    (f.withAdjusted f.memory) ⟨f.memory, rfl, fun o ho => by omega, fun _ _ => rfl⟩
  refine ⟨m, ?_, ha.congr fun o => ⟨fun ho => ho.1, fun ht => ⟨ht, ?_⟩⟩⟩
  · rw [adjustReferences]
    show f.heap.table.indices.foldlM adjustRegion (f.withAdjusted f.memory) = _
    rw [p.ready.indices]
    exact hg
  · have := w.mem_objectsIn (w.traced_isObject ht)
    exact this.1.regionOf_lt

end Collector

end RegionHeap
