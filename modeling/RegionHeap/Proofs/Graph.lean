import RegionHeap.Proofs.Carried

/-!
The graph of the live objects. A collection gives every live object a new place and changes nothing
about it but the references, which lead to the new places.
-/
set_option autoImplicit false

namespace RegionHeap

namespace Heap

/-- A reference once the objects are at their new places. -/
def relocate (place : Nat → Nat) (o : Nat) : Nat := if o = 0 then 0 else place o

/-- The live objects of a heap are in another one, each at its place, linked as they were, and
nothing else is traced there. Of the roots, those to dead objects that do not keep them alive are
cleared. -/
structure Preserved (h : Heap) (clearSoft : Bool) (place : Nat → Nat) (h' : Heap) : Prop where
  injective : ∀ o p, h.Alive clearSoft o → h.Alive clearSoft p → place o = place p → o = p
  isObject : ∀ o, h.Alive clearSoft o → h'.IsObject (place o)
  header : ∀ o, h.Alive clearSoft o → h'.memory.read (place o) = 0
  klass : ∀ o, h.Alive clearSoft o →
    Object.klass h'.memory (place o) = Object.klass h.memory o
  field : ∀ o, h.Alive clearSoft o → ∀ i, i < Object.fieldCount h.memory o →
    h'.memory.read (Object.slot (place o) i) =
      relocate place (h.memory.read (Object.slot o i))
  payload : ∀ o, h.Alive clearSoft o → ∀ n, Object.headerWords + Object.fieldCount h.memory o ≤ n →
    n < Object.size h.memory o → h'.memory.read (place o + 8 * n) = h.memory.read (o + 8 * n)
  archived : ∀ o, h.IsObject o → h.InClosedArchive o → place o = o
  strong : h'.roots.strong = h.roots.strong.map (relocate place)
  soft : h'.roots.soft = h.roots.soft.map fun o =>
    relocate place (if clearSoft then h.kept clearSoft o else o)
  weak : h'.roots.weak = h.roots.weak.map fun o => relocate place (h.kept clearSoft o)
  traced : ∀ p, h'.Traced clearSoft p ↔ ∃ o, h.Traced clearSoft o ∧ place o = p

/-- What a collection does not look at does not matter. -/
theorem Alike.preserved {h h₁ h' : Heap} {clearSoft : Bool} {place : Nat → Nat} (a : h.Alike h₁)
    (g : h₁.Preserved clearSoft place h') : h.Preserved clearSoft place h' := by
  have halive : h₁.Alive clearSoft = h.Alive clearSoft := a.alive
  have hkept : h₁.kept clearSoft = h.kept clearSoft := by
    funext o
    rw [kept, kept, halive]
  have hmem := a.memory
  have hroots := a.roots
  obtain ⟨hinjective, hobject, hheader, hklass, hfield, hpayload, harchived, hstrong, hsoft, hweak,
    htraced⟩ := g
  rw [halive] at hinjective hobject hheader hklass hfield hpayload
  rw [hmem] at hklass hfield hpayload
  rw [a.isObject, a.inClosedArchive] at harchived
  rw [hroots] at hstrong hsoft hweak
  rw [hkept] at hsoft hweak
  rw [a.traced] at htraced
  exact ⟨hinjective, hobject, hheader, hklass, hfield, hpayload, harchived, hstrong, hsoft, hweak,
    htraced⟩

namespace Consistent

variable {h : Heap} {L : Layout} {clearSoft : Bool} {o p a n : Nat}

theorem alive_of_root (w : h.Consistent L) (hp : p ∈ h.markingRoots clearSoft) (hz : p ≠ 0) :
    h.Alive clearSoft p := by
  by_cases ha : h.InClosedArchive p
  · exact .inr ⟨w.root_isObject hp hz, ha⟩
  · exact .inl (.root hp hz ha)

theorem alive_of_referent (w : h.Consistent L) (ht : h.Traced clearSoft o)
    (hp : p ∈ Object.referents h.memory o) (hz : p ≠ 0) : h.Alive clearSoft p := by
  by_cases ha : h.InClosedArchive p
  · exact .inr ⟨w.referent_isObject ht hp hz, ha⟩
  · exact .inl (.field ht hp hz ha)

theorem payload_not_slot (w : h.Consistent L) (ho : h.IsObject o) (hp : h.IsObject p)
    (hn : Object.headerWords + Object.fieldCount h.memory o ≤ n)
    (hlt : n < Object.size h.memory o) : o + 8 * n ∉ Object.slots h.memory p := by
  intro hs
  have hb := Object.slots_bounds (w.formatted p hp) hs
  have he : o = p := by
    rcases Nat.lt_trichotomy o p with hop | hop | hop
    · have := w.apart ho hp hop
      unfold Object.limit at this
      omega
    · exact hop
    · have := w.apart hp ho hop
      omega
  subst he
  obtain ⟨i, hi, e⟩ := Object.mem_slots hs
  omega

end Consistent

end Heap

namespace Collector

variable {c f : Collector} {h h' : Heap} {L : Layout} {fill : Nat → List (Nat × Nat)}
  {m₃ : Memory} {x : Collector} {o p q a i n : Nat}

theorem redirect_eq (f : Collector) (o : Nat) :
    Object.redirect f.memory o = Heap.relocate f.place o := rfl

namespace Collected

variable (k : c.Collected h L f fill m₃ x h')

include k

theorem place_pos (ho : c.Carried h L f o) : 0 < f.place o := by
  cases ho with
  | slid hs =>
    obtain ⟨j, -, -, hplace, -⟩ := k.planned.spot_of_slides k.consistent hs
    exact Nat.lt_of_lt_of_le (L.bottom_pos j) hplace
  | moved m hm e =>
    rw [e, k.planned.place_of_move hm]
    exact L.bottom_pos _
  | kept i hi hk ho =>
    rw [(k.fixed_of_kept hi hk ho).1]
    exact Nat.lt_of_lt_of_le L.start_pos (k.consistent.object_of hi ho).1.start_le

theorem keeps_of_archive (hi : i < L.count) (ha : (h.region i).kind.isClosedArchive = true) :
    c.Keeps h f i := by
  have hfate : h.fate c.scope.clearSoft c.scope.threshold i = .skipMarking :=
    (k.consistent.fate_eq_skipMarking hi).mpr ha
  refine ⟨by rw [hfate]; simp, fun hl => ?_, fun m hm hl => ?_⟩
  · have := ((k.planned.mem i).mp hl).2
    rw [hfate] at this
    contradiction
  · have := (k.consistent.fate_of_leaves c.scope.threshold k.planned.moves hm hl).2
    rw [hfate] at this
    contradiction

theorem isClosedArchive_eq (hi : i < L.count) :
    (h'.region i).kind.isClosedArchive = (h.region i).kind.isClosedArchive := by
  cases ha : (h.region i).kind.isClosedArchive with
  | true => rw [(k.kept_of hi (k.keeps_of_archive hi ha)).kinds.2.2.2.2, ha]
  | false =>
    cases k.ended hi with
    | taken m _ _ hk _ => exact (RegionKind.not_of_humongous hk).2.2.1
    | empty _ hk _ => rw [hk]; rfl
    | filled _ _ hk _ _ => rw [hk]; rfl
    | kept _ r => rw [r.kinds.2.2.2.2, ha]

theorem inClosedArchive_eq : h'.InClosedArchive = h.InClosedArchive := by
  funext a
  rw [Heap.InClosedArchive, Heap.InClosedArchive, k.regionCount, k.consistent.regionCount]
  refine propext (exists_congr fun i => and_congr_right fun hi => ?_)
  have hl := k.consistent.laid hi
  have hl' : (h'.region i).Laid L i := by
    rw [k.region]
    exact k.moving.table.region i hi
  rw [k.isClosedArchive_eq hi, Region.contains, Region.contains, hl.bottom, hl.limit, hl'.bottom,
    hl'.limit]

/-- Objects neither leave a closed archive nor come into one. -/
theorem place_archived (ho : c.Carried h L f o) :
    h.InClosedArchive (f.place o) ↔ h.InClosedArchive o := by
  have w := k.consistent
  have hsize := w.size_ge (k.isObject_of_carried ho)
  -- the region of a closed archive is kept
  have hkeeps : h.InClosedArchive (f.place o) → ∃ i, c.Keeps h f i ∧ L.bottom i ≤ f.place o ∧
      f.place o < L.bottom i + L.bytes := by
    rintro ⟨i, hi, ha, hc⟩
    rw [w.regionCount] at hi
    simp only [Region.contains, (w.laid hi).bottom, (w.laid hi).limit, Bool.and_eq_true,
      decide_eq_true_eq] at hc
    exact ⟨i, k.keeps_of_archive hi ha, hc⟩
  cases ho with
  | slid hs =>
    have hnot : ¬h.InClosedArchive o := by
      obtain ⟨i, _, _, hlive⟩ := hs
      exact (Heap.mem_liveIn.mp hlive).2.not_archived
    refine iff_of_false (fun ha => ?_) hnot
    obtain ⟨i, hk, hfrom, hto⟩ := hkeeps ha
    exact k.spot_not_kept hs ⟨Nat.le_refl _, by omega⟩ hk hfrom hto
  | moved m hm e =>
    subst e
    have hnot := (k.planned.traced_of_move w hm).not_archived
    refine iff_of_false (fun ha => ?_) hnot
    obtain ⟨i, hk, hfrom, hto⟩ := hkeeps ha
    exact k.covers_not_kept hm (covers_of_spot w k.planned hm ⟨Nat.le_refl _, by omega⟩) hk hfrom
      hto
  | kept i hi hk ho => rw [(k.fixed_of_kept hi hk ho).1]

theorem place_of_archived (ho : h.IsObject o) (ha : h.InClosedArchive o) : f.place o = o := by
  cases k.carried_of_alive (.inr ⟨ho, ha⟩) with
  | slid hs =>
    obtain ⟨i, _, _, hlive⟩ := hs
    exact absurd ha (Heap.mem_liveIn.mp hlive).2.not_archived
  | moved m hm e => exact absurd ha (e ▸ (k.planned.traced_of_move k.consistent hm).not_archived)
  | kept i hi hk ho => exact (k.fixed_of_kept hi hk ho).1

theorem kind_of_field (ho : c.Carried h L f o) :
    Object.size h'.memory (f.place o) = Object.size h.memory o ∧
      Object.fieldCount h'.memory (f.place o) = Object.fieldCount h.memory o := by
  have hk := k.klass_of ho
  simp only [Object.size, Object.fieldCount, hk, and_self]

theorem read_of_field (ho : c.Carried h L f o) (hi : i < Object.fieldCount h.memory o) :
    Object.slot o i ∈ Object.slots h.memory o ∧ ¬h.IsObject (Object.slot o i) ∧
      h'.memory.read (Object.slot (f.place o) i) = m₃.read (Object.slot o i) := by
  have w := k.consistent
  have hobj := k.isObject_of_carried ho
  have hform := w.formatted o hobj
  have hpos : 0 < Object.headerWords + i := by unfold Object.headerWords; omega
  have hlt : Object.headerWords + i < Object.size h.memory o := by
    unfold Object.Formatted at hform
    omega
  exact ⟨List.mem_map.mpr ⟨i, List.mem_range.mpr hi, rfl⟩, w.inside_not_object hobj hpos hlt,
    k.word_of ho hpos hlt⟩

theorem field_of_traced (ht : h.Traced c.scope.clearSoft o)
    (hi : i < Object.fieldCount h.memory o) : h'.memory.read (Object.slot (f.place o) i) =
      Heap.relocate f.place (h.memory.read (Object.slot o i)) := by
  obtain ⟨hslot, hplain, hread⟩ := k.read_of_field (k.carried_of_alive (.inl ht)) hi
  rw [hread, k.adjusted.slot o ht _ hslot, redirect_eq,
    k.planned.read_of_not_object k.consistent hplain]

theorem field_of (s : h.SelfContained) (ho : h.Alive c.scope.clearSoft o)
    (hi : i < Object.fieldCount h.memory o) : h'.memory.read (Object.slot (f.place o) i) =
      Heap.relocate f.place (h.memory.read (Object.slot o i)) := by
  by_cases ht : h.Traced c.scope.clearSoft o
  · exact k.field_of_traced ht hi
  · obtain ⟨hobj, harch⟩ := ho.resolve_left ht
    obtain ⟨hslot, hplain, hread⟩ := k.read_of_field (k.carried_of_alive ho) hi
    rw [hread, k.read_of_plain hplain fun q hq ha =>
      ht (k.consistent.slots_disjoint hobj (k.consistent.traced_isObject hq) hslot ha ▸ hq)]
    -- closed archives refer only to objects that stay
    unfold Heap.relocate
    split
    · next hz => exact hz
    · next hz =>
      obtain ⟨hobject, harchived⟩ := s o hobj harch _ (List.mem_map.mpr ⟨_, hslot, rfl⟩) hz
      exact (k.place_of_archived hobject harchived).symm

theorem payload_of (ho : c.Carried h L f o)
    (hn : Object.headerWords + Object.fieldCount h.memory o ≤ n)
    (hlt : n < Object.size h.memory o) :
    h'.memory.read (f.place o + 8 * n) = h.memory.read (o + 8 * n) := by
  have w := k.consistent
  have hobj := k.isObject_of_carried ho
  have hpos : 0 < n := by unfold Object.headerWords at hn; omega
  exact (k.word_of ho hpos hlt).trans (k.read_of_plain (w.inside_not_object hobj hpos hlt)
    fun q hq => w.payload_not_slot hobj (w.traced_isObject hq) hn hlt)

theorem mem_markingRoots : p ∈ h'.markingRoots c.scope.clearSoft ↔
    ∃ o ∈ h.markingRoots c.scope.clearSoft, Heap.relocate f.place o = p := by
  rw [k.heap]
  cases hcs : c.scope.clearSoft with
  | true =>
    simp only [Heap.markingRoots, Heap.keptRoots, Roots.redirect, if_true, List.append_nil,
      List.mem_map]
    exact Iff.rfl
  | false =>
    simp only [Heap.markingRoots, Heap.keptRoots, Roots.redirect, Bool.false_eq_true, if_false,
      ← List.map_append, List.mem_map]
    exact Iff.rfl

/-- The roots of all kinds lead to objects that were live. -/
theorem alive_of_slot {s : Strength} (hp : p ∈ h'.roots.slots s) (hz : p ≠ 0) :
    ∃ o, h.Alive c.scope.clearSoft o ∧ f.place o = p := by
  have w := k.consistent
  have hplace : ∀ o, Heap.relocate f.place o = p → o ≠ 0 ∧ f.place o = p := by
    intro o e
    unfold Heap.relocate at e
    split at e
    · exact absurd e.symm hz
    · next ho => exact ⟨ho, e⟩
  have hkept : ∀ o, Heap.relocate f.place (h.kept c.scope.clearSoft o) = p →
      ∃ o, h.Alive c.scope.clearSoft o ∧ f.place o = p := by
    intro o e
    obtain ⟨hkept, hplaced⟩ := hplace _ e
    unfold Heap.kept at hkept hplaced
    split at hkept
    · next ha => exact ⟨o, ha, by rwa [if_pos ha] at hplaced⟩
    · contradiction
  rw [k.heap] at hp
  -- strong roots are only redirected, weak ones also cleared, and soft ones if asked for
  cases s with
  | strong =>
    obtain ⟨o, ho, e⟩ := List.mem_map.mp hp
    obtain ⟨hz, hplaced⟩ := hplace o e
    exact ⟨o, w.alive_of_root (List.mem_append_left _ ho) hz, hplaced⟩
  | weak =>
    obtain ⟨q, hq, e⟩ := List.mem_map.mp hp
    obtain ⟨o, -, rfl⟩ := List.mem_map.mp hq
    exact hkept o e
  | soft =>
    obtain ⟨q, hq, e⟩ := List.mem_map.mp hp
    cases hcs : c.scope.clearSoft with
    | false =>
      simp only [Heap.keptRoots, hcs, Bool.false_eq_true, if_false] at hq
      obtain ⟨hz, hplaced⟩ := hplace q e
      refine ⟨q, w.alive_of_root ?_ hz, hplaced⟩
      exact List.mem_append_right _ hq
    | true =>
      rw [← hcs]
      simp only [Heap.keptRoots, hcs, if_true] at hq
      obtain ⟨o, -, rfl⟩ := List.mem_map.mp hq
      exact hkept o (hcs ▸ e)

theorem traced_of_traced {clearSoft : Bool} (ht : h'.Traced clearSoft p) :
    ∃ o, h.Traced c.scope.clearSoft o ∧ f.place o = p := by
  have w := k.consistent
  have htraced : ∀ o, h.Alive c.scope.clearSoft o → ¬h'.InClosedArchive (f.place o) →
      h.Traced c.scope.clearSoft o := fun o ho ha => by
    rw [k.inClosedArchive_eq, k.place_archived (k.carried_of_alive ho)] at ha
    exact ho.resolve_right fun h' => ha h'.2
  induction ht with
  | @root p hp hz ha =>
    obtain ⟨s, hs⟩ : ∃ s, p ∈ h'.roots.slots s := by
      rcases List.mem_append.mp hp with hp | hp
      · exact ⟨.strong, hp⟩
      · cases clearSoft with
        | true => simp at hp
        | false => exact ⟨.soft, hp⟩
    obtain ⟨o, ho, rfl⟩ := k.alive_of_slot hs hz
    exact ⟨o, htraced o ho ha, rfl⟩
  | field _ hp hz ha ih =>
    obtain ⟨o, ho, rfl⟩ := ih
    obtain ⟨a, hs, rfl⟩ := List.mem_map.mp hp
    obtain ⟨i, hi, rfl⟩ := List.mem_map.mp hs
    rw [(k.kind_of_field (k.carried_of_alive (.inl ho))).2, List.mem_range] at hi
    rw [k.field_of_traced ho hi] at hz ha ⊢
    have hmem : h.memory.read (Object.slot o i) ∈ Object.referents h.memory o :=
      List.mem_map.mpr ⟨_, List.mem_map.mpr ⟨i, List.mem_range.mpr hi, rfl⟩, rfl⟩
    have hoz : h.memory.read (Object.slot o i) ≠ 0 := fun e => hz (by simp [Heap.relocate, e])
    have he : Heap.relocate f.place (h.memory.read (Object.slot o i)) = _ := if_neg hoz
    rw [he] at ha
    exact ⟨_, htraced _ (w.alive_of_referent ho hmem hoz) ha, he.symm⟩

/-- What is traced afterwards is what was traced, at its place. -/
theorem traced_iff : h'.Traced c.scope.clearSoft p ↔
    ∃ o, h.Traced c.scope.clearSoft o ∧ f.place o = p := by
  constructor
  · exact k.traced_of_traced
  · rintro ⟨o, ht, rfl⟩
    have hcarried : ∀ q, h.Traced c.scope.clearSoft q → f.place q ≠ 0 ∧
        ¬h'.InClosedArchive (f.place q) := fun q hq => by
      have hc := k.carried_of_alive (.inl hq)
      have := k.place_pos hc
      refine ⟨by omega, ?_⟩
      rw [k.inClosedArchive_eq, k.place_archived hc]
      exact hq.not_archived
    induction ht with
    | root ho hz ha =>
      obtain ⟨hnz, hnot⟩ := hcarried _ (.root ho hz ha)
      exact .root (k.mem_markingRoots.mpr ⟨_, ho, if_neg hz⟩) hnz hnot
    | @field o p ht hp hz ha ih =>
      obtain ⟨hnz, hnot⟩ := hcarried _ (.field ht hp hz ha)
      refine .field ih ?_ hnz hnot
      obtain ⟨a, hs, rfl⟩ := List.mem_map.mp hp
      obtain ⟨i, hi, rfl⟩ := List.mem_map.mp hs
      rw [List.mem_range] at hi
      refine List.mem_map.mpr ⟨Object.slot (f.place o) i, List.mem_map.mpr ⟨i, ?_, rfl⟩, ?_⟩
      · rw [(k.kind_of_field (k.carried_of_alive (.inl ht))).2, List.mem_range]
        exact hi
      · rw [k.field_of_traced ht hi]
        exact if_neg hz

/-- A collection preserves the graph. -/
theorem preserved (s : h.SelfContained) : h.Preserved c.scope.clearSoft f.place h' := by
  refine ⟨fun o p ho hp => k.place_injective (k.carried_of_alive ho) (k.carried_of_alive hp),
    fun o ho => k.isObject_place (k.carried_of_alive ho),
    fun o ho => k.header_of (k.carried_of_alive ho),
    fun o ho => k.klass_of (k.carried_of_alive ho), fun o ho i => k.field_of s ho,
    fun o ho n => k.payload_of (k.carried_of_alive ho), fun o => k.place_of_archived, ?_, ?_, ?_,
    fun p => k.traced_iff⟩
  · rw [k.heap]
    rfl
  · rw [k.heap]
    show List.map _ (if _ then _ else _) = _
    split
    · rw [List.map_map]
      rfl
    · rfl
  · rw [k.heap]
    show List.map _ (List.map _ _) = _
    rw [List.map_map]
    rfl

end Collected

end Collector

end RegionHeap
