import RegionHeap.Proofs.History

/-!
Regions that do not move: archives, and regions that someone pins. Whether the regions of a
humongous object stay is decided by the pins of the first one alone, so that a pin on a later one
does not hold anything.
-/
set_option autoImplicit false

namespace RegionHeap

namespace Heap

/-- A collection leaves a region alone. Nothing in it moves and nothing comes in; its words stay
but for the references of live objects, which follow their objects. -/
structure Undisturbed (h : Heap) (L : Layout) (clearSoft : Bool) (place : Nat → Nat) (h' : Heap)
    (i : Nat) : Prop where
  objects : ∀ o, h.Alive clearSoft o → ∀ a, o ≤ a → a < Object.limit h.memory o →
    L.regionOf a = i → place o = o
  incoming : ∀ o, h.Alive clearSoft o → ∀ a, h.Spot place o a → L.regionOf a = i → place o = o
  kind : (h'.region i).kind =
    if (h.region i).kind.isYoung then .old else (h.region i).kind
  humongousStart : (h'.region i).humongousStart = (h.region i).humongousStart
  top : (h'.region i).top = (h.region i).top
  references : ∀ o, h.Traced clearSoft o → ∀ a ∈ Object.slots h.memory o, L.bottom i ≤ a →
    a < L.bottom i + L.bytes → h'.memory.read a = relocate place (h.memory.read a)
  words : ∀ a, L.bottom i ≤ a → a < L.bottom i + L.bytes →
    (∀ o, h.Traced clearSoft o → a ∉ Object.slots h.memory o) →
    h'.memory.read a = h.memory.read a
  archive : (h.region i).kind.isClosedArchive = true → ∀ a, L.bottom i ≤ a →
    a < L.bottom i + L.bytes → h'.memory.read a = h.memory.read a

/-- A later region of a humongous object whose first region nobody pins. -/
def Loose (h : Heap) (i : Nat) : Prop :=
  (h.region i).kind.isContinuesHumongous = true ∧ (h.region (h.owner i)).isPinned = false

variable {h h₁ h' : Heap} {L : Layout} {clearSoft : Bool} {threshold i : Nat} {place : Nat → Nat}

theorem WellFormed.withoutRoots (w : h.WellFormed L) :
    ({ h with roots := {} } : Heap).WellFormed L := by
  have hreached : ∀ o, ({ h with roots := {} } : Heap).Reached o →
      ({ h with roots := {} } : Heap).IsObject o := fun o ho => absurd ho (not_reached rfl)
  refine ⟨⟨⟨⟨w.options, w.start, w.bytes, w.table, w.gang, w.free, w.dense, w.formatted, w.blocks,
    fun s hs hk => ?_, w.continued, w.unforwarded, w.linked⟩, .of_reached hreached⟩, w.liveness,
    w.unmarked⟩, hreached, w.archived⟩
  have spans := w.humongous s hs hk
  exact ⟨spans.within, spans.first, spans.later, spans.covered⟩

theorem Alike.undisturbed (a : h.Alike h₁) (u : h₁.Undisturbed L clearSoft place h' i) :
    h.Undisturbed L clearSoft place h' i := by
  obtain ⟨s, hs⟩ := a.region i
  have hspot : h₁.Spot place = h.Spot place := by
    funext o b
    rw [Spot, Spot, a.memory]
  obtain ⟨hobjects, hincoming, hkind, hstart, htop, hreferences, hwords, harchive⟩ := u
  rw [a.alive] at hobjects hincoming
  rw [a.memory] at hobjects hreferences hwords harchive
  rw [hspot] at hincoming
  rw [a.traced] at hreferences hwords
  rw [hs] at hkind hstart htop harchive
  exact ⟨hobjects, hincoming, hkind, hstart, htop, hreferences, hwords, harchive⟩

theorem Consistent.archived_of_word {o a : Nat} (w : h.Consistent L) (ho : h.IsObject o)
    (hfrom : o ≤ a) (hto : a < Object.limit h.memory o)
    (ha : (h.region (L.regionOf a)).kind.isClosedArchive = true) : h.InClosedArchive o := by
  obtain ⟨hword, hmem⟩ := w.mem_objectsIn ho
  have hj := hword.regionOf_lt
  rw [w.inClosedArchive_iff hword]
  obtain ⟨hbot, hlt⟩ := Layout.bounds_of_regionOf (Nat.le_trans hword.start_le hfrom) rfl
  rcases Built.cases_of_mem hmem with hord | hs
  · have hin := w.within_of hj hord hmem
    rw [← Layout.regionOf_eq (L := L) (i := L.regionOf o) (a := a) (by omega) (by omega)]
    exact ha
  · have hb : o = L.bottom (L.regionOf o) := by
      simpa [w.objectsIn_humongous hj hs] using hmem
    have hspan := w.limit_le_span hj
    rw [← hb] at hspan
    have hin := Layout.between (L := L) (i := L.regionOf o) (by omega)
      (Nat.lt_of_lt_of_le hto hspan) hbot hlt
    rcases Nat.eq_or_lt_of_le hin.1 with e | hlater
    · rw [e]
      exact ha
    · rw [((w.humongous _ hj hs).later _ hlater hin.2).1] at ha
      contradiction

/-- Pinned regions are to stay, except open archives without live objects and loose regions. -/
theorem Consistent.fate_of_pinned (w : h.Consistent L) (hi : i < L.count)
    (hp : (h.region i).isPinned = true) (hfree : (h.region i).kind.isFree = false)
    (hopen : ¬((h.region i).kind.isOpenArchive = true ∧ h.liveIn clearSoft i = []))
    (hloose : ¬h.Loose i) : h.fate clearSoft threshold i = .skipMarking ∨
      h.fate clearSoft threshold i = .skipCompacting ∧ (h.region (h.owner i)).isPinned = true := by
  cases hc : (h.region i).kind.isContinuesHumongous with
  | true =>
    have howner : (h.region (h.owner i)).isPinned = true := by
      cases he : (h.region (h.owner i)).isPinned with
      | true => rfl
      | false => exact absurd ⟨hc, he⟩ hloose
    have hs := (w.owner_of_continues hi hc).2.1
    refine .inr ⟨?_, howner⟩
    rw [fate_of_owner hs rfl, if_pos (.inr howner)]
  | false =>
    rw [fate, owner_of_not_continues hc, ownFate]
    by_cases harch : (h.region i).kind.isClosedArchive = true
    · simp [hfree, harch]
    · by_cases hs : (h.region i).kind.isStartsHumongous = true
      · simp [hfree, harch, hs, hp]
      · have hlive : ¬((h.region i).kind.isOpenArchive = true ∧ h.liveWords clearSoft i = 0) :=
          fun e => hopen ⟨e.1, (w.liveWords_eq_zero hi).mp e.2⟩
        simp [hfree, harch, hs, hp, hlive]

end Heap

namespace Collector

variable {c f : Collector} {h h' : Heap} {L : Layout} {fill : Nat → List (Nat × Nat)}
  {m₃ : Memory} {x : Collector} {o a i : Nat}

namespace Collected

variable (k : c.Collected h L f fill m₃ x h')

include k

theorem keeps_of_fate (hf : h.fate c.scope.clearSoft c.scope.threshold i = .skipMarking ∨
    h.fate c.scope.clearSoft c.scope.threshold i = .skipCompacting ∧
      (h.region (h.owner i)).isPinned = true) (hi : i < L.count) : c.Keeps h f i := by
  have w := k.consistent
  rcases hf with hf | ⟨hf, hp⟩
  · exact k.keeps_of_archive hi ((w.fate_eq_skipMarking hi).mp hf)
  · refine ⟨by rw [hf]; simp, fun hl => ?_, fun m hm hl => ?_⟩
    · have := ((k.planned.mem i).mp hl).2
      rw [hf] at this
      contradiction
    · obtain ⟨hs, hmove, hn⟩ := k.planned.moves.source m hm
      rw [(w.owner_eq_iff hi hs hmove.1).mpr (hn ▸ hl), hmove.2.2] at hp
      contradiction

theorem read_of_keeps (hk : c.Keeps h f i) (hfrom : L.bottom i ≤ a)
    (hto : a < L.bottom i + L.bytes) :
    f.memory.read a = h.memory.read a ∧ h'.memory.read a = m₃.read a := by
  have w := k.consistent
  have hr := Layout.regionOf_eq hfrom hto
  refine ⟨k.planned.memory a ?_ fun m hm e => ?_, ?_⟩
  · rintro ⟨j, hj, hf, ho⟩
    rw [w.regionCount] at hj
    rw [(w.liveIn_inside hj ho).2.1] at hr
    exact hk.unlisted ((k.planned.mem i).mpr ⟨hr ▸ hj, hr ▸ hf⟩)
  · have := (k.planned.within_of_move w hm).1
    rw [e, L.regionOf_bottom] at hr
    exact hk.stays m hm ⟨by omega, by omega⟩
  · rw [k.memory]
    exact k.moving.read_of_kept w k.planned hk hfrom hto

theorem place_of_word (hi : i < L.count) (hk : c.Keeps h f i) (ho : h.Alive c.scope.clearSoft o)
    (hfrom : o ≤ a) (hto : a < Object.limit h.memory o) (hr : L.regionOf a = i) :
    f.place o = o := by
  have w := k.consistent
  have carried := k.carried_of_alive ho
  have hstart := (w.mem_objectsIn (k.isObject_of_carried carried)).1.start_le
  obtain ⟨hbottom, hend⟩ := Layout.bounds_of_regionOf (Nat.le_trans hstart hfrom) hr
  cases carried with
  | slid hs =>
    obtain ⟨j, hj, hf, hlive⟩ := hs
    rw [w.regionCount] at hj
    have hord := ((w.fate_eq_compacting hj).mp hf).1
    have hwithin := w.within_of hj hord (Heap.mem_liveIn.mp hlive).1
    rw [Layout.regionOf_eq (i := j) (by omega) (by omega)] at hr
    exact absurd ((k.planned.mem i).mpr ⟨hi, hr ▸ hf⟩) hk.unlisted
  | moved m hm e =>
    subst e
    have hlimit := (k.planned.within_of_move w hm).2.2.1
    exact absurd (Layout.between hfrom (by omega) hbottom hend) (hk.stays m hm)
  | kept j hj hk' ho => exact (k.fixed_of_kept hj hk' ho).1

theorem place_of_spot (hk : c.Keeps h f i) (ho : h.Alive c.scope.clearSoft o)
    (ha : h.Spot f.place o a) (hr : L.regionOf a = i) : f.place o = o := by
  have w := k.consistent
  cases k.carried_of_alive ho with
  | slid hs =>
    obtain ⟨j, -, -, hplace, -⟩ := k.planned.spot_of_slides w hs
    obtain ⟨hbottom, hend⟩ := Layout.bounds_of_regionOf
      (Nat.le_trans (L.start_le_bottom j) (Nat.le_trans hplace ha.1)) hr
    exact (k.spot_not_kept hs ha hk hbottom hend).elim
  | moved m hm e =>
    subst e
    have hc := covers_of_spot w k.planned hm ha
    obtain ⟨hbottom, hend⟩ := Layout.bounds_of_regionOf (Nat.le_trans (L.start_le_bottom _) hc.1) hr
    exact (k.covers_not_kept hm hc hk hbottom hend).elim
  | kept j hj hk' ho => exact (k.fixed_of_kept hj hk' ho).1

/-- A region that keeps its objects is left alone. -/
theorem undisturbed_of_keeps (hi : i < L.count) (hk : c.Keeps h f i) :
    h.Undisturbed L c.scope.clearSoft f.place h' i := by
  have w := k.consistent
  have r := k.kept_of hi hk
  refine ⟨fun o ho a hfrom hto hr => k.place_of_word hi hk ho hfrom hto hr,
    fun o ho a ha hr => k.place_of_spot hk ho ha hr, r.kind, r.humongousStart, r.top,
    fun o ho a ha hfrom hto => ?_, fun a hfrom hto hs => ?_, fun harch a hfrom hto => ?_⟩ <;>
    obtain ⟨hbefore, hafter⟩ := k.read_of_keeps hk hfrom hto
  · rw [hafter, k.adjusted.slot o ho a ha, hbefore, redirect_eq]
  · rw [hafter, k.adjusted.other a hs, hbefore]
  · rw [hafter, k.adjusted.other a fun o ho ha => ?_, hbefore]
    have hobj := w.traced_isObject ho
    have hb := Object.slots_bounds (w.formatted o hobj) ha
    exact ho.not_archived (w.archived_of_word hobj (a := a) (by omega) (by omega)
      (by rw [Layout.regionOf_eq hfrom hto]; exact harch))

end Collected

end Collector

namespace Heap

variable {h : Heap} {L : Layout} {i : Nat}

/-- Which pinned regions, archives among them, full collections leave alone whatever the roots are:
all but the loose ones. An open archive may be freed once nothing in it is live. -/
theorem fullCollect_leaves_pinned_iff (w : h.WellFormed L) (hi : i < h.regionCount)
    (hfree : (h.region i).kind.isFree = false) (hp : (h.region i).isPinned = true) :
    (∀ roots : Roots, ({ h with roots := roots } : Heap).WellFormed L →
      ∀ explicitRequest clearSoft maximal, ∃ (place : Nat → Nat) (h' : Heap),
        ({ h with roots := roots } : Heap).fullCollect explicitRequest clearSoft maximal = .ok h' ∧
        ({ h with roots := roots } : Heap).Preserved clearSoft place h' ∧
        (¬((h.region i).kind.isOpenArchive = true ∧
            ({ h with roots := roots } : Heap).liveIn clearSoft i = []) →
          ({ h with roots := roots } : Heap).Undisturbed L clearSoft place h' i)) ↔
    ¬h.Loose i := by
  rw [w.regionCount] at hi
  constructor
  · intro hall hloose
    -- without roots the object is dead, and all of its regions are freed
    have wr := w.withoutRoots
    obtain ⟨place, h', hrun, -, u⟩ := hall {} wr false false false
    obtain ⟨h₁, c, f, fill, m₃, x, h'', hrun', a, -, k⟩ :=
      fullCollect_of wr.toClean false false false
    obtain rfl : h' = h'' := Except.ok.inj (hrun.symm.trans hrun')
    have hkind : (h.region i).kind = .continuesHumongous := by
      simpa [RegionKind.isContinuesHumongous] using hloose.1
    have hkept := (u (by rw [hkind]; simp [RegionKind.isOpenArchive])).kind
    have hsame : (({ h with roots := {} } : Heap).region i).kind = .continuesHumongous := hkind
    rw [hsame] at hkept
    have hnone : ∀ o, ¬h₁.Traced c.scope.clearSoft o := fun o ht =>
      not_reached rfl (a.reached ht.reached)
    cases k.ended hi with
    | taken m hm _ _ _ => exact hnone _ (k.planned.traced_of_move k.consistent hm)
    | empty _ hk _ =>
      rw [hkept] at hk
      contradiction
    | filled _ _ hk _ _ =>
      rw [hkept] at hk
      contradiction
    | kept keeps _ =>
      refine keeps.used ?_
      have hstarts := kind_eq_starts (w.owner_of_continues hi hloose.1).2.1
      have hlive : h₁.liveIn c.scope.clearSoft (h.owner i) = [] :=
        List.eq_nil_iff_forall_not_mem.mpr fun o ho => hnone o (mem_liveIn.mp ho).2
      have howner : h₁.owner i = h.owner i := congrFun a.owner i
      have hk₁ : (h₁.region (h.owner i)).kind = .startsHumongous := (a.kind _).1.trans hstarts
      have hp₁ : (h₁.region (h.owner i)).isPinned = false := (a.kind _).2.trans hloose.2
      rw [fate_of_owner (by rw [hk₁]; rfl) howner, if_neg (by simp [hlive, hp₁])]
  · intro hloose roots wr explicitRequest clearSoft maximal
    obtain ⟨h₁, c, f, fill, m₃, x, h', hrun, a, hscope, k⟩ :=
      fullCollect_of wr.toClean explicitRequest clearSoft maximal
    have hclear : c.scope.clearSoft = clearSoft := by
      rw [hscope]
      rfl
    subst hclear
    refine ⟨f.place, h', hrun, a.preserved (k.preserved (a.selfContained wr.archived)),
      fun hopen => a.undisturbed ?_⟩
    refine k.undisturbed_of_keeps hi (k.keeps_of_fate ?_ hi)
    rw [a.fate, a.owner, (a.kind _).2]
    exact wr.fate_of_pinned hi hp hfree hopen hloose

theorem sample_undisturbed : ∃ h L place h', sample = .ok h ∧ h.WellFormed L ∧
    (h.region 5).isPinned = true ∧ h.fullCollect true false false = .ok h' ∧
    h.Preserved false place h' ∧ h.Undisturbed L false place h' 5 := by
  obtain ⟨h, L, hs, w⟩ := sample_wellFormed
  have hi := of_sample (f := fun h => decide (5 < h.regionCount)) (v := true) hs (by decide +kernel)
  have hk := of_sample (f := fun h => (h.region 5).kind) (v := .startsHumongous) hs
    (by decide +kernel)
  have hp := of_sample (f := fun h => (h.region 5).isPinned) (v := true) hs (by decide +kernel)
  have hloose : ¬h.Loose 5 := fun hl => by
    have := hl.1
    rw [hk] at this
    exact absurd this (by decide)
  obtain ⟨place, h', hrun, hkept, hsame⟩ := (fullCollect_leaves_pinned_iff w (of_decide_eq_true hi)
    (by rw [hk]; rfl) hp).mpr hloose h.roots w true false false
  refine ⟨h, L, place, h', hs, w, hp, hrun, hkept, hsame fun ho => ?_⟩
  rw [hk] at ho
  exact absurd ho.1 (by decide)

end Heap

end RegionHeap
