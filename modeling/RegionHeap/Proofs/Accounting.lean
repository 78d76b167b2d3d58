import RegionHeap.Proofs.History

/-!
What a heap knows about its regions. That a region is free is known to its kind, its top, its
marks and the free list; that it belongs to a humongous object, to itself and to the object. These
agree in every heap that was operated on and collected.
-/
set_option autoImplicit false

namespace RegionHeap.Heap

variable {h : Heap} {L : Layout} {i s : Nat}

/-- A region belongs to the humongous object that begins in another, or in itself. -/
def InBlock (h : Heap) (s i : Nat) : Prop :=
  (h.region s).kind.isStartsHumongous ∧ s ≤ i ∧ i < s + h.humongousSpan (h.region s)

/-- The regions of the humongous object that begins in a region: as many as the object needs, one
behind the other. All but the last are full, and so is the last one if the object leaves room for a
filler, or none at all. -/
structure Block (h : Heap) (s : Nat) : Prop where
  pos : 0 < h.humongousSpan (h.region s)
  within : s + h.humongousSpan (h.region s) ≤ h.regionCount
  start : (h.region s).humongousStart = some s
  later : ∀ i, s < i → i < s + h.humongousSpan (h.region s) →
    (h.region i).kind = .continuesHumongous ∧ (h.region i).humongousStart = some s
  full : ∀ i, s ≤ i → i + 1 < s + h.humongousSpan (h.region s) →
    (h.region i).top = (h.region i).limit
  last : (h.region (s + h.humongousSpan (h.region s) - 1)).top =
    if (h.region (s + h.humongousSpan (h.region s) - 1)).limit <
        Object.limit h.memory (h.region s).bottom + 8 * Object.minFillWords then
      Object.limit h.memory (h.region s).bottom
    else (h.region (s + h.humongousSpan (h.region s) - 1)).limit

structure Accounted (h : Heap) : Prop where
  ascending : h.freeList.ids.Pairwise (· < ·)
  listed : ∀ i, i ∈ h.freeList.ids ↔ i < h.regionCount ∧ (h.region i).kind.isFree = true
  counted : h.freeCount + h.usedCount = h.regionCount
  used : h.usedCount = (List.range h.regionCount).countP fun i => !(h.region i).kind.isFree
  free : ∀ i, i < h.regionCount → (h.region i).kind.isFree →
    (h.region i).Blank ∧ h.liveness.isRegionMarked i = .ok false
  block : ∀ s, s < h.regionCount → (h.region s).kind.isStartsHumongous → h.Block s
  /-- Every region of a humongous object belongs to one. -/
  blocks : ∀ i, i < h.regionCount → (h.region i).kind.isHumongous →
    ∃ s, h.InBlock s i ∧ ∀ s', h.InBlock s' i → s' = s

theorem Tidy.block (t : h.Tidy L) (hs : s < L.count) (hk : (h.region s).kind.isStartsHumongous) :
    h.Block s := by
  have hspans := t.humongous s hs hk
  have hpos := t.span_pos hs hk
  have hlast := t.laid (show s + h.humongousSpan (h.region s) - 1 < L.count by
    have := hspans.within
    omega)
  have hend : (h.region (s + h.humongousSpan (h.region s) - 1)).limit =
      L.bottom (s + h.humongousSpan (h.region s)) := by
    rw [hlast.limit, L.bottom_of_pos (i := s + h.humongousSpan (h.region s)) (by omega)]
  refine ⟨hpos, by rw [t.regionCount]; exact hspans.within, hspans.first, hspans.later,
    fun i hfrom hto => ?_, ?_⟩
  · have hl := t.laid (show i < L.count by
      have := hspans.within
      omega)
    rw [hl.limit, ← L.bottom_succ]
    exact (t.seated s hs hk).table.full i hfrom hto
  · rw [hend, (t.laid hs).bottom]
    exact (t.seated s hs hk).table.last

theorem Tidy.accounted (t : h.Tidy L) : h.Accounted := by
  have hcount := t.regionCount
  have hids : h.freeList.ids = (List.range L.count).filter fun i => (h.region i).kind.isFree :=
    congrArg IndexList.ids t.freeList
  have hstarts : ∀ s i, i < L.count → h.InBlock s i → s < L.count := fun s i hi hb =>
    Nat.lt_of_le_of_lt hb.2.1 hi
  have hfree : h.freeCount = (List.range L.count).countP fun i => (h.region i).kind.isFree := by
    rw [freeCount, IndexList.length, hids, List.countP_eq_length_filter]
  have hall := List.length_eq_countP_add_countP (fun i => (h.region i).kind.isFree)
    (l := List.range L.count)
  rw [List.length_range, ← hfree, ← hcount] at hall
  refine ⟨?_, fun i => hcount ▸ t.mem_iff, ?_, ?_, fun i hi hk => ?_, fun s hs hk => ?_,
    fun i hi hk => ?_⟩
  · rw [hids]
    exact List.pairwise_lt_range.filter _
  · unfold usedCount
    omega
  · simp only [Bool.not_eq_true, Bool.decide_eq_false] at hall
    unfold usedCount
    omega
  · rw [hcount] at hi
    refine ⟨t.blank i hi hk, ?_⟩
    rw [LivenessMap.isRegionMarked, t.liveness.slice_of hi]
    exact congrArg Except.ok (t.reset i hi)
  · exact t.block (hcount ▸ hs) hk
  · rw [hcount] at hi
    obtain ⟨s, hs, hks, hfrom, hto⟩ := t.block_of hi hk
    exact ⟨s, ⟨hks, hfrom, hto⟩, fun s' hb =>
      t.block_unique (hstarts s' i hi hb) hs hb.1 hks hb.2.1 hb.2.2 hfrom hto⟩

/-- However a heap was operated on and collected, its records agree, and they still do after
anything else that is allowed, which is never refused. -/
theorem Made.records_agree (m : h.Made) :
    h.Accounted ∧
    (∀ op, h.Permits op → ∃ h', h.perform op = .ok h' ∧ h'.Accounted) ∧
    (h.Referring → ∀ explicitRequest clearSoft maximal,
      ∃ h', h.fullCollect explicitRequest clearSoft maximal = .ok h' ∧ h'.Accounted) := by
  obtain ⟨L, t⟩ := m.tidy
  refine ⟨t.accounted, fun op hp => ?_, fun r explicitRequest clearSoft maximal => ?_⟩
  · obtain ⟨h', hrun, t'⟩ := t.perform_of hp
    exact ⟨h', hrun, t'.accounted⟩
  · obtain ⟨h', hrun, t'⟩ := t.collect_of r explicitRequest clearSoft maximal
    exact ⟨h', hrun, t'.accounted⟩

theorem sample_records_agree : ∃ h, sample = .ok h ∧ h.Made ∧ h.Accounted ∧
    (h.region 5).kind = .startsHumongous ∧
    ∃ h', h.perform (.freeHumongous [5]) = .ok h' ∧ h'.Accounted := by
  obtain ⟨h, hs, m⟩ := sample_made
  obtain ⟨haccounted, hnext, -⟩ := m.records_agree
  have hk := of_sample (f := fun h => (h.region 5).kind) (v := .startsHumongous) hs
    (by decide +kernel)
  have hp := of_sample (f := fun h => decide (h.Permits (.freeHumongous [5]))) (v := true) hs
    (by decide +kernel)
  exact ⟨h, hs, m, haccounted, hk, hnext _ (of_decide_eq_true hp)⟩

end RegionHeap.Heap
