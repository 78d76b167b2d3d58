import RegionHeap.Proofs.Graph
import RegionHeap.Proofs.Releasing

/-!
The heap after a collection is tidy again, so that operations and collections can follow each other.
-/
set_option autoImplicit false

namespace RegionHeap

namespace Collector

variable {c f : Collector} {h h' : Heap} {L : Layout} {fill : Nat → List (Nat × Nat)}
  {m₃ : Memory} {x : Collector} {i s : Nat}

namespace Collected

variable (k : c.Collected h L f fill m₃ x h')

include k

theorem laid_of (hi : i < L.count) : (h'.region i).Laid L i := by
  rw [k.region]
  exact k.moving.table.region i hi

theorem free_of (hi : i < L.count) (hk : (h'.region i).kind.isFree = true) :
    (h'.region i).top = L.bottom i :=
  ((k.ended hi).of_free hk).2.1

theorem ordinary_of (hi : i < L.count) (hk : (h'.region i).kind.isOrdinary = true) :
    Object.Chain h'.memory (L.bottom i) (h'.objectsIn i) (h'.region i).top ∧
      (h'.region i).blocks.Sound (h'.objectsIn i) (h'.region i).top := by
  have w := k.consistent
  cases k.ended hi with
  | taken m _ _ hk' _ =>
    rw [(RegionKind.not_of_humongous hk').2.1] at hk
    contradiction
  | empty _ hk' _ =>
    rw [hk'] at hk
    contradiction
  | filled hl _ hk' ht hb =>
    rw [k.objectsIn_filled hl hk' ht, ht, hb, k.memory]
    exact ⟨k.moving.chain_of_filled w k.planned k.adjusted hl, (k.planned.filled i hl).sound⟩
  | kept keeps r =>
    have hord := r.kinds.1 ▸ hk
    rw [k.objectsIn_kept hi keeps r, r.top, r.blocks, k.memory]
    exact ⟨k.moving.chain_of_kept w k.planned k.adjusted hi hord keeps, w.blocks i hi hord⟩

theorem starts_of (hi : i < L.count) (hk : (h'.region i).kind.isStartsHumongous = true) :
    (∃ m ∈ f.moves, i = m.target) ∨
      c.Keeps h f i ∧ (h.region i).kind.isStartsHumongous = true := by
  rcases (k.ended hi).of_humongous (by rw [RegionKind.isHumongous, hk]; rfl) with
    ⟨m, hm, ht⟩ | ⟨keeps, r⟩
  · refine .inl ⟨m, hm, ?_⟩
    by_cases e : i = m.target
    · exact e
    · have hlater : (h'.region i).kind = .continuesHumongous := by
        rw [k.region]
        exact ((k.moving.taken m hm).later i (by have := ht.1; omega) ht.2).1
      rw [hlater] at hk
      contradiction
  · exact .inr ⟨keeps, r.kinds.2.2.1 ▸ hk⟩

theorem span_of_taken {m : HumongousMove} (hm : m ∈ f.moves) :
    h'.humongousSpan (h'.region m.target) = m.count := by
  have hn := k.planned.within_of_move k.consistent hm
  have hdown := k.planned.moves.down m hm
  obtain ⟨hs, -, hcount⟩ := k.planned.source_of hm
  have hsize := (k.kind_of_field (.moved m hm rfl)).1
  rw [k.planned.place_of_move hm] at hsize
  rw [hcount, Heap.humongousSpan, Heap.humongousSpan, (k.laid_of (by omega)).bottom,
    (k.consistent.laid hs).bottom, hsize]
  rw [k.heap]
  rfl

theorem span_of_kept (hi : i < L.count) (hk : c.Keeps h f i)
    (hs : (h.region i).kind.isStartsHumongous = true) :
    h'.humongousSpan (h'.region i) = h.humongousSpan (h.region i) := by
  have hmem : L.bottom i ∈ h.objectsIn i := by simp [k.consistent.objectsIn_humongous hi hs]
  have hsize := (k.kind_of_field (.kept i hi hk hmem)).1
  rw [(k.fixed_of_kept hi hk hmem).1] at hsize
  rw [Heap.humongousSpan, Heap.humongousSpan, (k.laid_of hi).bottom,
    (k.consistent.laid hi).bottom, hsize]
  rw [k.heap]
  rfl

theorem spans_of (hi : i < L.count) (hk : (h'.region i).kind.isStartsHumongous = true) :
    h'.Spans L i := by
  have w := k.consistent
  -- the object was moved to these regions, or it was here before
  rcases k.starts_of hi hk with ⟨m, hm, rfl⟩ | ⟨keeps, hs⟩
  · have v := k.moving.taken m hm
    have hn := k.planned.within_of_move w hm
    have hdown := k.planned.moves.down m hm
    have hsize := (k.kind_of_field (.moved m hm rfl)).1
    rw [k.planned.place_of_move hm] at hsize
    refine ⟨?_, ?_, fun j hfrom hto => ?_, fun j hfrom hto => ?_⟩
    · rw [k.span_of_taken hm]
      omega
    · rw [k.region]
      exact v.starts.2
    · rw [k.span_of_taken hm] at hto
      rw [k.region]
      exact v.later j hfrom hto
    · rw [k.span_of_taken hm] at hto
      rw [k.region, Object.limit, hsize]
      exact v.covered (k.planned.fits_of_move w hm).1 ⟨hfrom, hto⟩
  · have spans := w.humongous i hi hs
    have hspan := k.span_of_kept hi keeps hs
    have hmem : L.bottom i ∈ h.objectsIn i := by simp [w.objectsIn_humongous hi hs]
    have hsize := (k.kind_of_field (.kept i hi keeps hmem)).1
    rw [(k.fixed_of_kept hi keeps hmem).1] at hsize
    have hkept : ∀ j, i ≤ j → j < i + h.humongousSpan (h.region i) →
        Kept (h.region j) (h'.region j) := fun j hfrom hto =>
      k.kept_of (Nat.lt_of_lt_of_le hto spans.within) ((k.keeps_iff hi hs ⟨hfrom, hto⟩).mpr keeps)
    refine ⟨?_, ?_, fun j hfrom hto => ?_, fun j hfrom hto => ?_⟩
    · rw [hspan]
      exact spans.within
    · rw [(k.kept_of hi keeps).humongousStart]
      exact spans.first
    · rw [hspan] at hto
      have r := hkept j (by omega) hto
      have hl := spans.later j hfrom hto
      rw [r.humongousStart, r.kind, hl.1]
      exact ⟨rfl, hl.2⟩
    · rw [hspan] at hto
      rw [(hkept j hfrom hto).top, Object.limit, hsize]
      exact spans.covered j hfrom hto

theorem continued_of (hi : i < L.count) (hk : (h'.region i).kind.isContinuesHumongous = true) :
    ∃ s, s < i ∧ (h'.region s).kind.isStartsHumongous ∧
      i < s + h'.humongousSpan (h'.region s) := by
  have w := k.consistent
  rcases (k.ended hi).of_humongous (by rw [RegionKind.isHumongous, hk, Bool.or_true]) with
    ⟨m, hm, ht⟩ | ⟨keeps, r⟩
  · have v := k.moving.taken m hm
    have hstarts : (h'.region m.target).kind = .startsHumongous := by
      rw [k.region]
      exact v.starts.1
    have hne : m.target ≠ i := fun e => by
      rw [← e, hstarts] at hk
      contradiction
    refine ⟨m.target, ?_, by rw [hstarts]; rfl, ?_⟩
    · have := ht.1
      omega
    · rw [k.span_of_taken hm]
      exact ht.2
  · obtain ⟨s, hlt, hstarts, hto⟩ := w.continued i hi (r.kinds.2.2.2.1 ▸ hk)
    have hs : s < L.count := Nat.lt_trans hlt hi
    have hkeeps := (k.keeps_iff hs hstarts ⟨Nat.le_of_lt hlt, hto⟩).mp keeps
    refine ⟨s, hlt, ?_, ?_⟩
    · rw [(k.kept_of hs hkeeps).kinds.2.2.1]
      exact hstarts
    · rw [k.span_of_kept hs hkeeps hstarts]
      exact hto

theorem built : h'.Built L := by
  have w := k.consistent
  have hsame : h'.options = h.options ∧ h'.start = h.start ∧ h'.gang = h.gang ∧
      h'.candidates = h.candidates ∧ h'.table = x.heap.table := by
    rw [k.heap]
    exact ⟨rfl, rfl, rfl, rfl, rfl⟩
  refine ⟨by rw [hsame.1]; exact w.options, hsame.2.1.trans w.start,
    by rw [Heap.regionBytes, hsame.1]; exact w.bytes, by rw [hsame.2.2.2.2]; exact k.moving.table,
    by rw [hsame.2.2.1]; exact w.gang, fun i => k.free_of, fun i hi hk => ?_, fun p hp => ?_,
    fun i hi hk => (k.ordinary_of hi hk).2, fun s => k.spans_of, fun i => k.continued_of,
    fun p hp => ?_, ?_⟩
  · have hchain := (k.ordinary_of hi hk).1.walkEnd_eq
    rw [Region.isDense, (k.laid_of hi).bottom, hchain]
    exact beq_self_eq_true _
  · obtain ⟨o, hc, rfl⟩ := k.carried_of_isObject hp
    obtain ⟨hsize, hfields⟩ := k.kind_of_field hc
    rw [Object.Formatted, hsize, hfields]
    exact w.formatted o (k.isObject_of_carried hc)
  · obtain ⟨o, hc, rfl⟩ := k.carried_of_isObject hp
    exact k.header_of hc
  · rw [hsame.2.2.2.1, k.alone]
    simp

theorem listed : h'.Listed L :=
  ⟨k.built.table, k.laid, k.reset, congrArg Heap.freeList k.heap⟩

theorem blank_of (hblank : (h.region i).kind.isFree = true → (h.region i).Blank) (hi : i < L.count)
    (hk : (h'.region i).kind.isFree = true) : (h'.region i).Blank :=
  ((k.ended hi).of_free hk).2.2 hblank

theorem seated_of_taken {m : HumongousMove} (hm : m ∈ f.moves) : h'.Seated L m.target := by
  have hsize := (k.kind_of_field (.moved m hm rfl)).1
  rw [k.planned.place_of_move hm] at hsize
  have hlimit : Object.limit h'.memory (L.bottom m.target) =
      L.bottom m.target + 8 * Object.size h.memory (L.bottom m.source) := by
    rw [Object.limit, hsize]
  have hpos := (k.planned.within_of_move k.consistent hm).1
  refine ⟨?_, ?_⟩ <;> rw [k.span_of_taken hm, hlimit]
  · refine (k.moving.taken m hm).seated.congr hpos fun j _ _ => ?_
    rw [show h'.table.region j = x.heap.table.region j from k.region j]
    exact ⟨rfl, rfl⟩
  · rw [k.memory]
    exact fun hroom => (k.moving.filler m hm hroom).limit

/-- Behind a humongous object that stays nothing is written. -/
theorem read_behind_of_kept (hs : s < L.count) (hk : (h.region s).kind.isStartsHumongous = true)
    (keeps : c.Keeps h f s) {a : Nat} (hfrom : Object.limit h.memory (L.bottom s) ≤ a)
    (hto : a < L.bottom (s + h.humongousSpan (h.region s))) :
    h'.memory.read a = h.memory.read a := by
  have w := k.consistent
  have hpos := w.span_pos hs hk
  have hlast := w.span_lt_limit hs hk
  have hsucc := L.bottom_of_pos (i := s + h.humongousSpan (h.region s)) (by omega)
  -- the words lie in the last region, but in no object
  have hplain : m₃.read a = h.memory.read a := by
    refine k.read_of_plain (fun ho => ?_) fun o ho hslot => ?_
    · have := Object.lt_limit (Nat.lt_of_lt_of_le Nat.two_pos (w.size_ge ho))
      have := w.behind_humongous hs hk ho hfrom hto
      omega
    · have hobj := w.traced_isObject ho
      have := w.behind_humongous hs hk hobj hfrom hto
      have := Object.slots_bounds (w.formatted o hobj) hslot
      omega
  have last : c.Keeps h f (s + h.humongousSpan (h.region s) - 1) :=
    (k.keeps_iff hs hk ⟨by omega, by omega⟩).mpr keeps
  rw [k.memory, k.moving.read_of_kept w k.planned last (by omega) (by omega), hplain]

theorem limit_of_kept (hs : s < L.count) (hk : (h.region s).kind.isStartsHumongous = true)
    (keeps : c.Keeps h f s) :
    Object.limit h'.memory (L.bottom s) = Object.limit h.memory (L.bottom s) := by
  have hmem : L.bottom s ∈ h.objectsIn s := by simp [k.consistent.objectsIn_humongous hs hk]
  have hsize := (k.kind_of_field (.kept s hs keeps hmem)).1
  rw [(k.fixed_of_kept hs keeps hmem).1] at hsize
  rw [Object.limit, Object.limit, hsize]

theorem seated_of_kept (hs : s < L.count) (hk : (h.region s).kind.isStartsHumongous = true)
    (keeps : c.Keeps h f s) (hseated : h.Seated L s) : h'.Seated L s := by
  have w := k.consistent
  have hspan := k.span_of_kept hs keeps hk
  have hlimit := k.limit_of_kept hs hk keeps
  refine ⟨?_, fun hroom => ?_⟩
  · rw [hspan, hlimit]
    refine hseated.table.congr (w.span_pos hs hk) fun j hfrom hto => ?_
    have r := k.kept_of (Nat.lt_of_lt_of_le hto (w.humongous s hs hk).within)
      ((k.keeps_iff hs hk ⟨hfrom, hto⟩).mpr keeps)
    exact ⟨r.top, r.blocks⟩
  · rw [hspan, hlimit] at hroom
    rw [hspan, hlimit, ← hseated.filler hroom]
    exact Object.limit_congr (k.read_behind_of_kept hs hk keeps (by omega) (by omega))

theorem tidy (hblank : ∀ i, i < L.count → (h.region i).kind.isFree = true → (h.region i).Blank)
    (hseated : ∀ s, s < L.count → (h.region s).kind.isStartsHumongous = true → h.Seated L s)
    (hbehind : L.limit + L.bytes < Word.limit) : h'.Tidy L := by
  refine ⟨k.built, k.listed.liveness, k.listed.reset, k.listed.freeList,
    fun i hi => k.blank_of (hblank i hi) hi, fun s hs hk => ?_, hbehind⟩
  rcases k.starts_of hs hk with ⟨m, hm, rfl⟩ | ⟨keeps, hk'⟩
  · exact k.seated_of_taken hm
  · exact k.seated_of_kept hs hk' keeps (hseated s hs hk')

end Collected

end Collector

namespace Heap

variable {h h₁ : Heap} {L : Layout} {s : Nat}

theorem Seated.alike (a : h.Alike h₁) (hs : h.Seated L s) : h₁.Seated L s := by
  obtain ⟨⟨full, last, known⟩, hfiller⟩ := hs
  have hregion : ∀ k, (h₁.table.region k).top = (h.table.region k).top ∧
      (h₁.table.region k).blocks = (h.table.region k).blocks := fun k => by
    obtain ⟨r, hr⟩ := a.table.region k
    rw [hr]
    exact ⟨rfl, rfl⟩
  refine ⟨⟨fun k => ?_, ?_, fun k => ?_⟩, ?_⟩ <;> rw [a.humongousSpan s]
  · rw [(hregion k).1]
    exact full k
  · rw [(hregion _).1, a.memory]
    exact last
  · rw [(hregion k).1, (hregion k).2, a.memory]
    exact known k
  · rw [a.memory]
    exact hfiller

theorem Tidy.collect_of (t : h.Tidy L) (r : h.Referring)
    (explicitRequest clearSoft maximal : Bool) :
    ∃ h', h.fullCollect explicitRequest clearSoft maximal = .ok h' ∧ h'.Tidy L := by
  obtain ⟨h₁, c, f, fill, m₃, x, h', hrun, a, -, k⟩ :=
    fullCollect_of ⟨⟨t.toBuilt, r⟩, t.unmarked⟩ explicitRequest clearSoft maximal
  refine ⟨h', hrun, k.tidy (fun i hi hk => ?_) (fun s hs hk => ?_) t.behind⟩
  · obtain ⟨s, hs⟩ := a.region i
    rw [hs] at hk ⊢
    have b := t.blank i hi hk
    exact ⟨b.kind, b.top, b.humongousStart, b.marked, b.blocks⟩
  · exact (t.seated s hs ((a.kind s).1 ▸ hk)).alike a

end Heap

end RegionHeap
