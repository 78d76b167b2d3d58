import RegionHeap.Proofs.Placing
import RegionHeap.Proofs.Ready

/-!
Heaps as the operations on them leave them behind. Besides what a collection needs, the free regions
are blank and listed in ascending order, and the regions of a humongous object are in use as far as
the object and its filler reach. What holds of a heap is put together region by region, so that an
operation has to account only for the regions that it changes.
-/
set_option autoImplicit false

namespace RegionHeap

namespace Heap

/-- The regions of the humongous object that begins in a region, and the filler behind it. -/
structure Seated (h : Heap) (L : Layout) (s : Nat) : Prop where
  table : h.table.Seated L s (h.humongousSpan (h.region s)) (Object.limit h.memory (L.bottom s))
  filler : Object.limit h.memory (L.bottom s) + 16 ≤
      L.bottom (s + h.humongousSpan (h.region s)) →
    Object.limit h.memory (Object.limit h.memory (L.bottom s)) =
      L.bottom (s + h.humongousSpan (h.region s))

/-- The free list lists the free regions, and nothing is marked. -/
structure Listed (h : Heap) (L : Layout) : Prop where
  table : h.table.Laid L
  liveness : h.liveness.Laid L
  reset : ∀ i, i < L.count → (h.liveness.sliceAt i).state.isMarked = false
  freeList : h.freeList = ⟨(List.range L.count).filter fun i => (h.region i).kind.isFree⟩

/-- What operations on a heap keep up, whatever its objects refer to. -/
structure Tidy (h : Heap) (L : Layout) : Prop extends h.Built L, h.Listed L where
  blank : ∀ i, i < L.count → (h.region i).kind.isFree → (h.region i).Blank
  seated : ∀ s, s < L.count → (h.region s).kind.isStartsHumongous → h.Seated L s
  /-- A region behind the heap would still have addresses. -/
  behind : L.limit + L.bytes < Word.limit

/-- One region is in order. -/
structure Orderly (h : Heap) (L : Layout) (i : Nat) : Prop where
  blank : (h.region i).kind.isFree → (h.region i).Blank
  dense : (h.region i).kind.isOrdinary → (h.region i).isDense h.memory
  blocks : (h.region i).kind.isOrdinary →
    (h.region i).blocks.Sound (h.objectsIn i) (h.region i).top
  objects : ∀ o ∈ h.objectsIn i, Object.Formatted h.memory o ∧ h.memory.read o = 0
  spans : (h.region i).kind.isStartsHumongous → h.Spans L i ∧ h.Seated L i
  continued : (h.region i).kind.isContinuesHumongous →
    ∃ s, s < i ∧ (h.region s).kind.isStartsHumongous ∧ i < s + h.humongousSpan (h.region s)

/-- What does not belong to the regions is the same. -/
structure Framed (h h' : Heap) : Prop where
  options : h'.options = h.options
  start : h'.start = h.start
  gang : h'.gang = h.gang
  candidates : h'.candidates = h.candidates
  shared : h'.table.shared = h.table.shared

/-- The region is as before, and so are the headers of its objects. -/
structure Untouched (h h' : Heap) (L : Layout) (i : Nat) : Prop where
  kind : (h'.region i).kind = (h.region i).kind
  top : (h'.region i).top = (h.region i).top
  humongousStart : (h'.region i).humongousStart = (h.region i).humongousStart
  marked : (h'.region i).marked = (h.region i).marked
  blocks : (h'.region i).blocks = (h.region i).blocks
  header : ∀ o ∈ h.objectsIn i, h'.memory.read o = h.memory.read o ∧
    Object.klass h'.memory o = Object.klass h.memory o
  filler : (h.region i).kind.isStartsHumongous →
    Object.limit h.memory (L.bottom i) + 16 ≤ L.bottom (i + h.humongousSpan (h.region i)) →
      Object.klass h'.memory (Object.limit h.memory (L.bottom i)) =
        Object.klass h.memory (Object.limit h.memory (L.bottom i))

variable {h h' : Heap} {L : Layout} {i s : Nat}

theorem Tidy.unmarked (t : h.Tidy L) : h.Unmarked L :=
  ⟨t.liveness, fun _ ha => LivenessMap.marked_of_state (t.reset _ ha.regionOf_lt)⟩

theorem Tidy.of_orderly (t : h.Tidy L) (f : h.Framed h') (l : h'.Listed L)
    (ho : ∀ i, i < L.count → h'.Orderly L i) : h'.Tidy L := by
  have hobj : ∀ o, h'.IsObject o → ∃ i, i < L.count ∧ o ∈ h'.objectsIn i := fun o ⟨i, hi, ho⟩ =>
    ⟨i, by rwa [regionCount, l.table.size] at hi, ho⟩
  refine ⟨⟨f.options ▸ t.options, f.start.trans t.start, ?_, l.table, f.gang ▸ t.gang,
    fun i hi hk => ?_, fun i hi => (ho i hi).dense, fun o h => ?_, fun i hi => (ho i hi).blocks,
    fun s hs hk => ((ho s hs).spans hk).1, fun i hi => (ho i hi).continued, fun o h => ?_,
    fun g hg => ?_⟩, l.liveness, l.reset, l.freeList, fun i hi => (ho i hi).blank,
    fun s hs hk => ((ho s hs).spans hk).2, t.behind⟩
  · rw [regionBytes, f.options]
    exact t.bytes
  · exact ((ho i hi).blank hk).top.trans (l.table.region i hi).bottom
  · obtain ⟨i, hi, hoi⟩ := hobj o h
    exact ((ho i hi).objects o hoi).1
  · obtain ⟨i, hi, hoi⟩ := hobj o h
    exact ((ho i hi).objects o hoi).2
  · rw [f.candidates] at hg
    obtain ⟨hlast, hmembers⟩ := t.linked g hg
    refine ⟨by rw [f.shared]; exact hlast, fun i hi => ?_⟩
    rw [regionCount, l.table.size, ← t.regionCount]
    exact hmembers i hi

theorem Orderly.of_blank (b : (h.region i).Blank) : h.Orderly L i := by
  have hobjects : h.objectsIn i = [] := by
    simp [objectsIn, b.kind, RegionKind.isOrdinary, RegionKind.isFree, RegionKind.isStartsHumongous]
  refine ⟨fun _ => b, fun hk => ?_, fun hk => ?_, by simp [hobjects], fun hk => ?_,
    fun hk => ?_⟩ <;>
    rw [b.kind] at hk <;> contradiction

theorem Orderly.of_ordinary (os : List Nat) (hl : (h.region i).Laid L i)
    (hk : (h.region i).kind.isOrdinary)
    (hc : Object.Chain h.memory (L.bottom i) os (h.region i).top)
    (hs : (h.region i).blocks.Sound os (h.region i).top)
    (ho : ∀ o ∈ os, Object.Formatted h.memory o ∧ h.memory.read o = 0) : h.Orderly L i := by
  have hobjects : h.objectsIn i = os := by
    rw [Built.objectsIn_ordinary hk, hl.bottom, hc.walk_eq]
  obtain ⟨hfree, -, hstarts, hcont⟩ := RegionKind.not_of_ordinary hk
  refine ⟨fun hf => ?_, fun _ => ?_, fun _ => hobjects ▸ hs, hobjects ▸ ho, fun hf => ?_,
    fun hf => ?_⟩
  · rw [hfree] at hf
    contradiction
  · rw [Region.isDense, hl.bottom, hc.walkEnd_eq]
    exact beq_self_eq_true _
  · rw [hstarts] at hf
    contradiction
  · rw [hcont] at hf
    contradiction

theorem Orderly.of_starts (hl : (h.region i).Laid L i) (hk : (h.region i).kind = .startsHumongous)
    (hs : h.Spans L i) (hseated : h.Seated L i)
    (ho : Object.Formatted h.memory (L.bottom i) ∧ h.memory.read (L.bottom i) = 0) :
    h.Orderly L i := by
  have hobjects : h.objectsIn i = [L.bottom i] := by
    simp [objectsIn, hk, RegionKind.isOrdinary, RegionKind.isFree, RegionKind.isHumongous,
      RegionKind.isStartsHumongous, hl.bottom]
  refine ⟨fun hf => ?_, fun hf => ?_, fun hf => ?_, by simpa [hobjects] using ho,
    fun _ => ⟨hs, hseated⟩, fun hf => ?_⟩ <;> rw [hk] at hf <;> contradiction

theorem Orderly.of_continues (hk : (h.region i).kind = .continuesHumongous) (hlt : s < i)
    (hs : (h.region s).kind.isStartsHumongous) (hin : i < s + h.humongousSpan (h.region s)) :
    h.Orderly L i := by
  have hobjects : h.objectsIn i = [] := by
    simp [objectsIn, hk, RegionKind.isOrdinary, RegionKind.isFree, RegionKind.isHumongous,
      RegionKind.isStartsHumongous, RegionKind.isContinuesHumongous]
  refine ⟨fun hf => ?_, fun hf => ?_, fun hf => ?_, by simp [hobjects], fun hf => ?_,
    fun _ => ⟨s, hlt, hs, hin⟩⟩ <;> rw [hk] at hf <;> contradiction

namespace Untouched

theorem objectsIn (t : h.Tidy L) (u : h.Untouched h' L i) (ht : h'.table.Laid L)
    (hi : i < L.count) : h'.objectsIn i = h.objectsIn i := by
  have hb : (h'.region i).bottom = (h.region i).bottom :=
    (ht.region i hi).bottom.trans (t.laid hi).bottom.symm
  cases hord : (h.region i).kind.isOrdinary with
  | true =>
    have hchain := (t.chain hi hord).congr fun o ho => Object.size_congr (u.header o ho).2
    rw [Built.objectsIn_ordinary (by rw [u.kind, hord]), u.top, hb, (t.laid hi).bottom,
      hchain.walk_eq]
  | false => simp [Heap.objectsIn, u.kind, hord, hb]

theorem objects (t : h.Tidy L) (u : h.Untouched h' L i) (ht : h'.table.Laid L)
    (hi : i < L.count) : ∀ o ∈ h'.objectsIn i,
      Object.Formatted h'.memory o ∧ h'.memory.read o = 0 := by
  intro o ho
  rw [u.objectsIn t ht hi] at ho
  have hobj := t.isObject hi ho
  obtain ⟨hforward, hshape⟩ := u.header o ho
  refine ⟨?_, hforward.trans (t.unforwarded o hobj)⟩
  have hf := t.formatted o hobj
  unfold Object.Formatted Object.fieldCount Object.size at hf ⊢
  rwa [hshape]

theorem orderly (t : h.Tidy L) (u : h.Untouched h' L i) (ht : h'.table.Laid L)
    (hi : i < L.count) (hk : (h.region i).kind.isHumongous = false) : h'.Orderly L i := by
  have hb : (h'.region i).bottom = (h.region i).bottom :=
    (ht.region i hi).bottom.trans (t.laid hi).bottom.symm
  cases hf : (h.region i).kind.isFree with
  | true =>
    have b := t.blank i hi hf
    exact .of_blank ⟨u.kind.trans b.kind, by rw [u.top, hb, b.top],
      u.humongousStart.trans b.humongousStart, u.marked.trans b.marked, by rw [u.blocks, b.blocks]⟩
  | false =>
    have hord : (h.region i).kind.isOrdinary = true := by simp [RegionKind.isOrdinary, hf, hk]
    have hobjects := u.objects t ht hi
    rw [u.objectsIn t ht hi] at hobjects
    refine .of_ordinary _ (ht.region i hi) (u.kind ▸ hord) ?_ ?_ hobjects <;> rw [u.top]
    · exact (t.chain hi hord).congr fun o ho => Object.size_congr (u.header o ho).2
    · rw [u.blocks]
      exact t.blocks i hi hord

theorem span_eq (t : h.Tidy L) (f : h.Framed h') (u : h.Untouched h' L s) (ht : h'.table.Laid L)
    (hs : s < L.count) (hk : (h.region s).kind.isStartsHumongous) :
    h'.humongousSpan (h'.region s) = h.humongousSpan (h.region s) ∧
      Object.limit h'.memory (L.bottom s) = Object.limit h.memory (L.bottom s) := by
  have hmem : L.bottom s ∈ h.objectsIn s := by simp [t.objectsIn_humongous hs hk]
  have hsize := Object.size_congr (u.header _ hmem).2
  refine ⟨?_, by rw [Object.limit, Object.limit, hsize]⟩
  rw [humongousSpan, humongousSpan, regionsFor, regionsFor, Heap.regionWords, Heap.regionWords,
    f.options, (t.laid hs).bottom, show (h'.region s).bottom = _ from (ht.region s hs).bottom,
    hsize]

theorem orderly_humongous (t : h.Tidy L) (f : h.Framed h') (ht : h'.table.Laid L)
    (hs : s < L.count) (hk : (h.region s).kind.isStartsHumongous)
    (u : ∀ k, s ≤ k → k < s + h.humongousSpan (h.region s) → h.Untouched h' L k)
    (hfrom : s ≤ i) (hto : i < s + h.humongousSpan (h.region s)) : h'.Orderly L i := by
  have hspans := t.humongous s hs hk
  have hpos := t.span_pos hs hk
  have hu := u s (Nat.le_refl _) (by omega)
  obtain ⟨hspan, hlimit⟩ := hu.span_eq t f ht hs hk
  have hstarts : (h'.region s).kind.isStartsHumongous := hu.kind ▸ hk
  have hlater : ∀ k, s < k → k < s + h.humongousSpan (h.region s) →
      (h'.region k).kind = .continuesHumongous ∧ (h'.region k).humongousStart = some s := by
    intro k hsk hks
    have hl := hspans.later k hsk hks
    have huk := u k (by omega) hks
    exact ⟨huk.kind.trans hl.1, huk.humongousStart.trans hl.2⟩
  rcases Nat.eq_or_lt_of_le hfrom with rfl | hlt
  · have hspans' : h'.Spans L s := {
      within := hspan ▸ hspans.within
      first := hu.humongousStart.trans hspans.first
      later := hspan ▸ hlater
      covered := by
        rw [hspan, hlimit]
        intro k hsk hks
        rw [(u k hsk hks).top]
        exact hspans.covered k hsk hks }
    have hseated : h'.Seated L s := {
      table := by
        rw [hspan, hlimit]
        exact (t.seated s hs hk).table.congr hpos fun k hsk hks =>
          ⟨(u k hsk hks).top, (u k hsk hks).blocks⟩
      filler := by
        rw [hspan, hlimit]
        intro hroom
        rw [← (t.seated s hs hk).filler hroom]
        exact congrArg (_ + 8 * ·) (Object.size_congr (hu.filler hk hroom)) }
    refine .of_starts (ht.region s hs) (by simpa [RegionKind.isStartsHumongous] using hstarts)
      hspans' hseated (hu.objects t ht hs _ ?_)
    rw [hu.objectsIn t ht hs]
    simp [t.objectsIn_humongous hs hk]
  · exact .of_continues (hlater i hlt hto).1 hlt hstarts (by rw [hspan]; exact hto)

end Untouched

/-- A region belongs to one humongous object. -/
theorem Built.block_unique (w : h.Built L) {s' : Nat} (hs : s < L.count) (hs' : s' < L.count)
    (hk : (h.region s).kind.isStartsHumongous) (hk' : (h.region s').kind.isStartsHumongous)
    (hfrom : s ≤ i) (hto : i < s + h.humongousSpan (h.region s)) (hfrom' : s' ≤ i)
    (hto' : i < s' + h.humongousSpan (h.region s')) : s = s' := by
  have start : ∀ s, s < L.count → (h.region s).kind.isStartsHumongous → s ≤ i →
      i < s + h.humongousSpan (h.region s) → (h.region i).humongousStart = some s := by
    intro s hs hk hfrom hto
    rcases Nat.eq_or_lt_of_le hfrom with rfl | hlt
    · exact (w.humongous s hs hk).first
    · exact ((w.humongous s hs hk).later i hlt hto).2
  have e := (start s hs hk hfrom hto).symm.trans (start s' hs' hk' hfrom' hto')
  exact Option.some.inj e

theorem Built.block_of (w : h.Built L) (hi : i < L.count)
    (hk : (h.region i).kind.isHumongous = true) : ∃ s, s < L.count ∧
      (h.region s).kind.isStartsHumongous ∧ s ≤ i ∧ i < s + h.humongousSpan (h.region s) := by
  rcases Bool.or_eq_true _ _ ▸ hk with hs | hc
  · exact ⟨i, hi, hs, Nat.le_refl _, by have := w.span_pos hi hs; omega⟩
  · obtain ⟨s, hlt, hstarts, hto⟩ := w.continued i hi hc
    exact ⟨s, by omega, hstarts, by omega, hto⟩

namespace Tidy

/-- A region stays in order if it is as before, and so are those of its humongous object. -/
theorem orderly_of (t : h.Tidy L) (f : h.Framed h') (ht : h'.table.Laid L) (hi : i < L.count)
    (hu : h.Untouched h' L i)
    (hblock : ∀ s, s < L.count → (h.region s).kind.isStartsHumongous → s ≤ i →
      i < s + h.humongousSpan (h.region s) → ∀ k, s ≤ k →
        k < s + h.humongousSpan (h.region s) → h.Untouched h' L k) : h'.Orderly L i := by
  cases hk : (h.region i).kind.isHumongous with
  | false => exact hu.orderly t ht hi hk
  | true =>
    obtain ⟨s, hs, hks, hfrom, hto⟩ := t.block_of hi hk
    exact Untouched.orderly_humongous t f ht hs hks (hblock s hs hks hfrom hto) hfrom hto

theorem all_orderly (t : h.Tidy L) (f : h.Framed h') (ht : h'.table.Laid L)
    (hu : ∀ i, i < L.count → h.Untouched h' L i) : ∀ i, i < L.count → h'.Orderly L i :=
  fun i hi => t.orderly_of f ht hi (hu i hi) fun s hs hk _ _ k _ hto =>
    hu k (Nat.lt_of_lt_of_le hto (t.humongous s hs hk).within)

theorem header_within (t : h.Tidy L) (hi : i < L.count) {o : Nat} (ho : o ∈ h.objectsIn i) :
    L.bottom i ≤ o ∧ o + 16 ≤ L.bottom i + L.bytes := by
  have hsize := t.size_ge (t.isObject hi ho)
  rcases Built.cases_of_mem ho with hk | hk
  · obtain ⟨hfrom, hlimit, htop⟩ := t.within_of hi hk ho
    unfold Object.limit at hlimit
    omega
  · obtain rfl : o = L.bottom i := by simpa [t.objectsIn_humongous hi hk] using ho
    have := L.bytes_ge
    omega

/-- An operation changes some regions, and no humongous object in part. -/
theorem frame (t : h.Tidy L) (f : h.Framed h') (ht : h'.table.Laid L) (changed : Nat → Prop)
    (hregion : ∀ i, i < L.count → ¬changed i → h'.region i = h.region i)
    (hmemory : ∀ i a, i < L.count → ¬changed i → L.bottom i ≤ a → a < L.bottom i + L.bytes →
      h'.memory.read a = h.memory.read a)
    (hwhole : ∀ s, s < L.count → (h.region s).kind.isStartsHumongous → ∀ k, s ≤ k →
      k < s + h.humongousSpan (h.region s) → changed k → ∀ j, s ≤ j →
        j < s + h.humongousSpan (h.region s) → changed j)
    (hin : ∀ i, i < L.count → changed i → h'.Orderly L i) :
    ∀ i, i < L.count → h'.Orderly L i := by
  have untouched : ∀ i, i < L.count → ¬changed i → h.Untouched h' L i := by
    intro i hi hn
    have hr := hregion i hi hn
    refine ⟨by rw [hr], by rw [hr], by rw [hr], by rw [hr], by rw [hr], fun o ho => ?_,
      fun hk hroom => ?_⟩
    · obtain ⟨hfrom, hto⟩ := t.header_within hi ho
      exact ⟨hmemory i _ hi hn hfrom (by omega), hmemory i _ hi hn (by omega) (by omega)⟩
    · have hpos := t.span_pos hi hk
      have hlast := t.span_lt_limit hi hk
      have hwithin := (t.humongous i hi hk).within
      have hsucc := L.bottom_of_pos (i := i + h.humongousSpan (h.region i)) (by omega)
      refine hmemory (i + h.humongousSpan (h.region i) - 1) _ (by omega) (fun hc => hn ?_)
        (by omega) (by omega)
      exact hwhole i hi hk _ (by omega) (by omega) hc i (Nat.le_refl _) (by omega)
  intro i hi
  by_cases hc : changed i
  · exact hin i hi hc
  · refine t.orderly_of f ht hi (untouched i hi hc) fun s hs hk hfrom hto k hsk hks => ?_
    have hwithin := (t.humongous s hs hk).within
    exact untouched k (by omega) fun hck => hc (hwhole s hs hk k hsk hks hck i hfrom hto)

theorem whole_of (t : h.Tidy L) {changed : Nat → Prop}
    (hn : ∀ k, changed k → (h.region k).kind.isHumongous = false) :
    ∀ s, s < L.count → (h.region s).kind.isStartsHumongous → ∀ k, s ≤ k →
      k < s + h.humongousSpan (h.region s) → changed k → ∀ j, s ≤ j →
        j < s + h.humongousSpan (h.region s) → changed j := by
  intro s hs hk k hsk hks hc
  have hkind := hn k hc
  rcases Nat.eq_or_lt_of_le hsk with rfl | hlt
  · rw [RegionKind.isHumongous, hk] at hkind
    contradiction
  · rw [((t.humongous s hs hk).later k hlt hks).1] at hkind
    contradiction

end Tidy

end Heap

end RegionHeap
