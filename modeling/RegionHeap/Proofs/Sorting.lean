import Mathlib.Logic.Basic
import RegionHeap.Proofs.Fates

/-!
Sorting the regions carries out their fates. The loop decides region by region; a region of a
humongous object is decided about when the loop comes to the first one.
-/
set_option autoImplicit false

namespace RegionHeap.Collector

/-- Marking is complete, and nothing has been planned. -/
structure Marked (c : Collector) (h : Heap) (L : Layout) : Prop extends c.Ready L where
  table : c.heap.table = h.table
  options : c.heap.options = h.options
  attr : ∀ i, i < L.count → c.attrs.attr i = initialAttr (h.region i)
  exact : ∀ o, L.IsWord o →
    (c.heap.liveness.marked L o = true ↔ h.Traced c.scope.clearSoft o)
  counted : ∀ i, i < L.count → Table.entry c.live i = h.liveWords c.scope.clearSoft i
  fresh : ∀ k, k < c.workers → Table.entry c.points k = {}
  humongousStarts : c.humongousStarts = []
  serial : c.serial = {}
  moves : c.moves = []

/-- What sorting changes. -/
def withSorting (c : Collector) (t : RegionTable) (l : LivenessMap) (attrs : AttrTable)
    (points : Array CompactionPoint) (starts : List Nat) (freed : Bool) : Collector :=
  { c with
    heap := { c.heap with table := t, liveness := l }
    attrs := attrs
    points := points
    humongousStarts := starts
    freed := freed }

/-- The regions below an index through which objects slide were dealt to the workers. -/
structure Dealt (c : Collector) (h : Heap) (L : Layout) (n : Nat) (points : Array CompactionPoint) :
    Prop where
  size : points.size = c.workers
  fresh : ∀ k, k < c.workers →
    Table.entry points k = { regions := (Table.entry points k).regions }
  ascending : ∀ k, k < c.workers → (Table.entry points k).regions.Pairwise (· < ·)
  dealt : ∀ i, (∃ k, k < c.workers ∧ i ∈ (Table.entry points k).regions) ↔
    i < n ∧ i < L.count ∧ h.fate c.scope.clearSoft c.scope.threshold i = .compacting
  once : ∀ i k k', k < c.workers → k' < c.workers → i ∈ (Table.entry points k).regions →
    i ∈ (Table.entry points k').regions → k = k'

/-- These are the movable humongous objects below an index. -/
def Listed (c : Collector) (h : Heap) (L : Layout) (n : Nat) (starts : List Nat) : Prop :=
  starts.Pairwise (· < ·) ∧
    ∀ i, i ∈ starts ↔ i < n ∧ i < L.count ∧ h.movable c.scope.clearSoft i

/-- The regions whose owners are below an index have been decided about. -/
structure Sorting (c : Collector) (h : Heap) (L : Layout) (n : Nat) (d : Collector) : Prop where
  same : d = c.withSorting d.heap.table d.heap.liveness d.attrs d.points d.humongousStarts d.freed
  ready : d.Ready L
  memory : d.heap.table.memory = h.memory
  marks : ∀ b, L.IsWord b → d.heap.liveness.marked L b = c.heap.liveness.marked L b
  region : ∀ i, i < L.count → d.heap.region i =
    if h.owner i < n then h.sorted c.scope.clearSoft c.scope.threshold i else h.region i
  attr : ∀ i, i < L.count → d.attrs.attr i =
    if h.owner i < n then h.fate c.scope.clearSoft c.scope.threshold i
    else initialAttr (h.region i)
  points : c.Dealt h L n d.points
  starts : c.Listed h L n d.humongousStarts

section Loops

variable {c : Collector} {L : Layout}

theorem setAttrs_of (r : c.Ready L) {first count : Nat} (hc : first + count ≤ L.count)
    (a : RegionAttr) :
    ∃ attrs, c.setAttrs first count a = .ok { c with attrs := attrs } ∧ attrs.size = L.count ∧
      ∀ j, attrs.attr j = if first ≤ j ∧ j < first + count then a else c.attrs.attr j := by
  obtain ⟨t, ht, hz, hj⟩ := Checked.foldlM_range'_of
    (f := fun (t : AttrTable) i => t.set i a) (s := first) (n := count)
    (fun n (t : AttrTable) => t.size = L.count ∧
      ∀ j, t.attr j = if first ≤ j ∧ j < n then a else c.attrs.attr j)
    (fun i t hfrom hto ⟨hz, hj⟩ => by
      have hi : i < t.size := by omega
      refine ⟨_, AttrTable.set_of_lt hi a, by rw [AttrTable.size_put, hz], fun j => ?_⟩
      rw [AttrTable.attr_put hi, hj, ← ite_or]
      exact if_congr (by omega) rfl rfl)
    c.attrs ⟨r.attrs, fun j => by rw [if_neg (by omega)]⟩
  exact ⟨t, by simp only [setAttrs, ht, Checked.ok_bind, Checked.pure_eq], hz, hj⟩

theorem Ready.withSorting (r : c.Ready L) {t : RegionTable} {l : LivenessMap} {attrs : AttrTable}
    {points : Array CompactionPoint} {starts : List Nat} {freed : Bool} (ht : t.Laid L)
    (hl : l.Laid L) (ha : attrs.size = L.count) (hp : points.size = c.workers) :
    (c.withSorting t l attrs points starts freed).Ready L :=
  ⟨⟨r.heap.start, r.heap.bytes, ht, hl⟩, ha, r.live, r.tops, hp, r.workers, r.gang⟩

theorem freeRegion_of {i : Nat} (r : c.Ready L) (hi : i < L.count) :
    ∃ l, c.freeRegion i = .ok (c.withSorting (c.heap.table.put i (c.heap.region i).clear) l
        (c.attrs.put i .free) c.points c.humongousStarts true) ∧ l.Laid L ∧
      ∀ b, l.marked L b = (!decide (L.regionOf b = i) && c.heap.liveness.marked L b) := by
  obtain ⟨l, hl, hlaid, hm, -⟩ := LivenessMap.reset_of r.heap.liveness hi
  refine ⟨l, ?_, hlaid, hm⟩
  have hu : c.heap.table.update i (fun r => .ok r.clear) =
      .ok (c.heap.table.put i (c.heap.region i).clear) := r.heap.table.update_of hi rfl
  simp only [freeRegion, Heap.updateRegion, Checked.pure_eq, hu, hl, Checked.ok_bind,
    AttrTable.set_of_lt (show i < c.attrs.size from r.attrs ▸ hi)]
  rfl

/-- The regions from a first one on, below another, are freed. Nothing is marked in them. -/
structure FreedBelow (c : Collector) (L : Layout) (first n : Nat) (d : Collector) : Prop where
  same : d = c.withSorting d.heap.table d.heap.liveness d.attrs c.points c.humongousStarts d.freed
  ready : d.Ready L
  memory : d.heap.table.memory = c.heap.table.memory
  marks : ∀ b, L.IsWord b → d.heap.liveness.marked L b = c.heap.liveness.marked L b
  region : ∀ j, d.heap.region j =
    if first ≤ j ∧ j < n then (c.heap.region j).clear else c.heap.region j
  attr : ∀ j, d.attrs.attr j = if first ≤ j ∧ j < n then .free else c.attrs.attr j

namespace FreedBelow

variable {d : Collector} {first n : Nat}

theorem start (r : c.Ready L) (first : Nat) : c.FreedBelow L first first c where
  same := rfl
  ready := r
  memory := rfl
  marks := fun _ _ => rfl
  region := fun j => by rw [if_neg (by omega)]
  attr := fun j => by rw [if_neg (by omega)]

theorem next (f : c.FreedBelow L first n d) (hn : n < L.count) (hle : first ≤ n)
    (hm : ∀ b, L.IsWord b → L.regionOf b = n → c.heap.liveness.marked L b = false) :
    ∃ d', d.freeRegion n = .ok d' ∧ c.FreedBelow L first (n + 1) d' := by
  obtain ⟨l, hfree, hl, hb⟩ := freeRegion_of f.ready hn
  have hrn : d.heap.region n = c.heap.region n := by rw [f.region n, if_neg (by omega)]
  have hsize : n < d.attrs.size := f.ready.attrs ▸ hn
  refine ⟨_, hfree, {
    same := ?same
    ready := f.ready.withSorting
      (f.ready.heap.table.put hn (f.ready.heap.table.region n hn).clear) hl
      (by rw [AttrTable.size_put, f.ready.attrs]) f.ready.points
    memory := f.memory
    marks := fun b hw => ?marks
    region := fun j => ?region
    attr := fun j => ?attr }⟩
  case same =>
    rw [f.same]
    rfl
  case marks =>
    show l.marked L b = _
    rw [hb, f.marks b hw]
    by_cases e : L.regionOf b = n
    · simp [hm b hw e]
    · simp [e]
  case region =>
    show (d.heap.table.put n _).region j = _
    rw [f.ready.heap.table.region_put_of hn]
    by_cases e : n = j
    · rw [if_pos e, if_pos (by omega), hrn, e]
    · rw [if_neg e]
      exact (f.region j).trans (if_congr (by omega) rfl rfl)
  case attr =>
    show (d.attrs.put n _).attr j = _
    rw [AttrTable.attr_put hsize, f.attr j, ← ite_or]
    exact if_congr (by omega) rfl rfl

end FreedBelow

theorem freeRegions_of (r : c.Ready L) {first count : Nat} (hc : first + count ≤ L.count)
    (hm : ∀ b, L.IsWord b → first ≤ L.regionOf b → L.regionOf b < first + count →
      c.heap.liveness.marked L b = false) :
    ∃ d, (List.range' first count).foldlM freeRegion c = .ok d ∧
      c.FreedBelow L first (first + count) d :=
  Checked.foldlM_range'_of (c.FreedBelow L first)
    (fun _ _ hfrom hto f => f.next (by omega) hfrom fun b hb e => hm b hb (by omega) (by omega))
    c (.start r first)

end Loops

section Parts

variable {c : Collector} {h : Heap} {L : Layout} {n : Nat}

theorem below_succ {i : Nat} {P Q : Prop} (hn : Q → i ≠ n) :
    i < n ∧ P ∧ Q ↔ i < n + 1 ∧ P ∧ Q := by
  constructor
  · rintro ⟨hlt, hpq⟩
    exact ⟨by omega, hpq⟩
  · rintro ⟨hlt, hp, hq⟩
    have := hn hq
    exact ⟨by omega, hp, hq⟩

theorem Dealt.skip {points : Array CompactionPoint} (d : c.Dealt h L n points)
    (hn : h.fate c.scope.clearSoft c.scope.threshold n ≠ .compacting) :
    c.Dealt h L (n + 1) points := by
  refine ⟨d.size, d.fresh, d.ascending, fun i => ?_, d.once⟩
  rw [d.dealt]
  exact below_succ fun hf e => hn (e ▸ hf)

theorem Dealt.add {points : Array CompactionPoint} (d : c.Dealt h L n points) {k : Nat}
    (hk : k < c.workers) (hn : n < L.count)
    (hf : h.fate c.scope.clearSoft c.scope.threshold n = .compacting) :
    c.Dealt h L (n + 1) (points.setIfInBounds k ((Table.entry points k).add n)) := by
  have hz : k < points.size := d.size ▸ hk
  have hnew : ∀ k', k' < c.workers → ∀ i,
      i ∈ (Table.entry (points.setIfInBounds k ((Table.entry points k).add n)) k').regions ↔
        i ∈ (Table.entry points k').regions ∨ k = k' ∧ i = n := by
    intro k' _ i
    rw [Table.entry_set hz]
    by_cases e : k = k'
    · subst e
      simp [CompactionPoint.add]
    · simp [e]
  have hlt : ∀ k', k' < c.workers → ∀ i ∈ (Table.entry points k').regions, i < n :=
    fun k' hk' i hi => ((d.dealt i).mp ⟨k', hk', hi⟩).1
  refine {
    size := by rw [Array.size_setIfInBounds, d.size]
    fresh := fun k' hk' => ?fresh
    ascending := fun k' hk' => ?ascending
    dealt := fun i => ⟨?dealt, ?all⟩
    once := fun i k₁ k₂ h₁ h₂ hi₁ hi₂ => ?once }
  case fresh =>
    rw [Table.entry_set hz]
    split
    · rw [CompactionPoint.add, d.fresh k hk]
    · exact d.fresh k' hk'
  case ascending =>
    rw [Table.entry_set hz]
    split
    · refine List.pairwise_append.mpr ⟨d.ascending k hk, by simp, fun i hi j hj => ?_⟩
      obtain rfl : j = n := by simpa using hj
      exact hlt k hk i hi
    · exact d.ascending k' hk'
  case dealt =>
    rintro ⟨k', hk', hi⟩
    rcases (hnew k' hk' i).mp hi with hi | ⟨-, rfl⟩
    · obtain ⟨hlt, hmoving⟩ := (d.dealt i).mp ⟨k', hk', hi⟩
      exact ⟨by omega, hmoving⟩
    · exact ⟨by omega, hn, hf⟩
  case all =>
    rintro ⟨hlt, howner, hfate⟩
    by_cases e : i = n
    · exact ⟨k, hk, (hnew k hk i).mpr (.inr ⟨rfl, e⟩)⟩
    · obtain ⟨k', hk', hi⟩ := (d.dealt i).mpr ⟨by omega, howner, hfate⟩
      exact ⟨k', hk', (hnew k' hk' i).mpr (.inl hi)⟩
  case once =>
    -- all regions dealt before are lower than the new one
    rcases (hnew k₁ h₁ i).mp hi₁ with hi₁ | ⟨e₁, e₁'⟩
    · rcases (hnew k₂ h₂ i).mp hi₂ with hi₂ | ⟨e₂, e₂'⟩
      · exact d.once i k₁ k₂ h₁ h₂ hi₁ hi₂
      · have := hlt k₁ h₁ i hi₁
        omega
    · rcases (hnew k₂ h₂ i).mp hi₂ with hi₂ | ⟨e₂, e₂'⟩
      · have := hlt k₂ h₂ i hi₂
        omega
      · omega

theorem Listed.skip {starts : List Nat} (s : c.Listed h L n starts)
    (hn : ¬h.movable c.scope.clearSoft n) : c.Listed h L (n + 1) starts := by
  refine ⟨s.1, fun i => ?_⟩
  rw [s.2]
  exact below_succ fun hm e => hn (e ▸ hm)

theorem Listed.add {starts : List Nat} (s : c.Listed h L n starts) (hn : n < L.count)
    (hm : h.movable c.scope.clearSoft n) : c.Listed h L (n + 1) (starts ++ [n]) := by
  refine ⟨List.pairwise_append.mpr ⟨s.1, by simp, fun i hi j hj => ?_⟩, fun i => ?_⟩
  · obtain rfl : j = n := by simpa using hj
    exact ((s.2 i).mp hi).1
  · rw [List.mem_append, List.mem_singleton, s.2]
    constructor
    · rintro (⟨hlt, hmoves⟩ | rfl)
      · exact ⟨by omega, hmoves⟩
      · exact ⟨by omega, hn, hm⟩
    · rintro ⟨hlt, hstarts, hmoves⟩
      by_cases e : i = n
      · exact .inr e
      · exact .inl ⟨by omega, hstarts, hmoves⟩

/-- A step that decides about the regions of one owner. -/
theorem Sorting.step {d d' : Collector} (s : c.Sorting h L n d)
    (same : d' = c.withSorting d'.heap.table d'.heap.liveness d'.attrs d'.points
      d'.humongousStarts d'.freed)
    (ready : d'.Ready L) (memory : d'.heap.table.memory = h.memory)
    (marks : ∀ b, L.IsWord b → d'.heap.liveness.marked L b = d.heap.liveness.marked L b)
    (region : ∀ i, i < L.count → d'.heap.region i =
      if h.owner i = n then h.sorted c.scope.clearSoft c.scope.threshold i else d.heap.region i)
    (attr : ∀ i, i < L.count → d'.attrs.attr i =
      if h.owner i = n then h.fate c.scope.clearSoft c.scope.threshold i else d.attrs.attr i)
    (points : c.Dealt h L (n + 1) d'.points) (starts : c.Listed h L (n + 1) d'.humongousStarts) :
    c.Sorting h L (n + 1) d' := by
  have howner : ∀ i, (h.owner i = n ∨ h.owner i < n) ↔ h.owner i < n + 1 := fun i => by omega
  refine ⟨same, ready, memory, fun b hb => by rw [marks b hb, s.marks b hb], fun i hi => ?_,
    fun i hi => ?_, points, starts⟩
  · rw [region i hi, s.region i hi, ← ite_or]
    exact if_congr (howner i) rfl rfl
  · rw [attr i hi, s.attr i hi, ← ite_or]
    exact if_congr (howner i) rfl rfl

theorem Sorting.stay {d : Collector} (s : c.Sorting h L n d)
    (same : ∀ i, i < L.count → h.owner i = n →
      d.heap.region i = h.sorted c.scope.clearSoft c.scope.threshold i ∧
      d.attrs.attr i = h.fate c.scope.clearSoft c.scope.threshold i)
    (hn : h.fate c.scope.clearSoft c.scope.threshold n ≠ .compacting)
    (hm : ¬h.movable c.scope.clearSoft n) : c.Sorting h L (n + 1) d := by
  refine s.step s.same s.ready s.memory (fun _ _ => rfl) (fun i hi => ?_) (fun i hi => ?_)
    (s.points.skip hn) (s.starts.skip hm)
  · split
    · next e => exact (same i hi e).1
    · rfl
  · split
    · next e => exact (same i hi e).2
    · rfl

end Parts

section Region

variable {c d : Collector} {h : Heap} {L : Layout} {n next : Nat}

theorem Sorting.free (w : h.Consistent L) (m : c.Marked h L) (s : c.Sorting h L n d)
    {count : Nat} (hc : n + count ≤ L.count)
    (ho : ∀ i, i < L.count → (h.owner i = n ↔ n ≤ i ∧ i < n + count))
    (hl : ∀ i, i < L.count → h.owner i = n → h.liveIn c.scope.clearSoft i = [])
    (hf : h.fate c.scope.clearSoft c.scope.threshold n = .free)
    (hk : ∀ i, i < L.count → h.owner i = n → (h.region i).kind.isFree = false)
    (hm : ¬h.movable c.scope.clearSoft n) :
    ∃ d', (List.range' n count).foldlM freeRegion d = .ok d' ∧ c.Sorting h L (n + 1) d' := by
  -- nothing in the regions is live, so none of their words is marked
  have hdead : ∀ b, L.IsWord b → n ≤ L.regionOf b → L.regionOf b < n + count →
      d.heap.liveness.marked L b = false := by
    intro b hb hfrom hto
    have hi := hb.regionOf_lt
    have hown := (ho _ hi).mpr ⟨hfrom, hto⟩
    cases hmk : d.heap.liveness.marked L b with
    | false => rfl
    | true =>
      rw [s.marks b hb] at hmk
      have hlive := w.mem_liveIn_regionOf ((m.exact b hb).mp hmk)
      rw [hl _ hi hown] at hlive
      simp at hlive
  obtain ⟨d', hd, f⟩ := freeRegions_of s.ready hc hdead
  -- the fate of a region is that of the one that owns it
  have hfate : ∀ i, i < L.count → h.owner i = n →
      h.fate c.scope.clearSoft c.scope.threshold i = .free := by
    intro i hi e
    obtain ⟨hfrom, hto⟩ := (ho i hi).mp e
    have hnn : h.owner n = n := (ho n (by omega)).mpr ⟨Nat.le_refl _, by omega⟩
    rw [Heap.fate, e, ← hf, Heap.fate, hnn]
  have hpoints : d'.points = d.points := by
    rw [f.same]
    rfl
  have hstarts : d'.humongousStarts = d.humongousStarts := by
    rw [f.same]
    rfl
  refine ⟨d', hd, s.step ?same f.ready (f.memory.trans s.memory) f.marks (fun i hi => ?region)
    (fun i hi => ?attr) (hpoints ▸ s.points.skip (by simp [hf])) (hstarts ▸ s.starts.skip hm)⟩
  case same =>
    rw [f.same, s.same]
    rfl
  case region =>
    rw [f.region i, if_congr (ho i hi).symm rfl rfl]
    split
    · next e =>
      have hd : d.heap.region i = h.region i := by rw [s.region i hi, if_neg (by omega)]
      rw [hd, Heap.sorted, if_pos ⟨hfate i hi e, hk i hi e⟩]
    · rfl
  case attr =>
    rw [f.attr i, if_congr (ho i hi).symm rfl rfl]
    split
    · next e => exact (hfate i hi e).symm
    · rfl

theorem Sorting.humongousSpan (m : c.Marked h L) (s : c.Sorting h L n d) (r : Region) :
    d.heap.humongousSpan r = h.humongousSpan r := by
  have hoptions : d.heap.options = h.options := by rw [s.same]; exact m.options
  have hmemory : d.heap.memory = h.memory := s.memory
  simp only [Heap.humongousSpan, Heap.regionsFor, Heap.regionWords, hoptions, hmemory]

theorem Marked.marked_iff (w : h.Consistent L) (m : c.Marked h L) (hn : n < L.count)
    (hk : (h.region n).kind.isStartsHumongous) :
    c.heap.liveness.marked L (L.bottom n) = true ↔ h.liveIn c.scope.clearSoft n ≠ [] := by
  rw [m.exact _ (Layout.isWord_bottom hn)]
  constructor
  · intro ht hnil
    have := w.mem_liveIn_regionOf ht
    rw [L.regionOf_bottom, hnil] at this
    simp at this
  · intro hne
    obtain ⟨o, ho⟩ := List.exists_mem_of_ne_nil _ hne
    obtain ⟨hm, ht⟩ := Heap.mem_liveIn.mp ho
    obtain rfl : o = L.bottom n := by simpa [w.objectsIn_humongous hn hk] using hm
    exact ht

theorem Sorting.keep_humongous (w : h.Consistent L) (s : c.Sorting h L n d) (hn : n < L.count)
    (hk : (h.region n).kind.isStartsHumongous)
    (hf : h.fate c.scope.clearSoft c.scope.threshold n = .skipCompacting) {attrs : AttrTable}
    {starts : List Nat} (hsize : attrs.size = L.count)
    (hattr : ∀ i, attrs.attr i = if n ≤ i ∧ i < n + h.humongousSpan (h.region n) then
      .skipCompacting else d.attrs.attr i)
    (hstarts : c.Listed h L (n + 1) starts) :
    c.Sorting h L (n + 1) { d with attrs := attrs, humongousStarts := starts } := by
  have hiff := fun i (hi : i < L.count) => w.owner_eq_iff hi hn hk
  have hfates : ∀ i, i < L.count → h.owner i = n →
      h.fate c.scope.clearSoft c.scope.threshold i = .skipCompacting := by
    intro i hi e
    rw [Heap.fate, e, ← hf, Heap.fate, Heap.owner_of_starts hk]
  refine s.step (by rw [s.same]; rfl)
    (s.ready.withSorting s.ready.heap.table s.ready.heap.liveness hsize s.ready.points)
    s.memory (fun _ _ => rfl) (fun i hi => ?_) (fun i hi => ?_)
    (s.points.skip (by rw [hf]; simp)) hstarts
  · show d.heap.region i = _
    split
    · next e =>
      rw [s.region i hi, if_neg (by omega), Heap.sorted, if_neg]
      rw [hfates i hi e]
      simp
    · rfl
  · show attrs.attr i = _
    rw [hattr i]
    by_cases e : h.owner i = n
    · rw [if_pos ((hiff i hi).mp e), if_pos e, hfates i hi e]
    · rw [if_neg fun h' => e ((hiff i hi).mpr h'), if_neg e]

theorem Sorting.free_humongous (w : h.Consistent L) (m : c.Marked h L) (s : c.Sorting h L n d)
    (hn : n < L.count) (hk : (h.region n).kind.isStartsHumongous)
    (hf : h.fate c.scope.clearSoft c.scope.threshold n = .free)
    (hnil : h.liveIn c.scope.clearSoft n = []) :
    ∃ d', (List.range' n (h.humongousSpan (h.region n))).foldlM freeRegion d = .ok d' ∧
      c.Sorting h L (n + 1) d' := by
  have hiff := fun i (hi : i < L.count) => w.owner_eq_iff hi hn hk
  have later : ∀ i, i < L.count → h.owner i = n → i ≠ n →
      (h.region i).kind = .continuesHumongous := by
    intro i hi e hne
    obtain ⟨hfrom, hto⟩ := (hiff i hi).mp e
    exact ((w.humongous n hn hk).later i (by omega) hto).1
  refine s.free w m (w.humongous n hn hk).within hiff (fun i hi e => ?_) hf (fun i hi e => ?_)
    (fun hm => hm.2.1 hnil)
  · by_cases hne : i = n
    · exact hne ▸ hnil
    · exact w.liveIn_eq_nil hi (.inr (.inr (later i hi e hne)))
  · by_cases hne : i = n
    · rw [hne, Heap.kind_eq_starts hk]
      rfl
    · rw [later i hi e hne]
      rfl

theorem sortHumongous_of (w : h.Consistent L) (m : c.Marked h L) (s : c.Sorting h L n d)
    (hn : n < L.count) (hk : (h.region n).kind.isStartsHumongous) :
    ∃ d', d.sortHumongous (h.region n) = .ok d' ∧ c.Sorting h L (n + 1) d' := by
  have hl := w.laid hn
  have hspan := s.humongousSpan m (h.region n)
  have hmark : d.liveness.isMarked (h.region n).bottom =
      .ok (c.heap.liveness.marked L (L.bottom n)) := by
    have hword := Layout.isWord_bottom hn
    rw [hl.bottom, ← s.marks _ hword]
    exact LivenessMap.isMarked_of s.ready.heap.liveness hword
  have hlive := m.marked_iff w hn hk
  have hfate : h.fate c.scope.clearSoft c.scope.threshold n = _ :=
    Heap.fate_of_owner hk (Heap.owner_of_starts hk)
  have hsort : d.sortHumongous (h.region n) =
      if c.heap.liveness.marked L (L.bottom n) || (h.region n).isPinned then do
        let d ← d.setAttrs n (h.humongousSpan (h.region n)) .skipCompacting
        return if (h.region n).isPinned then d
          else { d with humongousStarts := d.humongousStarts ++ [n] }
      else (List.range' n (h.humongousSpan (h.region n))).foldlM freeRegion d := by
    simp only [sortHumongous, hspan, hmark, hl.index, Checked.ok_bind]
  rw [hsort]
  -- a humongous object is kept if it is live or pinned, and may move unless it is pinned
  by_cases hkeep : h.liveIn c.scope.clearSoft n ≠ [] ∨ (h.region n).isPinned = true
  · rw [if_pos (by rw [Bool.or_eq_true, hlive]; exact hkeep)]
    rw [if_pos hkeep] at hfate
    obtain ⟨attrs, ha, hz, hattr⟩ :=
      setAttrs_of s.ready (w.humongous n hn hk).within .skipCompacting
    cases hp : (h.region n).isPinned with
    | true =>
      refine ⟨{ d with attrs := attrs }, ?_,
        s.keep_humongous w hn hk hfate hz hattr (s.starts.skip ?_)⟩
      · rw [Checked.bind_of ha]
        rfl
      · rintro ⟨-, -, h'⟩
        rw [hp] at h'
        contradiction
    | false =>
      refine ⟨{ d with attrs := attrs, humongousStarts := d.humongousStarts ++ [n] }, ?_,
        s.keep_humongous w hn hk hfate hz hattr (s.starts.add hn ⟨hk, ?_, hp⟩)⟩
      · rw [Checked.bind_of ha]
        rfl
      · simpa [hp] using hkeep
  · rw [if_neg (by rw [Bool.or_eq_true, hlive]; exact hkeep)]
    rw [if_neg hkeep] at hfate
    refine s.free_humongous w m hn hk hfate ?_
    cases hl : h.liveIn c.scope.clearSoft n with
    | nil => rfl
    | cons => exact absurd (.inl (by simp [hl])) hkeep

theorem Sorting.untouched (s : c.Sorting h L n d) (hn : n < L.count) (hown : h.owner n = n) :
    d.heap.region n = h.region n ∧ d.attrs.attr n = initialAttr (h.region n) := by
  rw [s.region n hn, s.attr n hn, if_neg (by omega), if_neg (by omega)]
  exact ⟨rfl, rfl⟩

theorem owner_iff_of_ordinary (w : h.Consistent L) (hk : (h.region n).kind.isOrdinary) {i : Nat}
    (hi : i < L.count) : h.owner i = n ↔ i = n := by
  obtain ⟨-, -, hstarts, hcont⟩ := RegionKind.not_of_ordinary hk
  rw [w.owner_eq_self_iff hi hstarts]
  simp [hcont]

theorem not_movable_of_ordinary (hk : (h.region n).kind.isOrdinary) (clearSoft : Bool) :
    ¬h.movable clearSoft n := fun hm => by
  have hstarts := hm.1
  rw [(RegionKind.not_of_ordinary hk).2.2.1] at hstarts
  contradiction

theorem Sorting.free_single (w : h.Consistent L) (m : c.Marked h L) (s : c.Sorting h L n d)
    (hk : (h.region n).kind.isOrdinary) (hn : n < L.count)
    (hf : h.fate c.scope.clearSoft c.scope.threshold n = .free)
    (hz : h.liveWords c.scope.clearSoft n = 0) :
    ∃ d', d.freeRegion n = .ok d' ∧ c.Sorting h L (n + 1) d' := by
  obtain ⟨d', hd, hs⟩ := s.free w m (show n + 1 ≤ L.count from hn)
    (fun i hi => by rw [owner_iff_of_ordinary w hk hi]; omega)
    (fun i hi e => by
      rw [(owner_iff_of_ordinary w hk hi).mp e]
      exact (w.liveWords_eq_zero hn).mp hz) hf
    (fun i hi e => by
      rw [(owner_iff_of_ordinary w hk hi).mp e]
      exact (RegionKind.not_of_ordinary hk).1)
    (not_movable_of_ordinary hk _)
  rw [List.range'_one, List.foldlM_cons] at hd
  obtain ⟨x, hx, hd⟩ := Checked.bind_eq_ok.mp hd
  cases hd
  exact ⟨d', hx, hs⟩

theorem Sorting.keep_single (w : h.Consistent L) (s : c.Sorting h L n d)
    (hk : (h.region n).kind.isOrdinary) (hn : n < L.count) {attrs : AttrTable}
    {points : Array CompactionPoint} (hsize : attrs.size = L.count)
    (hf : h.fate c.scope.clearSoft c.scope.threshold n ≠ .free)
    (hattr : ∀ i, attrs.attr i = if n = i then h.fate c.scope.clearSoft c.scope.threshold n
      else d.attrs.attr i)
    (hpoints : c.Dealt h L (n + 1) points) :
    c.Sorting h L (n + 1) { d with attrs := attrs, points := points } := by
  have hown : h.owner n = n := (owner_iff_of_ordinary w hk hn).mpr rfl
  refine s.step (by rw [s.same]; rfl)
    (s.ready.withSorting s.ready.heap.table s.ready.heap.liveness hsize
      (by rw [hpoints.size, s.same]; rfl))
    s.memory (fun _ _ => rfl) (fun i hi => ?_) (fun i hi => ?_) hpoints
    (s.starts.skip (not_movable_of_ordinary hk _))
  · show d.heap.region i = _
    split
    · next e =>
      obtain rfl := (owner_iff_of_ordinary w hk hi).mp e
      rw [(s.untouched hn hown).1, Heap.sorted, if_neg fun h' => hf h'.1]
    · rfl
  · show attrs.attr i = _
    rw [hattr i]
    by_cases e : n = i
    · rw [if_pos e, if_pos ((owner_iff_of_ordinary w hk hi).mpr e.symm), ← e]
    · rw [if_neg e, if_neg fun h' => e ((owner_iff_of_ordinary w hk hi).mp h').symm]

theorem initialAttr_of_ordinary (hk : (h.region n).kind.isOrdinary)
    (hclosed : (h.region n).kind.isClosedArchive = false) : initialAttr (h.region n) =
      if (h.region n).isPinned = true then .skipCompacting else .compacting := by
  simp [initialAttr, (RegionKind.not_of_ordinary hk).1, hclosed]

/-- What the loop does at a region that is filled with objects follows its fate case by case. -/
theorem Sorting.sortRegion_eq (m : c.Marked h L) (s : c.Sorting h L n d) (hn : n < L.count)
    (hnext : next < c.workers) (hk : (h.region n).kind.isOrdinary)
    (hclosed : (h.region n).kind.isClosedArchive = false) :
    d.sortRegion next n =
      if (h.region n).isPinned = true then
        if (h.region n).kind.isOpenArchive ∧ h.liveWords c.scope.clearSoft n = 0 then
          return (← d.freeRegion n, next)
        else .ok (d, next)
      else if h.liveWords c.scope.clearSoft n = 0 then return (← d.freeRegion n, next)
      else if c.scope.threshold < h.liveWords c.scope.clearSoft n then
        .ok ({ d with attrs := d.attrs.put n .skipCompacting }, next)
      else .ok ({ d with
        points := d.points.setIfInBounds next ((Table.entry d.points next).add n) },
          (next + 1) % c.workers) := by
  obtain ⟨-, -, hstarts, hcont⟩ := RegionKind.not_of_ordinary hk
  obtain ⟨hreg, hattr⟩ := s.untouched hn (Heap.owner_of_not_continues hcont)
  have hr : d.region n = .ok (h.region n) := hreg ▸ s.ready.region_of hn
  have ha : d.attrs.get n = .ok (initialAttr (h.region n)) := hattr ▸ s.ready.attr_of hn
  have hlw : d.liveWords n = .ok (h.liveWords c.scope.clearSoft n) := by
    rw [s.ready.liveWords_of hn, show d.live = c.live by rw [s.same]; rfl, m.counted n hn]
  have hinit := initialAttr_of_ordinary hk hclosed
  cases hp : (h.region n).isPinned with
  | true =>
    rw [hp, if_pos rfl] at hinit
    simp only [sortRegion, hr, ha, hinit, hcont, hstarts, hlw, Checked.ok_bind,
      Bool.false_eq_true, if_false, if_true, Bool.and_eq_true, beq_iff_eq]
    split <;> rfl
  | false =>
    have hskip : (RegionAttr.compacting == RegionAttr.skipCompacting) = false := by decide
    have hscope : d.scope = c.scope := by rw [s.same]; rfl
    have hworkers : d.workers = c.workers := by rw [s.same]; rfl
    have hpoint : Table.get d.points next = .ok (Table.entry d.points next) :=
      Table.get_of_lt (by rw [s.points.size]; exact hnext)
    rw [hp, if_neg (by simp)] at hinit
    have hkeep : d.attrs.keepInPlace n = .ok (d.attrs.put n .skipCompacting) := by
      rw [AttrTable.keepInPlace, Checked.bind_of ha, hinit, Checked.unless_of (by decide),
        Checked.ok_bind, AttrTable.set_of_lt (s.ready.attrs ▸ hn)]
    simp only [sortRegion, hr, ha, hinit, hcont, hstarts, hlw, hskip, hscope, hworkers, hpoint,
      hkeep, Checked.ok_bind, Bool.false_eq_true, if_false, Checked.pure_eq,
      Array.set!_eq_setIfInBounds]

theorem sortOrdinary_of (w : h.Consistent L) (m : c.Marked h L) (s : c.Sorting h L n d)
    (hn : n < L.count) (hnext : next < c.workers) (hk : (h.region n).kind.isOrdinary)
    (hclosed : (h.region n).kind.isClosedArchive = false) :
    ∃ d' next', d.sortRegion next n = .ok (d', next') ∧ next' < c.workers ∧
      c.Sorting h L (n + 1) d' := by
  have hrun := s.sortRegion_eq m hn hnext hk hclosed
  have hfate : h.fate c.scope.clearSoft c.scope.threshold n = _ := Heap.fate_of_ordinary hk hclosed
  obtain ⟨-, hattr⟩ := s.untouched hn
    (Heap.owner_of_not_continues (RegionKind.not_of_ordinary hk).2.2.2)
  have hinit := initialAttr_of_ordinary hk hclosed
  have hsame : ∀ a, initialAttr (h.region n) = a → ∀ i,
      d.attrs.attr i = if n = i then a else d.attrs.attr i := fun a e i => by
    split
    · next e' => rw [← e', hattr, e]
    · rfl
  have freed : h.fate c.scope.clearSoft c.scope.threshold n = .free →
      h.liveWords c.scope.clearSoft n = 0 →
      d.sortRegion next n = (return (← d.freeRegion n, next)) →
      ∃ d' next', d.sortRegion next n = .ok (d', next') ∧ next' < c.workers ∧
        c.Sorting h L (n + 1) d' := fun hf hz hr => by
    obtain ⟨d', hd, hs⟩ := s.free_single w m hk hn hf hz
    exact ⟨d', next, by rw [hr, Checked.bind_of hd]; rfl, hnext, hs⟩
  by_cases hp : (h.region n).isPinned = true
  · -- only an open archive without live objects is freed although it is pinned
    rw [if_pos hp] at hrun hfate hinit
    by_cases hopen : (h.region n).kind.isOpenArchive ∧ h.liveWords c.scope.clearSoft n = 0
    · rw [if_pos hopen] at hrun hfate
      exact freed hfate hopen.2 hrun
    · rw [if_neg hopen] at hrun hfate
      exact ⟨d, next, hrun, hnext, s.keep_single w hk hn s.ready.attrs (by simp [hfate])
        (hfate ▸ hsame _ hinit) (s.points.skip (by simp [hfate]))⟩
  · rw [if_neg hp] at hrun hfate hinit
    by_cases hempty : h.liveWords c.scope.clearSoft n = 0
    · rw [if_pos hempty] at hrun hfate
      exact freed hfate hempty hrun
    · rw [if_neg hempty] at hrun hfate
      by_cases hlt : c.scope.threshold < h.liveWords c.scope.clearSoft n
      · rw [if_pos hlt] at hrun hfate
        refine ⟨_, next, hrun, hnext, s.keep_single w hk hn
          (by rw [AttrTable.size_put, s.ready.attrs]) (by simp [hfate]) (fun i => ?_)
          (s.points.skip (by simp [hfate]))⟩
        rw [AttrTable.attr_put (s.ready.attrs ▸ hn), hfate]
      · -- the region joins the list of the worker whose turn it is
        rw [if_neg hlt] at hrun hfate
        exact ⟨_, (next + 1) % c.workers, hrun, Nat.mod_lt _ (by omega),
          s.keep_single w hk hn s.ready.attrs (by simp [hfate]) (hfate ▸ hsame _ hinit)
            (s.points.add hnext hn hfate)⟩

theorem sortContinues_of (next : Nat) (w : h.Consistent L) (s : c.Sorting h L n d)
    (hn : n < L.count) (hcont : (h.region n).kind.isContinuesHumongous = true) :
    d.sortRegion next n = .ok (d, next) ∧ c.Sorting h L (n + 1) d := by
  have hr : d.region n = .ok (d.heap.region n) := s.ready.region_of hn
  have ha : d.attrs.get n = .ok (d.attrs.attr n) := s.ready.attr_of hn
  have hkind : (h.region n).kind = .continuesHumongous := by
    simpa [RegionKind.isContinuesHumongous] using hcont
  obtain ⟨hlt, hks, -⟩ := w.owner_of_continues hn hcont
  have hnone : ∀ i, i < L.count → h.owner i ≠ n := by
    intro i hi e
    have := (w.owner_eq_self_iff hi (i := n) (by rw [hkind]; rfl)).mp e
    rw [hcont] at this
    exact absurd this.2 (by simp)
  have hcases : h.fate c.scope.clearSoft c.scope.threshold n = .free ∨
      h.fate c.scope.clearSoft c.scope.threshold n = .skipCompacting := by
    rw [Heap.fate_of_owner hks rfl]
    split
    · exact .inr rfl
    · exact .inl rfl
  have hattr : d.attrs.attr n = h.fate c.scope.clearSoft c.scope.threshold n := by
    rw [s.attr n hn, if_pos hlt]
  refine ⟨?_, s.stay (fun i hi e => absurd e (hnone i hi)) ?_ ?_⟩
  · rw [sortRegion, Checked.bind_of hr, Checked.bind_of ha, hattr]
    rcases hcases with hf | hf
    · rw [hf]
      rfl
    · have hreg : d.heap.region n = h.region n := by
        rw [s.region n hn, if_pos hlt, Heap.sorted, if_neg (by simp [hf])]
      simp only [hf, hreg, hcont, if_true, Checked.pure_eq]
  · rcases hcases with hf | hf <;> simp [hf]
  · intro hm
    rw [Heap.kind_eq_starts hm.1] at hkind
    contradiction

theorem sortSealed_of (next : Nat) (w : h.Consistent L) (s : c.Sorting h L n d) (hn : n < L.count)
    (hskip : (h.region n).kind.isFree = true ∨ (h.region n).kind.isClosedArchive = true) :
    d.sortRegion next n = .ok (d, next) ∧ c.Sorting h L (n + 1) d := by
  obtain ⟨hstarts, hcont⟩ : (h.region n).kind.isStartsHumongous = false ∧
      (h.region n).kind.isContinuesHumongous = false := by
    cases he : (h.region n).kind <;> rw [he] at hskip <;>
      first | exact ⟨rfl, rfl⟩ | exact absurd hskip (by decide)
  obtain ⟨hreg, hattr⟩ := s.untouched hn (Heap.owner_of_not_continues hcont)
  have hr : d.region n = .ok (h.region n) := hreg ▸ s.ready.region_of hn
  have ha : d.attrs.get n = .ok (initialAttr (h.region n)) := hattr ▸ s.ready.attr_of hn
  -- the first attribute is the fate already
  obtain ⟨hfate, hinit⟩ : h.fate c.scope.clearSoft c.scope.threshold n =
      initialAttr (h.region n) ∧ (initialAttr (h.region n) = .free ∧
        (h.region n).kind.isFree = true ∨ initialAttr (h.region n) = .skipMarking) := by
    rcases hskip with hk | hk
    · have hi : initialAttr (h.region n) = .free := if_pos hk
      exact ⟨(Heap.fate_of_free hk).trans hi.symm, .inl ⟨hi, hk⟩⟩
    · have hkind : (h.region n).kind = .closedArchive := by
        simpa [RegionKind.isClosedArchive] using hk
      have hi : initialAttr (h.region n) = .skipMarking := by
        rw [initialAttr, hkind]
        rfl
      exact ⟨(Heap.fate_of_closed hk).trans hi.symm, .inr hi⟩
  refine ⟨?_, s.stay (fun i hi e => ?_) ?_ ?_⟩
  · rw [sortRegion, Checked.bind_of hr, Checked.bind_of ha]
    rcases hinit with ⟨hi, -⟩ | hi <;> rw [hi] <;> rfl
  · obtain ⟨rfl, -⟩ := (w.owner_eq_self_iff hi hstarts).mp e
    refine ⟨?_, by rw [hattr, hfate]⟩
    rw [hreg, Heap.sorted, if_neg]
    rintro ⟨hfree, hused⟩
    rw [hfate] at hfree
    rcases hinit with ⟨-, h'⟩ | h'
    · simp [h'] at hused
    · simp [h'] at hfree
  · rw [hfate]
    rcases hinit with ⟨hi, -⟩ | hi <;> simp [hi]
  · intro hm
    rw [hm.1] at hstarts
    contradiction

/-- The regions of a humongous object are decided about when the loop comes to the first one. -/
theorem sortStarts_of (next : Nat) (w : h.Consistent L) (m : c.Marked h L)
    (s : c.Sorting h L n d) (hn : n < L.count) (hk : (h.region n).kind.isStartsHumongous) :
    ∃ d', d.sortRegion next n = .ok (d', next) ∧ c.Sorting h L (n + 1) d' := by
  have hkind := Heap.kind_eq_starts hk
  obtain ⟨hreg, hattr⟩ := s.untouched hn (Heap.owner_of_starts hk)
  have hr : d.region n = .ok (h.region n) := hreg ▸ s.ready.region_of hn
  have ha : d.attrs.get n = .ok (initialAttr (h.region n)) := hattr ▸ s.ready.attr_of hn
  have hcont : (h.region n).kind.isContinuesHumongous = false := by
    rw [hkind]
    rfl
  have hinit : initialAttr (h.region n) = .compacting ∨
      initialAttr (h.region n) = .skipCompacting := by
    simp only [initialAttr, hkind, RegionKind.isFree, RegionKind.isClosedArchive]
    cases (h.region n).isPinned <;> simp
  obtain ⟨d', hd, hs⟩ := sortHumongous_of w m s hn hk
  refine ⟨d', ?_, hs⟩
  rw [sortRegion, Checked.bind_of hr, Checked.bind_of ha]
  rcases hinit with hi | hi <;>
    simp only [hi, hcont, hk, Bool.false_eq_true, if_false, if_true, hd, Checked.ok_bind,
      Checked.pure_eq]

theorem sortRegion_of (w : h.Consistent L) (m : c.Marked h L) (s : c.Sorting h L n d)
    (hn : n < L.count) (hnext : next < c.workers) :
    ∃ d' next', d.sortRegion next n = .ok (d', next') ∧ next' < c.workers ∧
      c.Sorting h L (n + 1) d' := by
  rcases h.kind_cases n with hk | hk | ⟨hk, ha⟩ | hk | hk
  · obtain ⟨hrun, hs⟩ := sortSealed_of next w s hn (.inl hk)
    exact ⟨d, next, hrun, hnext, hs⟩
  · obtain ⟨hrun, hs⟩ := sortSealed_of next w s hn (.inr hk)
    exact ⟨d, next, hrun, hnext, hs⟩
  · exact sortOrdinary_of w m s hn hnext hk ha
  · obtain ⟨d', hrun, hs⟩ := sortStarts_of next w m s hn hk
    exact ⟨d', next, hrun, hnext, hs⟩
  · obtain ⟨hrun, hs⟩ := sortContinues_of next w s hn hk
    exact ⟨d, next, hrun, hnext, hs⟩

end Region

/-- Every region has met its fate, and nothing is planned for the live objects yet. -/
structure Sorted (c : Collector) (h : Heap) (L : Layout) (d : Collector) : Prop where
  same : d = c.withSorting d.heap.table d.heap.liveness d.attrs d.points d.humongousStarts d.freed
  ready : d.Ready L
  memory : d.heap.memory = h.memory
  exact : ∀ o, L.IsWord o →
    (d.heap.liveness.marked L o = true ↔ h.Traced c.scope.clearSoft o)
  region : ∀ i, i < L.count →
    (d.heap.region i).Alike (h.sorted c.scope.clearSoft c.scope.threshold i) ∧
      (d.heap.region i).blocks = (h.sorted c.scope.clearSoft c.scope.threshold i).blocks
  attr : ∀ i, i < L.count → d.attrs.attr i = h.fate c.scope.clearSoft c.scope.threshold i
  points : c.Dealt h L L.count d.points
  starts : c.Listed h L L.count d.humongousStarts

variable {c d : Collector} {h : Heap} {L : Layout}

theorem Marked.sorting (m : c.Marked h L) : c.Sorting h L 0 c := by
  refine ⟨rfl, m.toReady, by rw [m.table]; rfl, fun _ _ => rfl, fun i _ => ?_, fun i hi => ?_, ?_,
    ?_⟩
  · rw [if_neg (by omega), Heap.region, m.table]
    rfl
  · rw [if_neg (by omega), m.attr i hi]
  · refine ⟨m.points, fun k hk => by rw [m.fresh k hk], fun k hk => by rw [m.fresh k hk]; simp,
      fun i => ?_, fun i k k' hk _ hi => ?_⟩
    · constructor
      · rintro ⟨k, hk, hi⟩
        rw [m.fresh k hk] at hi
        simp at hi
      · rintro ⟨h0, -⟩
        omega
    · rw [m.fresh k hk] at hi
      simp at hi
  · rw [m.humongousStarts]
    exact ⟨by simp, fun i => by simp⟩

theorem sortRegions_of (w : h.Consistent L) (m : c.Marked h L) :
    ∃ d, c.sortRegions = .ok d ∧ c.Sorted h L d := by
  obtain ⟨⟨d, next⟩, hf, -, s⟩ := Checked.foldlM_range_of (n := L.count)
    (f := fun (x : Collector × Nat) i => x.1.sortRegion x.2 i)
    (fun n (x : Collector × Nat) => x.2 < c.workers ∧ c.Sorting h L n x.1)
    (fun i x hi ⟨hx, s⟩ => by
      obtain ⟨d', next', he, hlt, s'⟩ := sortRegion_of w m s hi hx
      exact ⟨(d', next'), he, hlt, s'⟩)
    (c, 0) ⟨m.workers, m.sorting⟩
  refine ⟨d, ?_, s.same, s.ready, s.memory, fun o ho => ?_, fun i hi => ?_, fun i hi => ?_,
    s.points, s.starts⟩
  · rw [sortRegions, m.indices, Checked.bind_of hf]
    rfl
  · rw [s.marks o ho, m.exact o ho]
  · rw [s.region i hi, if_pos (w.owner_lt hi)]
    exact ⟨⟨rfl, rfl, rfl, rfl, rfl⟩, rfl⟩
  · rw [s.attr i hi, if_pos (w.owner_lt hi)]

theorem forgetReferences_of (s : c.Sorted h L d) :
    ∃ d', d.forgetReferences = .ok d' ∧ c.Sorted h L d' := by
  obtain ⟨t, ht, hlaid, hmem, hreg⟩ := Checked.foldlM_range_of (n := L.count)
    (f := fun (t : RegionTable) i => do
      if (← d.attrs.get i) == .free then return t
      t.update i fun r => return { r with remSet := r.remSet.clear false })
    (fun _ t => t.Laid L ∧ t.memory = d.heap.table.memory ∧ ∀ i, i < L.count →
      (t.region i).Alike (d.heap.region i) ∧ (t.region i).blocks = (d.heap.region i).blocks)
    (fun i t hi ⟨hl, hm, hr⟩ => by
      by_cases hfree : (d.attrs.attr i == .free) = true
      · refine ⟨t, ?_, hl, hm, hr⟩
        simp only [s.ready.attr_of hi, hfree, Checked.ok_bind, if_true, Checked.pure_eq]
      · have hri := hl.region i hi
        refine ⟨t.put i { t.region i with remSet := (t.region i).remSet.clear false }, ?_,
          hl.put hi ⟨hri.index, hri.bottom, hri.limit, hri.blocksBottom, hri.blocksLimit,
            hri.blocks, hri.bottom_le, hri.top_le, hri.aligned⟩, hm, fun j hj => ?_⟩
        · simp only [s.ready.attr_of hi, hfree, Checked.ok_bind, Bool.false_eq_true, if_false]
          exact hl.update_of hi rfl
        · rw [hl.region_put_of hi]
          split
          · next e =>
            subst e
            have h' := hr i hi
            exact ⟨⟨h'.1.kind, h'.1.top, h'.1.pins, h'.1.humongousStart, h'.1.marked⟩, h'.2⟩
          · exact hr j hj)
    d.heap.table ⟨s.ready.heap.table, rfl, fun i _ => ⟨⟨rfl, rfl, rfl, rfl, rfl⟩, rfl⟩⟩
  refine ⟨d.setTable t, ?_, by rw [s.same]; rfl, ?_, hmem.trans s.memory, s.exact,
    fun i hi => ?_, s.attr, s.points, s.starts⟩
  · rw [forgetReferences, s.ready.indices, Checked.bind_of ht]
    rfl
  · have r := s.ready
    exact ⟨⟨r.heap.start, r.heap.bytes, hlaid, r.heap.liveness⟩, r.attrs, r.live, r.tops,
      r.points, r.workers, r.gang⟩
  · have hready := hreg i hi
    have hsorted := s.region i hi
    exact ⟨hready.1.trans hsorted.1, hready.2.trans hsorted.2⟩

end RegionHeap.Collector
