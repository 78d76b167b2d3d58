import RegionHeap.Proofs.Fates

/-!
Abandoning the candidates. Regions get their own remembered sets back and the groups are dropped;
nothing that a collection looks at changes.
-/
set_option autoImplicit false

namespace RegionHeap

/-- Only what the regions remember has changed. -/
structure RegionTable.Alike (t t' : RegionTable) : Prop where
  size : t'.size = t.size
  memory : t'.memory = t.memory
  shared : t'.shared.sets.size = t.shared.sets.size
  region : ∀ i, ∃ s, t'.region i = { t.region i with remSet := s }

namespace RegionTable.Alike

variable {t t' t'' : RegionTable}

theorem refl (t : RegionTable) : t.Alike t := ⟨rfl, rfl, rfl, fun i => ⟨(t.region i).remSet, rfl⟩⟩

theorem trans (a : t.Alike t') (b : t'.Alike t'') : t.Alike t'' := by
  refine ⟨b.size.trans a.size, b.memory.trans a.memory, b.shared.trans a.shared, fun i => ?_⟩
  obtain ⟨r, hr⟩ := a.region i
  obtain ⟨s, hs⟩ := b.region i
  exact ⟨s, by rw [hs, hr]⟩

end RegionTable.Alike

namespace Group

variable {t : RegionTable} {g : Group}

theorem release_of {i : Nat} (hi : i < t.size) :
    ∃ t', release t i = .ok t' ∧ t.Alike t' := by
  refine ⟨_, RegionTable.update_of_lt hi rfl, RegionTable.size_put _ _ _, rfl, rfl, fun j => ?_⟩
  rw [RegionTable.region_put hi]
  split
  · next e =>
    subst e
    exact ⟨_, rfl⟩
  · exact ⟨_, rfl⟩

theorem clear_of (hg : g.cards < t.shared.sets.size) :
    ∃ g' t', g.clear t = .ok (g', t') ∧ t.Alike t' := by
  have hget : t.cards g.cards = .ok (Table.entry t.shared.sets g.cards) := Table.get_of_lt hg
  have hset := Table.set_of_lt hg (Table.entry t.shared.sets g.cards).clear
  refine ⟨{ g with members := [] }, { t with shared := { t.shared with
    sets := t.shared.sets.setIfInBounds g.cards (Table.entry t.shared.sets g.cards).clear } }, ?_,
    rfl, rfl, by simp, fun i => ⟨(t.region i).remSet, rfl⟩⟩
  simp only [clear, hget, RegionTable.setCards, SharedCards.set, hset, Checked.ok_bind,
    Checked.pure_eq]

theorem abandon_of (hg : g.cards < t.shared.sets.size) (hr : ∀ i ∈ g.regions, i < t.size) :
    ∃ g' t', g.abandon t = .ok (g', t') ∧ t.Alike t' := by
  obtain ⟨t₁, h₁, -, a₁⟩ := Checked.foldlM_of (f := release)
    (fun rest t₁ => (∀ i ∈ rest, i < t.size) ∧ t.Alike t₁)
    (fun i rest t₁ ⟨hrest, a⟩ => by
      obtain ⟨t₂, h₂, b⟩ := release_of (t := t₁) (i := i) (a.size ▸ hrest i (by simp))
      exact ⟨t₂, h₂, fun j hj => hrest j (by simp [hj]), a.trans b⟩)
    g.regions t ⟨hr, RegionTable.Alike.refl t⟩
  obtain ⟨g', t', h', b⟩ := clear_of (t := t₁) (g := g) (a₁.shared ▸ hg)
  exact ⟨g', t', (Checked.bind_of h₁ _).trans h', a₁.trans b⟩

end Group

theorem GroupList.abandon_of {l : GroupList} {t : RegionTable}
    (hl : ∀ g ∈ l.groups, g.cards < t.shared.sets.size ∧ ∀ i ∈ g.regions, i < t.size) :
    ∃ t', l.abandon t = .ok ({}, t') ∧ t.Alike t' := by
  obtain ⟨t', h', -, a⟩ := Checked.foldlM_of
    (f := fun t g => do return (← Group.abandon g t).2)
    (fun rest t₁ => (∀ g ∈ rest, g.cards < t.shared.sets.size ∧ ∀ i ∈ g.regions, i < t.size) ∧
      t.Alike t₁)
    (fun g rest t₁ ⟨hrest, a⟩ => by
      obtain ⟨hc, hr⟩ := hrest g (by simp)
      obtain ⟨g', t₂, h₂, b⟩ := Group.abandon_of (t := t₁) (g := g) (a.shared ▸ hc)
        fun i hi => a.size ▸ hr i hi
      exact ⟨t₂, (Checked.bind_of h₂ _).trans rfl, fun g hg => hrest g (by simp [hg]), a.trans b⟩)
    l.groups t ⟨hl, RegionTable.Alike.refl t⟩
  exact ⟨t', (Checked.bind_of h' _).trans rfl, a⟩

namespace Heap

/-- The heaps look the same to a collection. -/
structure Alike (h h' : Heap) : Prop where
  options : h'.options = h.options
  start : h'.start = h.start
  gang : h'.gang.size = h.gang.size
  roots : h'.roots = h.roots
  liveness : h'.liveness = h.liveness
  table : h.table.Alike h'.table

namespace Alike

variable {h h' : Heap} {L : Layout} {clearSoft : Bool} {threshold i o : Nat}

theorem region (a : h.Alike h') (i : Nat) : ∃ s, h'.region i = { h.region i with remSet := s } :=
  a.table.region i

theorem memory (a : h.Alike h') : h'.memory = h.memory := a.table.memory

theorem regionCount (a : h.Alike h') : h'.regionCount = h.regionCount := a.table.size

theorem humongousSpan (a : h.Alike h') (i : Nat) :
    h'.humongousSpan (h'.region i) = h.humongousSpan (h.region i) := by
  obtain ⟨s, hs⟩ := a.region i
  rw [Heap.humongousSpan, Heap.humongousSpan, regionsFor, regionsFor, regionWords, regionWords,
    a.memory, a.options, hs]

theorem objectsIn (a : h.Alike h') : h'.objectsIn = h.objectsIn := by
  funext i
  obtain ⟨s, hs⟩ := a.region i
  rw [Heap.objectsIn, Heap.objectsIn, hs, a.memory]
  rfl

theorem isObject (a : h.Alike h') : h'.IsObject = h.IsObject := by
  funext o
  rw [IsObject, IsObject, a.regionCount, a.objectsIn]

theorem inClosedArchive (a : h.Alike h') : h'.InClosedArchive = h.InClosedArchive := by
  funext o
  rw [InClosedArchive, InClosedArchive, a.regionCount]
  refine propext (exists_congr fun i => and_congr_right fun _ => ?_)
  obtain ⟨s, hs⟩ := a.region i
  rw [hs]
  exact Iff.rfl

theorem traced (a : h.Alike h') : h'.Traced clearSoft = h.Traced clearSoft := by
  have hroots : h'.markingRoots clearSoft = h.markingRoots clearSoft := by
    rw [markingRoots, markingRoots, a.roots]
  funext o
  refine propext ⟨fun ht => ?_, fun ht => ?_⟩
  · induction ht with
    | root ho hz ha => exact .root (hroots ▸ ho) hz (a.inClosedArchive ▸ ha)
    | field _ hp hz ha ih => exact .field ih (a.memory ▸ hp) hz (a.inClosedArchive ▸ ha)
  · induction ht with
    | root ho hz ha => exact .root (hroots ▸ ho) hz (a.inClosedArchive ▸ ha)
    | field _ hp hz ha ih => exact .field ih (a.memory ▸ hp) hz (a.inClosedArchive ▸ ha)

theorem alive (a : h.Alike h') : h'.Alive clearSoft = h.Alive clearSoft := by
  funext o
  rw [Alive, Alive, a.traced, a.isObject, a.inClosedArchive]

theorem reached (a : h.Alike h') (ho : h'.Reached o) : h.Reached o := by
  induction ho with
  | root k ho hz => exact .root k (a.roots ▸ ho) hz
  | field _ hp hz ih => exact .field ih (a.memory ▸ hp) hz

theorem liveIn (a : h.Alike h') : h'.liveIn clearSoft = h.liveIn clearSoft := by
  funext i
  rw [Heap.liveIn, Heap.liveIn, a.objectsIn, a.traced]

theorem liveWords (a : h.Alike h') : h'.liveWords clearSoft = h.liveWords clearSoft := by
  funext i
  rw [Heap.liveWords, Heap.liveWords, a.liveIn, a.memory]

theorem kind (a : h.Alike h') (i : Nat) : (h'.region i).kind = (h.region i).kind ∧
    (h'.region i).isPinned = (h.region i).isPinned := by
  obtain ⟨s, hs⟩ := a.region i
  rw [hs]
  exact ⟨rfl, rfl⟩

theorem owner (a : h.Alike h') : h'.owner = h.owner := by
  funext i
  obtain ⟨s, hs⟩ := a.region i
  rw [Heap.owner, Heap.owner, hs]

theorem fate (a : h.Alike h') : h'.fate clearSoft threshold = h.fate clearSoft threshold := by
  funext i
  rw [Heap.fate, Heap.fate, a.owner]
  obtain ⟨s, hs⟩ := a.region (h.owner i)
  rw [ownFate, ownFate, hs, a.liveIn, a.liveWords]
  rfl

end Alike

variable {h : Heap} {L : Layout}

/-- A heap that looks the same is as much in order. -/
theorem Built.alike {h' : Heap} (w : h.Built L) (a : h.Alike h')
    (hc : ∀ g ∈ h'.candidates.retained.groups ++ h'.candidates.marking.groups, h'.Linked g) :
    h'.Built L := by
  have hobj := a.isObject
  have hmem := a.memory
  have hblocks : ∀ i, (h'.region i).blocks = (h.region i).blocks ∧
      (h'.region i).top = (h.region i).top ∧ (h'.region i).kind = (h.region i).kind ∧
      (h'.region i).bottom = (h.region i).bottom ∧
      (h'.region i).humongousStart = (h.region i).humongousStart := fun i => by
    obtain ⟨s, hs⟩ := a.region i
    rw [hs]
    exact ⟨rfl, rfl, rfl, rfl, rfl⟩
  have hkind := fun i => (hblocks i).2.2.1
  refine {
    options := by rw [a.options]; exact w.options
    start := a.start.trans w.start
    bytes := by rw [regionBytes, a.options]; exact w.bytes
    table := ⟨a.table.size.trans w.table.size, fun i hi => ?table⟩
    gang := by rw [a.gang]; exact w.gang
    free := fun i hi hk => ?free
    dense := fun i hi hk => ?dense
    formatted := fun o ho => hmem ▸ w.formatted o (hobj ▸ ho)
    blocks := fun i hi hk => ?blocks
    humongous := fun s hs hk => ?humongous
    continued := fun i hi hk => ?continued
    unforwarded := fun o ho => hmem ▸ w.unforwarded o (hobj ▸ ho)
    linked := hc }
  case table =>
    obtain ⟨s, hs⟩ := a.table.region i
    have l := w.table.region i hi
    rw [hs]
    exact ⟨l.index, l.bottom, l.limit, l.blocksBottom, l.blocksLimit, l.blocks, l.bottom_le,
      l.top_le, l.aligned⟩
  case free =>
    rw [(hblocks i).2.1]
    exact w.free i hi (hkind i ▸ hk)
  case dense =>
    rw [Region.isDense, (hblocks i).2.1, (hblocks i).2.2.2.1, hmem]
    exact w.dense i hi (hkind i ▸ hk)
  case blocks =>
    rw [(hblocks i).1, (hblocks i).2.1, a.objectsIn]
    exact w.blocks i hi (hkind i ▸ hk)
  case humongous =>
    have hspans := w.humongous s hs (hkind s ▸ hk)
    refine ⟨by rw [a.humongousSpan]; exact hspans.within,
      by rw [(hblocks s).2.2.2.2]; exact hspans.first,
      fun i hfrom hto => ?_, fun i hfrom hto => ?_⟩
    · rw [hkind, (hblocks i).2.2.2.2]
      exact hspans.later i hfrom (a.humongousSpan s ▸ hto)
    · rw [(hblocks i).2.1, hmem]
      exact hspans.covered i hfrom (a.humongousSpan s ▸ hto)
  case continued =>
    obtain ⟨s, hlt, hstarts, hto⟩ := w.continued i hi (hkind i ▸ hk)
    exact ⟨s, hlt, hkind s ▸ hstarts, by rw [a.humongousSpan]; exact hto⟩

namespace Alike

variable {h' : Heap} (a : h.Alike h')

include a

theorem referring (r : h.Referring) : h'.Referring := by
  refine ⟨fun k o ho hz => ?_, fun o ho p hp hz => ?_⟩ <;> rw [a.isObject]
  · exact r.rooted k o (a.roots ▸ ho) hz
  · exact r.valid o (a.traced ▸ ho) p (a.memory ▸ hp) hz

theorem unmarked (u : h.Unmarked L) : h'.Unmarked L := by
  refine ⟨?_, ?_⟩ <;> rw [a.liveness]
  · exact u.liveness
  · exact u.unmarked

theorem selfContained (s : h.SelfContained) : h'.SelfContained := by
  intro o ho ha p hp hz
  rw [a.isObject] at ho ⊢
  rw [a.inClosedArchive] at ha ⊢
  exact s o ho ha p (a.memory ▸ hp) hz

end Alike

theorem abandonCandidates_of (w : h.Built L) :
    ∃ h', h.abandonCandidates = .ok h' ∧ h.Alike h' ∧
      h'.candidates.retained.groups ++ h'.candidates.marking.groups = [] := by
  obtain ⟨t₁, h₁, a₁⟩ := GroupList.abandon_of (l := h.candidates.retained) (t := h.table)
    fun g hg => w.linked g (List.mem_append_left _ hg)
  obtain ⟨t₂, h₂, a₂⟩ := GroupList.abandon_of (l := h.candidates.marking) (t := t₁) fun g hg => by
    have hl := w.linked g (List.mem_append_right _ hg)
    rw [a₁.shared, a₁.size]
    exact hl
  have hclear : h.toSelection.clear = .ok { h.toSelection with table := t₂, candidates :=
      ⟨h.candidates.origins.map fun _ => .invalid, {}, {}, 0⟩ } :=
    (Checked.bind_of h₁ _).trans ((Checked.bind_of h₂ _).trans rfl)
  exact ⟨{ h with table := t₂, candidates :=
    ⟨h.candidates.origins.map fun _ => .invalid, {}, {}, 0⟩ },
    (Checked.bind_of hclear _).trans rfl, ⟨rfl, rfl, rfl, rfl, rfl, a₁.trans a₂⟩, rfl⟩

end Heap

end RegionHeap
