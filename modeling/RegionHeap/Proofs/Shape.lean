import RegionHeap.Proofs.History

/-!
The shape of the heap after a collection. The regions that were compacted hold the live objects
that slid into them and nothing else, and what died left free regions behind, unless a humongous
object moved into them.
-/
set_option autoImplicit false

namespace RegionHeap

namespace Heap

open Classical in
/-- The regions that a collection compacts: the ordinary ones that nobody pins and whose live
words do not exceed a threshold, even if nothing in them is live. -/
noncomputable def compacted (h : Heap) (clearSoft : Bool) (threshold : Nat) : List Nat :=
  (List.range h.regionCount).filter fun i => (h.region i).kind.isOrdinary = true ∧
    (h.region i).isPinned = false ∧ h.liveWords clearSoft i ≤ threshold

/-- A live humongous object came down into the region. -/
def MovedInto (h : Heap) (L : Layout) (clearSoft : Bool) (place : Nat → Nat) (h' : Heap)
    (i : Nat) : Prop :=
  ∃ s t, (h.region s).kind.isStartsHumongous = true ∧ h.Traced clearSoft (L.bottom s) ∧
    place (L.bottom s) = L.bottom t ∧ t < s ∧ t ≤ i ∧ i < t + h.humongousSpan (h.region s) ∧
    (h'.region i).kind.isHumongous = true ∧ (h'.region i).humongousStart = some t

/-- The region is free and empty. -/
def Emptied (L : Layout) (h' : Heap) (i : Nat) : Prop :=
  (h'.region i).kind = .free ∧ (h'.region i).top = L.bottom i

/-- The region is old and filled without a gap with the live objects that slid into it. -/
def Refilled (h : Heap) (L : Layout) (clearSoft : Bool) (threshold : Nat) (place : Nat → Nat)
    (h' : Heap) (i : Nat) : Prop :=
  (h'.region i).kind = .old ∧
    Object.Chain h'.memory (L.bottom i) (h'.objectsIn i) (h'.region i).top ∧
    ∀ p, p ∈ h'.objectsIn i ↔ L.regionOf p = i ∧
      ∃ j ∈ h.compacted clearSoft threshold, ∃ o ∈ h.liveIn clearSoft j, place o = p

/-- What a collection makes of the regions. -/
structure Compacted (h : Heap) (L : Layout) (clearSoft : Bool) (threshold : Nat)
    (place : Nat → Nat) (h' : Heap) : Prop where
  region : ∀ i ∈ h.compacted clearSoft threshold, h.MovedInto L clearSoft place h' i ∨
    Emptied L h' i ∨ h.Refilled L clearSoft threshold place h' i
  words : Word.total (((h.compacted clearSoft threshold).filter fun i =>
      !(h'.region i).kind.isHumongous).map fun i => (h'.region i).used / 8) =
    Word.total ((h.compacted clearSoft threshold).map (h.liveWords clearSoft))
  free : ∀ i, i < h.regionCount → (h.region i).kind.isFree = true →
    h.MovedInto L clearSoft place h' i ∨ Emptied L h' i
  humongous : ∀ s, s < h.regionCount → (h.region s).kind.isStartsHumongous = true →
    ¬h.Traced clearSoft (L.bottom s) → (∀ i, s ≤ i → i < s + h.humongousSpan (h.region s) →
      (h.region i).isPinned = false) → ∀ i, s ≤ i → i < s + h.humongousSpan (h.region s) →
    h.MovedInto L clearSoft place h' i ∨ Emptied L h' i
  archive : ∀ i, i < h.regionCount → (h.region i).kind.isOpenArchive = true →
    h.liveIn clearSoft i = [] → h.MovedInto L clearSoft place h' i ∨ Emptied L h' i

variable {h h₁ h' : Heap} {L : Layout} {clearSoft : Bool} {threshold i : Nat} {place : Nat → Nat}

theorem mem_compacted : i ∈ h.compacted clearSoft threshold ↔ i < h.regionCount ∧
    (h.region i).kind.isOrdinary = true ∧ (h.region i).isPinned = false ∧
      h.liveWords clearSoft i ≤ threshold := by
  simp [compacted]

namespace Alike

theorem mem_compacted_iff (a : h.Alike h₁) :
    h₁.compacted clearSoft threshold = h.compacted clearSoft threshold := by
  rw [compacted, compacted, a.regionCount, a.liveWords]
  refine List.filter_congr fun i _ => ?_
  rw [(a.kind i).1, (a.kind i).2]

theorem movedInto (a : h.Alike h₁) (v : h₁.MovedInto L clearSoft place h' i) :
    h.MovedInto L clearSoft place h' i := by
  obtain ⟨s, t, hstarts, htraced, hplace, hlt, hle, hspan, hkind⟩ := v
  exact ⟨s, t, (a.kind s).1 ▸ hstarts, a.traced ▸ htraced, hplace, hlt, hle,
    a.humongousSpan s ▸ hspan, hkind⟩

theorem compacted (a : h.Alike h₁) (v : h₁.Compacted L clearSoft threshold place h') :
    h.Compacted L clearSoft threshold place h' := by
  have hsame : h₁.compacted clearSoft threshold = h.compacted clearSoft threshold :=
    a.mem_compacted_iff
  have hrefilled : h₁.Refilled L clearSoft threshold place h' =
      h.Refilled L clearSoft threshold place h' := by
    funext i
    rw [Refilled, Refilled, hsame, a.liveIn]
  refine ⟨fun i hi => ?_, ?_, fun i hi hk => ?_, fun s hs hk ht hpin i hsi his => ?_,
    fun i hi hk hn => ?_⟩
  · have := v.region i (hsame ▸ hi)
    rw [hrefilled] at this
    exact this.imp_left a.movedInto
  · have := v.words
    rw [hsame, a.liveWords] at this
    exact this
  · exact (v.free i (a.regionCount ▸ hi) ((a.kind i).1 ▸ hk)).imp_left a.movedInto
  · have hspan := a.humongousSpan s
    refine (v.humongous s (a.regionCount ▸ hs) ((a.kind s).1 ▸ hk) (by rw [a.traced]; exact ht)
      (fun j hsj hjs => ?_) i hsi (by rw [hspan]; exact his)).imp_left a.movedInto
    rw [(a.kind j).2]
    exact hpin j hsj (hspan ▸ hjs)
  · exact (v.archive i (a.regionCount ▸ hi) ((a.kind i).1 ▸ hk)
      (by rw [a.liveIn]; exact hn)).imp_left a.movedInto

end Alike

namespace Consistent

theorem fate_of_compacted (w : h.Consistent L) (hi : i ∈ h.compacted clearSoft threshold) :
    i < L.count ∧ (h.liveWords clearSoft i = 0 ∧ h.fate clearSoft threshold i = .free ∨
      h.liveWords clearSoft i ≠ 0 ∧ h.fate clearSoft threshold i = .compacting) := by
  obtain ⟨hi, hord, hpin, hle⟩ := mem_compacted.mp hi
  rw [w.regionCount] at hi
  refine ⟨hi, ?_⟩
  by_cases hz : h.liveWords clearSoft i = 0
  · refine .inl ⟨hz, ?_⟩
    rw [fate_of_ordinary hord (not_closed_of_not_pinned hpin), if_neg (by simp [hpin]), if_pos hz]
  · exact .inr ⟨hz, (w.fate_eq_compacting hi).mpr ⟨hord, hpin, hz, hle⟩⟩

theorem mem_compacted_of_fate (w : h.Consistent L) (hi : i < L.count)
    (hf : h.fate clearSoft threshold i = .compacting) : i ∈ h.compacted clearSoft threshold := by
  obtain ⟨hord, hpin, -, hlive⟩ := (w.fate_eq_compacting hi).mp hf
  exact mem_compacted.mpr ⟨w.regionCount ▸ hi, hord, hpin, hlive⟩

end Consistent

end Heap

namespace Collector

variable {c f : Collector} {h h' : Heap} {L : Layout} {fill : Nat → List (Nat × Nat)}
  {m₃ : Memory} {x : Collector} {i : Nat}

namespace Collected

variable (k : c.Collected h L f fill m₃ x h')

include k

theorem movedInto_of {m : HumongousMove} (hm : m ∈ f.moves) (ht : m.Takes i)
    (hk : (h'.region i).kind.isHumongous = true)
    (hs : (h'.region i).humongousStart = some m.target) :
    h.MovedInto L c.scope.clearSoft f.place h' i := by
  obtain ⟨-, hks, hn⟩ := k.planned.source_of hm
  have := ht.2
  exact ⟨m.source, m.target, hks, k.planned.traced_of_move k.consistent hm,
    k.planned.place_of_move hm, k.planned.moves.down m hm, ht.1, by omega, hk, hs⟩

/-- A region that is freed is empty afterwards, unless something moved into it. -/
theorem emptied_of (hi : i < L.count)
    (hf : h.fate c.scope.clearSoft c.scope.threshold i = .free) :
    h.MovedInto L c.scope.clearSoft f.place h' i ∨ Heap.Emptied L h' i := by
  cases k.ended hi with
  | taken m hm ht hk hs => exact .inl (k.movedInto_of hm ht hk hs)
  | empty _ hk ht => exact .inr ⟨hk, ht⟩
  | filled hl _ _ _ _ =>
    have := ((k.planned.mem i).mp hl).2
    rw [hf] at this
    contradiction
  | kept keeps _ => exact absurd hf keeps.used

theorem refilled_of (hl : i ∈ f.lists) (hk : (h'.region i).kind = .old)
    (ht : (h'.region i).top = Table.entry f.tops i) :
    h.Refilled L c.scope.clearSoft c.scope.threshold f.place h' i := by
  have w := k.consistent
  have hi := ((k.planned.mem i).mp hl).1
  refine ⟨hk, (k.ordinary_of hi (by rw [hk]; rfl)).1, fun p => ?_⟩
  rw [k.objectsIn_filled hl hk ht]
  constructor
  · intro hp
    obtain ⟨q, hq, rfl⟩ := List.mem_map.mp hp
    obtain ⟨j, hj, hf, ho⟩ := (k.planned.only i hl q hq).2
    have hsize := w.size_ge (w.isObject (w.regionCount ▸ hj) (Heap.mem_liveIn.mp ho).1)
    have hb := (k.planned.filled i hl).packed.bounds hq
    have htop := (k.planned.filled i hl).le
    exact ⟨Layout.regionOf_eq hb.1 (by omega), j, w.mem_compacted_of_fate (w.regionCount ▸ hj) hf,
      q.1, ho, (k.planned.destination_of w hl hq).1⟩
  · rintro ⟨hr, j, hj, o, ho, rfl⟩
    obtain ⟨hjl, hfate⟩ := w.fate_of_compacted hj
    have hne : h.liveWords c.scope.clearSoft j ≠ 0 := fun hz => by
      rw [(w.liveWords_eq_zero hjl).mp hz] at ho
      simp at ho
    have hs : h.Slides c.scope.clearSoft c.scope.threshold o :=
      ⟨j, w.regionCount ▸ hjl, (hfate.resolve_left fun e => hne e.1).2, ho⟩
    obtain ⟨n, hn, hq, hfrom, hto⟩ := k.planned.spot_of_slides w hs
    have hsize := w.size_ge hs.isObject
    rw [Layout.regionOf_eq hfrom (by omega)] at hr
    exact List.mem_map.mpr ⟨(o, f.place o), hr ▸ hq, rfl⟩

theorem lists_perm : f.lists.Perm ((h.compacted c.scope.clearSoft c.scope.threshold).filter
    fun i => h.fate c.scope.clearSoft c.scope.threshold i = .compacting) := by
  have w := k.consistent
  refine (List.perm_ext_iff_of_nodup k.planned.nodup ?_).mpr fun i => ?_
  · exact (List.nodup_range.filter _).filter _
  · rw [k.planned.mem, List.mem_filter, decide_eq_true_iff]
    exact ⟨fun ⟨hi, hf⟩ => ⟨w.mem_compacted_of_fate hi hf, hf⟩,
      fun ⟨hi, hf⟩ => ⟨(w.fate_of_compacted hi).1, hf⟩⟩

theorem total_live : Word.total ((h.compacted c.scope.clearSoft c.scope.threshold).map
    (h.liveWords c.scope.clearSoft)) = f.compactedLive := by
  rw [k.planned.compactedLive, Word.total_perm (k.lists_perm.map _)]
  refine (Word.total_filter (fun _ _ _ => rfl) fun i hi hf => ?_).symm
  rcases (k.consistent.fate_of_compacted hi).2 with hfree | hmoving
  · exact hfree.1
  · rw [hmoving.2] at hf
    simp at hf

theorem not_keeps (hi : i ∈ h.compacted c.scope.clearSoft c.scope.threshold) :
    ¬c.Keeps h f i := by
  intro keeps
  obtain ⟨hil, hfree | hmoving⟩ := k.consistent.fate_of_compacted hi
  · exact keeps.used hfree.2
  · exact keeps.unlisted ((k.planned.mem i).mpr ⟨hil, hmoving.2⟩)

/-- The words that are in use in the compacted regions are those that were live there. -/
theorem total_used : Word.total (((h.compacted c.scope.clearSoft c.scope.threshold).filter fun i =>
      !(h'.region i).kind.isHumongous).map fun i => (h'.region i).used / 8) =
    Word.total ((h.compacted c.scope.clearSoft c.scope.threshold).map
      (h.liveWords c.scope.clearSoft)) := by
  have w := k.consistent
  -- what slid into a region; nothing slides into one that is freed
  obtain ⟨g, hlisted, hfreed⟩ : ∃ g : Nat → Nat,
      (∀ i, h.fate c.scope.clearSoft c.scope.threshold i = .compacting →
        g i = Word.total ((fill i).map fun q => Object.size h.memory q.1)) ∧
      ∀ i, h.fate c.scope.clearSoft c.scope.threshold i ≠ .compacting → g i = 0 :=
    ⟨fun i => if h.fate c.scope.clearSoft c.scope.threshold i = .compacting then
      Word.total ((fill i).map fun q => Object.size h.memory q.1) else 0,
      fun _ hf => if_pos hf, fun _ hf => if_neg hf⟩
  have hright : Word.total (f.lists.map fun i =>
      Word.total ((fill i).map fun q => Object.size h.memory q.1)) =
      Word.total ((h.compacted c.scope.clearSoft c.scope.threshold).map g) := by
    rw [Word.total_perm (k.lists_perm.map _)]
    exact Word.total_filter (fun i _ hf => (hlisted i (by simpa using hf)).symm)
      fun i _ hf => hfreed i (by simpa using hf)
  rw [k.total_live, ← k.planned.total_sent w, hright]
  refine Word.total_filter (fun i hi hhum => ?_) fun i hi hhum => ?_ <;>
    obtain ⟨hil, hfate⟩ := w.fate_of_compacted hi
  · have hhum : (h'.region i).kind.isHumongous = false := by simpa using hhum
    rcases hfate with ⟨-, hf⟩ | ⟨-, hf⟩
    · rw [hfreed i (by rw [hf]; simp)]
      rcases k.emptied_of hil hf with ⟨_, _, _, _, _, _, _, _, hk, _⟩ | ⟨-, ht⟩
      · rw [hk] at hhum
        contradiction
      · rw [Region.used, ht, (k.laid_of hil).bottom, Nat.sub_self]
    · rw [hlisted i hf]
      exact (k.ended hil).used_of_listed w k.planned ((k.planned.mem i).mpr ⟨hil, hf⟩)
        (k.laid_of hil).bottom hhum
  · rcases hfate with ⟨-, hf⟩ | ⟨-, hf⟩
    · exact hfreed i (by rw [hf]; simp)
    · rw [hlisted i hf, (k.ended hil).fill_of_humongous w k.planned
        ((k.planned.mem i).mpr ⟨hil, hf⟩) (by simpa using hhum)]
      rfl

/-- What a collection makes of the regions. -/
theorem compacted : h.Compacted L c.scope.clearSoft c.scope.threshold f.place h' := by
  have w := k.consistent
  have hc := w.regionCount
  refine ⟨fun i hi => ?_, k.total_used, fun i hi hk => ?_, fun s hs hk ht hpin i hsi his => ?_,
    fun i hi hk hn => ?_⟩
  · have hil := (w.fate_of_compacted hi).1
    cases k.ended hil with
    | taken m hm ht hk hs => exact .inl (k.movedInto_of hm ht hk hs)
    | empty _ hk ht => exact .inr (.inl ⟨hk, ht⟩)
    | filled hl _ hk ht _ => exact .inr (.inr (k.refilled_of hl hk ht))
    | kept keeps _ => exact absurd keeps (k.not_keeps hi)
  · exact k.emptied_of (hc ▸ hi) (Heap.fate_of_free hk)
  · rw [hc] at hs
    have hi : i < L.count := Nat.lt_of_lt_of_le his (w.humongous s hs hk).within
    have howner := (w.owner_eq_iff hi hs hk).mpr ⟨hsi, his⟩
    have hlive : h.liveIn c.scope.clearSoft s = [] := by
      refine List.eq_nil_iff_forall_not_mem.mpr fun o ho => ht ?_
      obtain ⟨hm, ho⟩ := Heap.mem_liveIn.mp ho
      rw [w.objectsIn_humongous hs hk, List.mem_singleton] at hm
      exact hm ▸ ho
    have hpin := hpin s (Nat.le_refl _) (by omega)
    refine k.emptied_of hi ?_
    rw [Heap.fate_of_owner hk howner, if_neg (by simp [hlive, hpin])]
  · refine k.emptied_of (hc ▸ hi) ?_
    have hkind : (h.region i).kind = .openArchive := by
      simpa [RegionKind.isOpenArchive] using hk
    have hzero : h.liveWords c.scope.clearSoft i = 0 :=
      (w.liveWords_eq_zero (hc ▸ hi)).mpr hn
    rw [Heap.fate_of_ordinary (by rw [hkind]; rfl) (by rw [hkind]; rfl),
      if_pos (by rw [Region.isPinned, hkind]; rfl), if_pos ⟨hk, hzero⟩]

end Collected

end Collector

namespace Heap

variable {h : Heap} {L : Layout}

/-- After a full collection, which passes its own checks, the regions that were compacted hold the
live objects that slid into them, word for word, and those in which nothing was live are free,
unless a live humongous object came down into them. -/
theorem fullCollect_compacts (w : h.WellFormed L) (explicitRequest clearSoft maximal : Bool) :
    ∃ (place : Nat → Nat) (h' : Heap), h.fullCollect explicitRequest clearSoft maximal = .ok h' ∧
      h.Preserved clearSoft place h' ∧ h.Compacted L clearSoft
        (h.scope explicitRequest clearSoft maximal).threshold place h' := by
  obtain ⟨h₁, c, f, fill, m₃, x, h', hrun, a, hscope, k⟩ :=
    fullCollect_of w.toClean explicitRequest clearSoft maximal
  have hclear : c.scope.clearSoft = clearSoft := by
    rw [hscope]
    rfl
  have hp := k.preserved (a.selfContained w.archived)
  have hc := k.compacted
  rw [hclear] at hp hc
  rw [hscope] at hc
  exact ⟨f.place, h', hrun, a.preserved hp, a.compacted hc⟩

/-- Two regions take in the objects of four, of which each had one dead object and a live one. -/
theorem sample_compacted : ∃ h L, sample = .ok h ∧ h.WellFormed L ∧
    h.table.regions.toList.map (fun r => (r.kind, r.used)) =
      [(.eden, 96), (.eden, 96), (.eden, 96), (.old, 96), (.closedArchive, 32),
        (.startsHumongous, 65536), (.free, 0)] ∧
    ∃ (place : Nat → Nat) (h' : Heap), h.fullCollect true false false = .ok h' ∧
      h'.table.regions.toList.map (fun r => (r.kind, r.used)) =
        [(.old, 128), (.old, 128), (.free, 0), (.free, 0), (.closedArchive, 32),
          (.startsHumongous, 65536), (.free, 0)] ∧
      h.Preserved false place h' ∧
        h.Compacted L false (h.scope true false false).threshold place h' := by
  obtain ⟨h, L, hs, w⟩ := sample_wellFormed
  have hshape := of_sample (f := fun h => h.table.regions.toList.map fun r => (r.kind, r.used))
    (v := [(.eden, 96), (.eden, 96), (.eden, 96), (.old, 96), (.closedArchive, 32),
      (.startsHumongous, 65536), (.free, 0)]) hs (by decide +kernel)
  obtain ⟨place, h', hrun, hkept, hcompacted⟩ := fullCollect_compacts w true false false
  have hnew := of_sample (f := fun h => (h.fullCollect true false false).toOption.map fun h' =>
    h'.table.regions.toList.map fun r => (r.kind, r.used))
    (v := some [(.old, 128), (.old, 128), (.free, 0), (.free, 0), (.closedArchive, 32),
      (.startsHumongous, 65536), (.free, 0)]) hs (by decide +kernel)
  rw [hrun] at hnew
  exact ⟨h, L, hs, w, hshape, place, h', hrun, Option.some.inj hnew, hkept, hcompacted⟩

end Heap

end RegionHeap
