import RegionHeap.Proofs.Accounting
import RegionHeap.Proofs.Preserving
import RegionHeap.Proofs.Shape

/-!
Humongous objects in a maximal compaction. Each that is live and not pinned ends up in regions of
its own, as low as the regions that are free afterwards allow; what it leaves is free, unless
another humongous object is there.
-/
set_option autoImplicit false

namespace RegionHeap

namespace Heap

/-- A live humongous object of which no region is pinned, by its first region. -/
structure Relocatable (h : Heap) (clearSoft : Bool) (s : Nat) : Prop where
  inside : s < h.regionCount
  starts : (h.region s).kind.isStartsHumongous = true
  live : h.Traced clearSoft (h.region s).bottom
  unpinned : ∀ i, h.InBlock s i → (h.region i).isPinned = false

/-- The humongous object that began in a region begins in another one, or in the same. -/
structure Relocated (h : Heap) (L : Layout) (place : Nat → Nat) (h' : Heap) (s t : Nat) : Prop where
  down : t ≤ s
  place : place (L.bottom s) = L.bottom t
  starts : (h'.region t).kind.isStartsHumongous = true
  /-- It takes up as many regions as before. -/
  span : h'.humongousSpan (h'.region t) = h.humongousSpan (h.region s)
  spans : h'.Spans L t
  seated : t ≠ s ∨ h.Seated L s → h'.Seated L t
  /-- Behind the object is a filler, if there is room for one; a new one if the object moved. -/
  filler : t ≠ s ∨ Object.Fills h.memory (Object.limit h.memory (L.bottom s))
      (L.bottom (s + h.humongousSpan (h.region s))) →
    Object.limit h'.memory (L.bottom t) + 8 * Object.minFillWords ≤
      L.bottom (t + h'.humongousSpan (h'.region t)) →
    Object.Fills h'.memory (Object.limit h'.memory (L.bottom t))
      (L.bottom (t + h'.humongousSpan (h'.region t)))
  /-- What it left is free, unless a humongous object is there now. -/
  left : ∀ i, h.InBlock s i → (∀ j, ¬h'.InBlock j i) → Emptied L h' i
  /-- In every run of regions that begins lower one is in use, and not by the object. -/
  lowest : ∀ u, u < t → ∃ i, u ≤ i ∧ i < u + h.humongousSpan (h.region s) ∧
    (h'.region i).kind.isFree = false ∧ ¬h'.InBlock t i

/-- The regions of a humongous object belong to no other one, and no other objects are in them. -/
def BlocksApart (h : Heap) : Prop :=
  ∀ s, s < h.regionCount → ∀ i, h.InBlock s i →
    i < h.regionCount ∧ (h.region i).kind.isHumongous = true ∧
      ∀ s', s' < h.regionCount → h.InBlock s' i → s' = s

variable {h h₁ h' : Heap} {L : Layout} {clearSoft : Bool} {place : Nat → Nat} {s t i : Nat}

theorem Built.blocksApart (w : h.Built L) : h.BlocksApart := by
  intro s hs i hb
  rw [w.regionCount] at hs ⊢
  obtain ⟨hk, hfrom, hto⟩ := hb
  have hspans := w.humongous s hs hk
  refine ⟨Nat.lt_of_lt_of_le hto hspans.within, ?_, fun s' hs' hb' =>
    w.block_unique hs' hs hb'.1 hk hb'.2.1 hb'.2.2 hfrom hto⟩
  rcases Nat.eq_or_lt_of_le hfrom with rfl | hlt
  · rw [RegionKind.isHumongous, hk]
    rfl
  · rw [(hspans.later i hlt hto).1]
    rfl

namespace Alike

variable (a : h.Alike h₁)

include a

theorem inBlock : h₁.InBlock s i ↔ h.InBlock s i := by
  rw [InBlock, InBlock, a.humongousSpan, (a.kind s).1]

theorem relocatable (r : h.Relocatable clearSoft s) : h₁.Relocatable clearSoft s := by
  have hbottom : (h₁.region s).bottom = (h.region s).bottom := by
    obtain ⟨e, he⟩ := a.region s
    rw [he]
  refine ⟨by rw [a.regionCount]; exact r.inside, by rw [(a.kind s).1]; exact r.starts, ?_,
    fun i hb => ?_⟩
  · rw [a.traced, hbottom]
    exact r.live
  · rw [(a.kind i).2]
    exact r.unpinned i (a.inBlock.mp hb)

theorem relocated (r : h₁.Relocated L place h' s t) : h.Relocated L place h' s t where
  down := r.down
  place := r.place
  starts := r.starts
  span := r.span.trans (a.humongousSpan s)
  spans := r.spans
  seated hs := r.seated (hs.imp_right (·.alike a))
  filler hs := r.filler (hs.imp_right fun hf => by rwa [a.memory, a.humongousSpan s])
  left i hb := r.left i (a.inBlock.mpr hb)
  lowest u hu := a.humongousSpan s ▸ r.lowest u hu

end Alike

theorem Relocatable.movable (w : h.Built L) (r : h.Relocatable clearSoft s) :
    h.movable clearSoft s := by
  have hs : s < L.count := w.regionCount ▸ r.inside
  have hlive : L.bottom s ∈ h.liveIn clearSoft s := mem_liveIn.mpr
    ⟨by simp [w.objectsIn_humongous hs r.starts], (w.laid hs).bottom ▸ r.live⟩
  have hpos := w.span_pos hs r.starts
  exact ⟨r.starts, List.ne_nil_of_mem hlive,
    r.unpinned s ⟨r.starts, Nat.le_refl _, by omega⟩⟩

end Heap

namespace Collector.Collected

variable {c f : Collector} {h h' : Heap} {L : Layout} {fill : Nat → List (Nat × Nat)} {m₃ : Memory}
  {x : Collector} {i s t : Nat} (k : c.Collected h L f fill m₃ x h')

include k

theorem starts_of_taken {m : HumongousMove} (hm : m ∈ f.moves) :
    (h'.region m.target).kind = .startsHumongous := by
  rw [k.region]
  exact (k.moving.taken m hm).starts.1

theorem vacated_of_free (hi : i < L.count) (hk : (h'.region i).kind.isFree = true) :
    HumongousMove.Vacated (c.LeftEmpty h L f fill) f.moves i := by
  have htaken : ∀ m ∈ f.moves, ¬m.Takes i := fun m hm ht => by
    have hhum : (h'.region i).kind.isHumongous = true := by
      rw [k.region]
      exact ((k.moving.taken m hm).humongous ht).1
    rw [(RegionKind.not_of_humongous hhum).1] at hk
    contradiction
  refine ⟨?_, htaken⟩
  rcases ((k.ended hi).of_free hk).1 with hf | hl | he
  · exact .inl (.inl ⟨hi, hf⟩)
  · exact .inr hl
  · exact .inl (.inr he)

theorem keeps_of_stays (hs : s < L.count) (hm : h.movable c.scope.clearSoft s)
    (hno : ∀ m ∈ f.moves, m.source ≠ s) : c.Keeps h f s := by
  have w := k.consistent
  have hpos := w.span_pos hs hm.1
  have hfate : h.fate c.scope.clearSoft c.scope.threshold s = .skipCompacting :=
    w.fate_of_movable hs hm ⟨Nat.le_refl _, by omega⟩
  refine ⟨by rw [hfate]; simp, fun hl => ?_, fun m hmem hl => hno m hmem ?_⟩
  · have := ((k.planned.mem s).mp hl).2
    rw [hfate] at this
    contradiction
  · obtain ⟨hms, hks, hn⟩ := k.planned.source_of hmem
    have howner := (w.owner_eq_iff hs hms hks).mpr (hn ▸ hl)
    exact howner.symm.trans (Heap.owner_of_starts hm.1)

/-- What a live humongous object is not in any more, and nothing humongous is in, is free. -/
theorem emptied_of_left (hs : s < L.count) (hm : h.movable c.scope.clearSoft s)
    (hb : h.InBlock s i) (hno : ∀ j, ¬h'.InBlock j i) : Heap.Emptied L h' i := by
  have w := k.consistent
  have hi : i < L.count := Nat.lt_of_lt_of_le hb.2.2 (w.humongous s hs hm.1).within
  have hfate : h.fate c.scope.clearSoft c.scope.threshold i = .skipCompacting :=
    w.fate_of_movable hs hm hb.2
  cases k.ended hi with
  | taken m hmem ht _ _ =>
    refine absurd ⟨?_, ht.1, ?_⟩ (hno m.target)
    · rw [k.starts_of_taken hmem]
      rfl
    · rw [k.span_of_taken hmem]
      exact ht.2
  | empty _ hk ht => exact ⟨hk, ht⟩
  | filled hl _ _ _ _ =>
    have := ((k.planned.mem i).mp hl).2
    rw [hfate] at this
    contradiction
  | kept keeps _ =>
    have hkept := (k.keeps_iff hs hm.1 hb.2).mp keeps
    refine absurd ⟨?_, hb.2.1, ?_⟩ (hno s)
    · rw [(k.kept_of hs hkept).kinds.2.2.1]
      exact hm.1
    · rw [k.span_of_kept hs hkept hm.1]
      exact hb.2.2

/-- No lower run of regions is free, apart from those of the object. -/
theorem lowest_of (hmax : c.scope.maximal = true) (hs : s < L.count)
    (hm : h.movable c.scope.clearSoft s) (hl : HumongousMove.Lands f.moves s t)
    (hspans : h'.Spans L t)
    (hspan : h'.humongousSpan (h'.region t) = h.humongousSpan (h.region s)) :
    ∀ u, u < t → ∃ i, u ≤ i ∧ i < u + h.humongousSpan (h.region s) ∧
      (h'.region i).kind.isFree = false ∧ ¬h'.InBlock t i := by
  intro u hu
  obtain ⟨i, hfrom, hto, hout, hused⟩ := k.planned.lowest hmax s hs hm t hl u hu
  have hwithin := hspans.within
  refine ⟨i, hfrom, hto, ?_, fun hb => hout ⟨hb.2.1, hspan ▸ hb.2.2⟩⟩
  cases hk : (h'.region i).kind.isFree with
  | false => rfl
  | true => exact absurd (k.vacated_of_free (by omega) hk) hused

theorem relocated_of_move (hmax : c.scope.maximal = true) {m : HumongousMove} (hm : m ∈ f.moves) :
    h.Relocated L f.place h' m.source m.target := by
  have p := k.planned
  obtain ⟨hs, hmove, hn⟩ := p.moves.source m hm
  have hdown := p.moves.down m hm
  have hstarts : (h'.region m.target).kind.isStartsHumongous = true := by
    rw [k.starts_of_taken hm]
    rfl
  have hspan := (k.span_of_taken hm).trans hn
  have hspans := k.spans_of (by omega) hstarts
  refine
    { down := Nat.le_of_lt hdown
      place := p.place_of_move hm
      starts := hstarts
      span := hspan
      spans := hspans
      seated := fun _ => k.seated_of_taken hm
      filler := fun _ hroom => ?_
      left := fun i hb hno => k.emptied_of_left hs hmove hb hno
      lowest := k.lowest_of hmax hs hmove (.inl ⟨m, hm, rfl, rfl⟩) hspans hspan }
  have hsize := (k.kind_of_field (.moved m hm rfl)).1
  rw [p.place_of_move hm] at hsize
  rw [k.span_of_taken hm, Object.limit, hsize] at hroom ⊢
  rw [k.memory]
  exact k.moving.filler m hm hroom

theorem relocated_of_stay (hmax : c.scope.maximal = true) (hs : s < L.count)
    (hm : h.movable c.scope.clearSoft s) (hno : ∀ m ∈ f.moves, m.source ≠ s) :
    h.Relocated L f.place h' s s := by
  have w := k.consistent
  have keeps := k.keeps_of_stays hs hm hno
  have hstarts : (h'.region s).kind.isStartsHumongous = true := by
    rw [(k.kept_of hs keeps).kinds.2.2.1]
    exact hm.1
  have hspan := k.span_of_kept hs keeps hm.1
  have hspans := k.spans_of hs hstarts
  have hmem : L.bottom s ∈ h.objectsIn s := by simp [w.objectsIn_humongous hs hm.1]
  refine
    { down := Nat.le_refl _
      place := (k.fixed_of_kept hs keeps hmem).1
      starts := hstarts
      span := hspan
      spans := hspans
      seated := fun hseated => k.seated_of_kept hs hm.1 keeps (hseated.resolve_left fun e => e rfl)
      filler := fun hfills hroom => ?_
      left := fun i hb hno => k.emptied_of_left hs hm hb hno
      lowest := k.lowest_of hmax hs hm (.inr ⟨hno, rfl⟩) hspans hspan }
  rw [hspan, k.limit_of_kept hs hm.1 keeps] at hroom ⊢
  unfold Object.minFillWords at hroom
  exact (hfills.resolve_left fun e => e rfl).congr
    (k.read_behind_of_kept hs hm.1 keeps (by omega) (by omega))

/-- A maximal compaction puts every live humongous object that is not pinned as low as it can. -/
theorem relocated_of (hmax : c.scope.maximal = true) (r : h.Relocatable c.scope.clearSoft s) :
    ∃ t, h.Relocated L f.place h' s t := by
  have hs : s < L.count := k.consistent.regionCount ▸ r.inside
  have hm := r.movable k.consistent.toBuilt
  by_cases hmoves : ∃ m ∈ f.moves, m.source = s
  · obtain ⟨m, hmem, rfl⟩ := hmoves
    exact ⟨m.target, k.relocated_of_move hmax hmem⟩
  · exact ⟨s, k.relocated_of_stay hmax hs hm fun m hmem e => hmoves ⟨m, hmem, e⟩⟩

end Collector.Collected

namespace Heap

variable {h : Heap} {L : Layout}

/-- A maximal compaction puts every live humongous object that is not pinned, word for word but for
its redirected fields, into regions of its own as low as there is room. Humongous objects have no
region in common, and share none with other objects. -/
theorem fullCollect_relocates (w : h.WellFormed L) (explicitRequest clearSoft : Bool) :
    ∃ (place : Nat → Nat) (h' : Heap), h.fullCollect explicitRequest clearSoft true = .ok h' ∧
      h.Preserved clearSoft place h' ∧ h'.BlocksApart ∧
      ∀ s, h.Relocatable clearSoft s → ∃ t, h.Relocated L place h' s t := by
  obtain ⟨h₁, c, f, fill, m₃, x, h', hrun, a, hscope, k⟩ :=
    fullCollect_of w.toClean explicitRequest clearSoft true
  have hclear : c.scope.clearSoft = clearSoft := by
    rw [hscope]
    rfl
  have hmax : c.scope.maximal = true := by
    rw [hscope]
    rfl
  subst hclear
  refine ⟨f.place, h', hrun, a.preserved (k.preserved (a.selfContained w.archived)),
    k.built.blocksApart, fun s r => ?_⟩
  obtain ⟨t, r'⟩ := k.relocated_of hmax (a.relocatable r)
  exact ⟨t, a.relocated r'⟩

/-- A humongous object that refers to itself, above a region that was given back. -/
def aloft : Checked Heap := do
  let h ← create sampleSystem sampleRounds { threads := 1, regionSize := 65536 } 131072 {}
  h.performAllowed [.allocateRegion .old, .newHumongous 4 1,
    .setField (sampleWord 1 0) 0 (sampleWord 1 0), .setRoots { strong := [sampleWord 1 0] },
    .freeRegion 0]

theorem aloft_relocated : ∃ h L, aloft = .ok h ∧ h.WellFormed L ∧ h.Relocatable false 1 ∧
    (h.region 0).kind = .free ∧ ∃ (place : Nat → Nat) (h' : Heap),
      h.fullCollect true false true = .ok h' ∧ h.Preserved false place h' ∧ h'.BlocksApart ∧
        ∃ t, h.Relocated L place h' 1 t := by
  obtain ⟨h, hs, m⟩ : ∃ h, aloft = .ok h ∧ h.Made := made_of rfl (by decide +kernel)
    sampleSystem_lawful (by decide)
  obtain ⟨L, t⟩ := m.tidy
  have hlinked := of_made (f := fun h => decide h.Interlinked) (v := true) hs (by decide +kernel)
  have hroots := of_made (f := fun h => h.roots) (v := { strong := [sampleWord 1 0] }) hs
    (by decide +kernel)
  have hopen := of_made (f := fun h => decide (h.InClosedArchive (sampleWord 1 0))) (v := false) hs
    (by decide +kernel)
  have hregion := of_made (f := fun h => ((h.region 1).kind, (h.region 1).bottom,
    (h.region 1).isPinned, h.humongousSpan (h.region 1), h.regionCount, (h.region 0).kind))
    (v := (.startsHumongous, sampleWord 1 0, false, 1, 2, .free)) hs (by decide +kernel)
  simp only [Prod.mk.injEq] at hregion
  obtain ⟨hk, hb, hp, hspan, hcount, hfree⟩ := hregion
  have w := t.wellFormed (of_decide_eq_true hlinked)
  have hlive : h.Relocatable false 1 := by
    refine ⟨by omega, by rw [hk]; rfl, ?_, fun i hi => ?_⟩
    · have hroot : sampleWord 1 0 ∈ h.markingRoots false := by
        rw [markingRoots, hroots]
        simp
      rw [hb]
      exact .root hroot (by decide) (of_decide_eq_false hopen)
    · obtain ⟨-, hfrom, hto⟩ := hi
      obtain rfl : i = 1 := by omega
      exact hp
  obtain ⟨place, h', hrun, hpreserved, hapart, hall⟩ := fullCollect_relocates w true false
  exact ⟨h, L, hs, w, hlive, hfree, place, h', hrun, hpreserved, hapart, hall 1 hlive⟩

end Heap

end RegionHeap
