import RegionHeap.Proofs.Blocks

/-!
Regions whatever lies in them. A region owns the addresses from its bottom to its limit. Its block
table covers just these, and it is in use up to one of them or to the limit.
-/
set_option autoImplicit false

namespace RegionHeap

namespace Region

/-- The block table covers the region, and the top is a place in it. -/
structure Whole (r : Region) : Prop where
  blocks : r.blocks.Whole
  blocksBottom : r.blocks.bottom = r.bottom
  blocksLimit : r.blocks.limit = r.limit
  limit_lt : r.limit < Word.limit
  bottom_le : r.bottom ≤ r.top
  top_le : r.top ≤ r.limit

/-- A region of a layout. -/
structure Sited (r : Region) (L : Layout) (i : Nat) : Prop extends r.Whole where
  index : r.index = i
  bottom : r.bottom = L.bottom i
  limit : r.limit = L.bottom i + L.bytes

/-- A free region that is not in use. -/
structure Vacant (r : Region) : Prop where
  kind : r.kind = .free
  top : r.top = r.bottom

/-- The region is put to another use, which says nothing about its past. -/
structure Reassigned (r r' : Region) : Prop where
  pins : r'.pins = r.pins
  marked : r'.marked = r.marked
  remSet : r'.remSet = r.remSet

variable {r : Region} {L : Layout} {i start stop top : Nat}

theorem Reassigned.trans {r' r'' : Region} (a : r.Reassigned r') (b : r'.Reassigned r'') :
    r.Reassigned r'' :=
  ⟨b.pins.trans a.pins, b.marked.trans a.marked, b.remSet.trans a.remSet⟩

theorem Blank.vacant (b : r.Blank) : r.Vacant := ⟨b.kind, b.top⟩

theorem Laid.sited (l : r.Laid L i) (hi : i < L.count) : r.Sited L i := by
  have := L.limit_lt
  have := Layout.bottom_add_le_limit hi
  exact ⟨⟨.of_laid l, l.blocksBottom.trans l.bottom.symm, l.blocksLimit.trans l.limit.symm,
    by rw [l.limit]; omega, by rw [l.bottom]; exact l.bottom_le, by rw [l.limit]; exact l.top_le⟩,
    l.index, l.bottom, l.limit⟩

theorem Sited.laid (s : r.Sited L i) (ha : r.top % 8 = 0) : r.Laid L i := by
  have hcover := s.blocks.limit
  have hbytes := L.bytes_eq
  have hcards := L.cards
  rw [s.blocksBottom, s.blocksLimit, s.bottom, s.limit] at hcover
  exact ⟨s.index, s.bottom, s.limit, s.blocksBottom.trans s.bottom, s.blocksLimit.trans s.limit,
    by omega, s.bottom ▸ s.bottom_le, s.limit ▸ s.top_le, ha⟩

theorem Whole.withKind (w : r.Whole) (kind : RegionKind) (start : Option Nat) :
    ({ r with kind := kind, humongousStart := start } : Region).Whole :=
  ⟨w.blocks, w.blocksBottom, w.blocksLimit, w.limit_lt, w.bottom_le, w.top_le⟩

theorem Sited.withKind (s : r.Sited L i) (kind : RegionKind) (start : Option Nat) :
    ({ r with kind := kind, humongousStart := start } : Region).Sited L i :=
  ⟨s.toWhole.withKind kind start, s.index, s.bottom, s.limit⟩

theorem create_whole {index bottom bytes : Nat} {config : CardConfig}
    (hb : bytes % Address.bytesInCard = 0) (hc : create index bottom bytes config = .ok r) :
    r.Whole := by
  simp only [create, BlockTable.create, Checked.bind_eq_ok, Word.add_eq_ok, Checked.pure_eq,
    Except.ok.injEq] at hc
  obtain ⟨_, ⟨hlt, rfl⟩, blocks, ⟨-, -, rfl⟩, rfl⟩ := hc
  refine ⟨⟨?_⟩, rfl, rfl, hlt, Nat.le_refl _, Nat.le_add_right _ _⟩
  simp only [Address.bytesInCard, Array.size_replicate] at hb ⊢
  omega

namespace Whole

theorem withTop (w : r.Whole) (hb : r.bottom ≤ top) (ht : top ≤ r.limit) :
    ({ r with top := top } : Region).Whole :=
  ⟨w.blocks, w.blocksBottom, w.blocksLimit, w.limit_lt, hb, ht⟩

theorem withStarts (w : r.Whole) {starts : Array Nat} (hs : starts.size = r.blocks.starts.size) :
    ({ r with blocks := { r.blocks with starts := starts } } : Region).Whole :=
  ⟨⟨by rw [hs]; exact w.blocks.limit⟩, w.blocksBottom, w.blocksLimit, w.limit_lt, w.bottom_le,
    w.top_le⟩

theorem setTop_of (w : r.Whole) (hb : r.bottom ≤ top) (ht : top ≤ r.limit) :
    r.setTop top = .ok { r with top := top } ∧ ({ r with top := top } : Region).Whole := by
  refine ⟨?_, w.withTop hb ht⟩
  rw [setTop, Checked.unless_of (by simp [hb, ht])]
  rfl

theorem recordBlock_of (w : r.Whole) (h : start < stop) :
    ∃ b, r.recordBlock start stop = .ok { r with blocks := b } ∧
      ({ r with blocks := b } : Region).Whole ∧ ∀ c, r.bottom + c * 512 < r.limit →
        Table.entry b.starts c =
          if start ≤ r.bottom + c * 512 ∧ r.bottom + c * 512 < stop then start
          else Table.entry r.blocks.starts c := by
  obtain ⟨starts, hr, hz, he⟩ := BlockTable.record_of w.blocks h
  refine ⟨{ r.blocks with starts := starts }, Checked.bind_of hr _, w.withStarts hz,
    fun c hc => ?_⟩
  have hlimit := w.blocks.limit
  rw [w.blocksLimit, w.blocksBottom] at hlimit
  have hentry := he c (by omega)
  rw [BlockTable.cardStart, w.blocksBottom] at hentry
  exact hentry

end Whole

namespace Vacant

variable {fill : Nat}

theorem isFree (v : r.Vacant) : (r.kind.isFree && r.isEmpty) = true := by
  simp [v.kind, RegionKind.isFree, isEmpty, used, v.top]

theorem startHumongous_of (v : r.Vacant) (w : r.Whole) (hlt : r.bottom < top)
    (hfit : top + 8 * fill < Word.limit) :
    ∃ b, r.startHumongous top fill = .ok { r with
        kind := .startsHumongous, humongousStart := some r.index, blocks := b } ∧
      ({ r with kind := .startsHumongous, humongousStart := some r.index, blocks := b } :
        Region).Whole ∧ ∀ c, r.bottom + c * 512 < r.limit → r.bottom + c * 512 < top + 8 * fill →
          Table.entry b.starts c = if top ≤ r.bottom + c * 512 then top else r.bottom := by
  obtain ⟨b₁, h₁, w₂, e₁⟩ :=
    (w.withKind .startsHumongous (some r.index)).recordBlock_of hlt
  by_cases hz : fill = 0
  · refine ⟨b₁, ?_, w₂, fun c hc htop => ?_⟩
    · rw [startHumongous, Checked.unless_of v.isFree, Checked.ok_bind]
      refine (Checked.bind_of h₁ _).trans ?_
      rw [if_pos hz]
      rfl
    · rw [e₁ c hc, if_pos ⟨Nat.le_add_right _ _, by dsimp only; omega⟩, if_neg (by omega)]
  · obtain ⟨b₂, h₂, w₃, e₂⟩ := w₂.recordBlock_of (show top < top + 8 * fill by omega)
    refine ⟨b₂, ?_, w₃, fun c hc htop => ?_⟩
    · have hadd : Address.addWords top fill = .ok (top + 8 * fill) :=
        Address.addWords_of (by omega)
      rw [startHumongous, Checked.unless_of v.isFree, Checked.ok_bind]
      refine (Checked.bind_of h₁ _).trans ?_
      rw [if_neg hz, Checked.bind_of hadd]
      exact h₂
    · rw [e₂ c hc]
      dsimp only
      by_cases hle : top ≤ r.bottom + c * 512
      · rw [if_pos ⟨hle, htop⟩, if_pos hle]
      · rw [if_neg fun h => hle h.1, if_neg hle]
        exact (e₁ c hc).trans (if_pos ⟨Nat.le_add_right _ _, Nat.lt_of_not_le hle⟩)

theorem continueHumongous_of {head : Region} (v : r.Vacant) (hh : head.kind = .startsHumongous) :
    r.continueHumongous head =
      .ok { r with kind := .continuesHumongous, humongousStart := some head.index } := by
  rw [continueHumongous, Checked.unless_of (by rw [hh]; rfl), Checked.ok_bind,
    Checked.unless_of v.isFree]
  rfl

end Vacant

end Region

/-- The regions of a layout. -/
structure RegionTable.Sited (t : RegionTable) (L : Layout) : Prop where
  size : t.size = L.count
  region : ∀ i, i < L.count → (t.region i).Sited L i

theorem RegionTable.Laid.sited {t : RegionTable} {L : Layout} (h : t.Laid L) : t.Sited L :=
  ⟨h.size, fun i hi => (h.region i hi).sited hi⟩

namespace RegionTable.Sited

variable {t : RegionTable} {L : Layout} {i : Nat} {r : Region}

theorem get_of (h : t.Sited L) (hi : i < L.count) : t.get i = .ok (t.region i) :=
  RegionTable.get_of_lt (h.size ▸ hi)

theorem update_of (h : t.Sited L) (hi : i < L.count) {f : Region → Checked Region}
    (hf : f (t.region i) = .ok r) : t.update i f = .ok (t.put i r) :=
  RegionTable.update_of_lt (h.size ▸ hi) hf

theorem region_put_of (h : t.Sited L) (hi : i < L.count) (r : Region) (j : Nat) :
    (t.put i r).region j = if i = j then r else t.region j :=
  RegionTable.region_put (h.size ▸ hi) r j

theorem put (h : t.Sited L) (hi : i < L.count) (hr : r.Sited L i) : (t.put i r).Sited L := by
  refine ⟨by rw [size_put, h.size], fun j hj => ?_⟩
  rw [h.region_put_of hi]
  split
  · next e => exact e ▸ hr
  · exact h.region j hj

theorem withMemory (h : t.Sited L) (m : Memory) : ({ t with memory := m } : RegionTable).Sited L :=
  ⟨h.size, h.region⟩

end RegionTable.Sited

end RegionHeap
