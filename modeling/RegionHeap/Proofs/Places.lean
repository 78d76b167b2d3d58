import RegionHeap.Proofs.Adjusting

/-!
Where the objects go. The regions that objects slide into, those that humongous objects move to and
those that keep their objects are three sorts of regions, so that no two objects get in each other's
way.
-/
set_option autoImplicit false

namespace RegionHeap

/-- The addresses that an object takes up once it is at its place. -/
def Heap.Spot (h : Heap) (place : Nat → Nat) (o a : Nat) : Prop :=
  place o ≤ a ∧ a < place o + 8 * Object.size h.memory o

namespace Collector

/-- Where an object is going to be. -/
def place (f : Collector) (o : Nat) : Nat := Object.destination f.memory o

/-- The objects of a region that slide go to other regions than some region, or come from below
it. -/
def Spares (c : Collector) (h : Heap) (f : Collector) (fill : Nat → List (Nat × Nat))
    (j i : Nat) : Prop :=
  ∀ o ∈ h.liveIn c.scope.clearSoft j, ∀ k ∈ f.lists, (o, f.place o) ∈ fill k → k ≠ i ∨ j < i

variable {c f : Collector} {h : Heap} {L : Layout} {fill : Nat → List (Nat × Nat)} {o q i : Nat}
  {m : HumongousMove}

theorem cases_of (c : Collector) (h : Heap) (L : Layout) (f : Collector) (o : Nat) :
    h.Slides c.scope.clearSoft c.scope.threshold o ∨
    (∃ m ∈ f.moves, o = L.bottom m.source) ∨
    ¬h.Slides c.scope.clearSoft c.scope.threshold o ∧ ∀ m ∈ f.moves, o ≠ L.bottom m.source := by
  by_cases hs : h.Slides c.scope.clearSoft c.scope.threshold o
  · exact .inl hs
  · by_cases hm : ∃ m ∈ f.moves, o = L.bottom m.source
    · exact .inr (.inl hm)
    · exact .inr (.inr ⟨hs, fun m h' e => hm ⟨m, h', e⟩⟩)

namespace Placed

variable (p : c.Placed h L f fill)

include p

theorem slide_of (w : h.Consistent L) (hs : h.Slides c.scope.clearSoft c.scope.threshold o) :
    ∃ k ∈ f.lists, (o, f.place o) ∈ fill k := by
  obtain ⟨k, hk, q, -, hq⟩ := p.all o hs
  have := (p.destination_of w hk hq).1
  exact ⟨k, hk, by rw [place, this]; exact hq⟩

theorem spot_of_slides (w : h.Consistent L)
    (hs : h.Slides c.scope.clearSoft c.scope.threshold o) :
    ∃ k ∈ f.lists, (o, f.place o) ∈ fill k ∧ L.bottom k ≤ f.place o ∧
      f.place o + 8 * Object.size h.memory o ≤ L.bottom k + L.bytes := by
  obtain ⟨k, hk, hq⟩ := p.slide_of w hs
  have hf := p.filled k hk
  have hb := hf.packed.bounds hq
  exact ⟨k, hk, hq, hb.1, Nat.le_trans hb.2 hf.le⟩

theorem spots_apart (w : h.Consistent L) (ho : h.Slides c.scope.clearSoft c.scope.threshold o)
    (hq : h.Slides c.scope.clearSoft c.scope.threshold q) (hne : o ≠ q) :
    f.place o + 8 * Object.size h.memory o ≤ f.place q ∨
      f.place q + 8 * Object.size h.memory q ≤ f.place o := by
  obtain ⟨k, hk, ho', hfrom, hto⟩ := p.spot_of_slides w ho
  obtain ⟨j, hj, hq', hfrom', hto'⟩ := p.spot_of_slides w hq
  by_cases e : k = j
  · subst e
    exact (p.filled k hk).packed.apart_of_ne ho' hq' fun e => hne (Prod.mk.inj e).1
  · by_cases hlt : k < j
    · have := Layout.bottom_add_le (L := L) hlt
      omega
    · have := Layout.bottom_add_le (L := L) (show j < k by omega)
      omega

end Placed

namespace Planned

variable (p : c.Planned h L f fill)

include p

theorem slides_of (w : h.Consistent L) (hi : i ∈ f.lists)
    (ho : o ∈ h.liveIn c.scope.clearSoft i) :
    h.Slides c.scope.clearSoft c.scope.threshold o := by
  obtain ⟨hl, hf⟩ := (p.mem i).mp hi
  exact ⟨i, by rw [w.regionCount]; exact hl, hf, ho⟩

theorem place_of_move (hm : m ∈ f.moves) : f.place (L.bottom m.source) = L.bottom m.target := by
  have := L.bottom_pos m.target
  have hz : L.bottom m.target ≠ 0 := by omega
  rw [place, Object.destination, Object.forwardee?, p.sent m hm]
  simp [hz]

theorem place_of_fixed (w : h.Consistent L) (ho : h.IsObject o)
    (hs : ¬h.Slides c.scope.clearSoft c.scope.threshold o)
    (hm : ∀ m ∈ f.moves, o ≠ L.bottom m.source) : f.place o = o ∧ f.memory.read o = 0 := by
  have hz : f.memory.read o = 0 := (p.memory o hs hm).trans (w.unforwarded o ho)
  exact ⟨by simp [place, Object.destination, Object.forwardee?, hz], hz⟩

theorem place_le (w : h.Consistent L) (ho : h.IsObject o) : f.place o ≤ o := by
  rcases cases_of c h L f o with hs | ⟨m, hm, rfl⟩ | ⟨hs, hm⟩
  · obtain ⟨k, hk, hq⟩ := p.slide_of w hs
    exact (p.only k hk _ hq).1
  · rw [p.place_of_move hm]
    exact Layout.bottom_mono (Nat.le_of_lt (p.moves.down m hm))
  · exact Nat.le_of_eq (p.place_of_fixed w ho hs hm).1

theorem header_of (w : h.Consistent L) (ho : h.IsObject o) :
    f.memory.read o = if f.place o = o then 0 else f.place o := by
  rcases cases_of c h L f o with hs | ⟨m, hm, rfl⟩ | ⟨hs, hm⟩
  · obtain ⟨k, hk, hq⟩ := p.slide_of w hs
    have := (p.filled k hk).sent _ hq
    rw [Sent] at this
    rw [show f.memory.read o = _ from this]
    simp only [eq_comm]
  · have hdown := Layout.bottom_add_le (L := L) (p.moves.down m hm)
    have hbytes := L.bytes_ge
    rw [p.place_of_move hm, if_neg (by omega), p.sent m hm]
  · obtain ⟨hplace, hread⟩ := p.place_of_fixed w ho hs hm
    rw [hplace, if_pos rfl, hread]

/-- In the order of compaction, no object slides into a region with live objects that are still to
be moved, except downwards within the order. -/
theorem order : f.lists.Pairwise (c.Spares h f fill) := by
  have hsize : f.points.size = c.workers := p.size
  have hn := p.nodup
  have hclosed := p.closed
  rw [lists, List.nodup_append] at hn
  obtain ⟨hpoints, hserial, hboth⟩ := hn
  have hown : ∀ k, k < c.workers → ∀ i ∈ (Table.entry f.points k).regions,
      i ∈ f.points.toList.flatMap CompactionPoint.regions := fun k hk i hi =>
    Table.mem_flatMap_entries.mpr ⟨k, hsize ▸ hk, hi⟩
  show (f.points.toList.flatMap CompactionPoint.regions ++ f.serial.regions).Pairwise _
  refine List.pairwise_append.mpr ⟨?_, p.serialAscending.imp fun hlt _ _ _ _ _ => .inr hlt,
    fun j hj i hi o ho k hk hq => .inl ?_⟩
  · rw [Table.toList_eq_map, List.flatMap_map] at hpoints ⊢
    rw [List.pairwise_flatMap]
    rw [List.Nodup, List.pairwise_flatMap] at hpoints
    refine ⟨fun k hk => ?_, hpoints.2.imp_of_mem fun {k k'} hk hk' hne j hj i hi o ho n hn hq =>
      .inl ?_⟩
    · exact (p.ascending k (hsize ▸ List.mem_range.mp hk)).imp fun hlt _ _ _ _ _ => .inr hlt
    · have hm := hclosed k (hsize ▸ List.mem_range.mp hk) j hj o ho n hn _ hq
      exact hne n hm i hi
  · obtain ⟨n, hn, hj⟩ := Table.mem_flatMap_entries.mp hj
    have hm := hclosed n (hsize ▸ hn) j hj o ho k hk _ hq
    exact hboth k (hown n (hsize ▸ hn) k hm) i hi

end Planned

end Collector

end RegionHeap
