import RegionHeap.Proofs.Entries

/-!
Where the regions of a heap lie: one behind the other, all of one size. The bottoms of the regions
are the only products of numbers here; what follows compares bottoms and adds the size of a region.
-/
set_option autoImplicit false

namespace RegionHeap

structure Layout where
  start : Nat
  /-- The words of a region. -/
  words : Nat
  count : Nat
  start_pos : 0 < start
  aligned : start % 8 = 0
  words_pos : 0 < words
  cards : words % 64 = 0
  bounded : start + count * (8 * words) < Word.limit

namespace Layout

variable {L : Layout} {a i j : Nat}

def bytes (L : Layout) : Nat := 8 * L.words

def bottom (L : Layout) (i : Nat) : Nat := L.start + i * L.bytes

def limit (L : Layout) : Nat := L.bottom L.count

/-- The region of an address. -/
def regionOf (L : Layout) (a : Nat) : Nat := (a - L.start) / L.bytes

/-- The address of a word of the heap. -/
structure IsWord (L : Layout) (a : Nat) : Prop where
  start_le : L.start ≤ a
  lt_limit : a < L.limit
  aligned : a % 8 = 0

theorem bytes_eq (L : Layout) : L.bytes = 8 * L.words := rfl

theorem bytes_ge (L : Layout) : 512 ≤ L.bytes := by
  have := L.words_pos
  have := L.cards
  unfold bytes
  omega

theorem limit_lt (L : Layout) : L.limit < Word.limit := L.bounded

theorem count_lt (L : Layout) : 512 * L.count < Word.limit := by
  have hbytes := Nat.mul_le_mul_left L.count L.bytes_ge
  have hbounded := L.bounded
  rw [← bytes_eq] at hbounded
  omega

theorem bottom_succ (L : Layout) (i : Nat) : L.bottom (i + 1) = L.bottom i + L.bytes := by
  simp only [bottom, Nat.add_mul]
  omega

theorem bottom_of_pos (L : Layout) (h : 0 < i) : L.bottom i = L.bottom (i - 1) + L.bytes := by
  rw [← bottom_succ, Nat.sub_add_cancel h]

theorem bottom_add (L : Layout) (i n : Nat) : L.bottom (i + n) = L.bottom i + n * L.bytes := by
  simp only [bottom, Nat.add_mul]
  omega

theorem bottom_mono (h : i ≤ j) : L.bottom i ≤ L.bottom j :=
  Nat.add_le_add_left (Nat.mul_le_mul_right _ h) _

theorem bottom_add_le (h : i < j) : L.bottom i + L.bytes ≤ L.bottom j := by
  rw [← bottom_succ]
  exact bottom_mono h

theorem start_le_bottom (L : Layout) (i : Nat) : L.start ≤ L.bottom i := Nat.le_add_right _ _

theorem bottom_pos (L : Layout) (i : Nat) : 0 < L.bottom i :=
  Nat.lt_of_lt_of_le L.start_pos (L.start_le_bottom i)

theorem bottom_add_le_limit (h : i < L.count) : L.bottom i + L.bytes ≤ L.limit := bottom_add_le h

theorem bottom_lt_limit (h : i < L.count) : L.bottom i < L.limit := by
  have := bottom_add_le_limit h
  have := L.bytes_ge
  omega

theorem bottom_mod (L : Layout) (i : Nat) : L.bottom i % 8 = 0 := by
  have := L.aligned
  have h : i * L.bytes = 8 * (i * L.words) := by
    unfold bytes
    rw [Nat.mul_left_comm]
  unfold bottom
  omega

theorem regionOf_eq (h : L.bottom i ≤ a) (h' : a < L.bottom i + L.bytes) : L.regionOf a = i := by
  unfold bottom at h h'
  unfold regionOf
  apply Nat.div_eq_of_lt_le
  · omega
  · rw [Nat.succ_mul]
    omega

theorem regionOf_mono {b : Nat} (h : a ≤ b) : L.regionOf a ≤ L.regionOf b :=
  Nat.div_le_div_right (Nat.sub_le_sub_right h _)

/-- An address between two bottoms lies in a region between. -/
theorem between {k n : Nat} (h : L.bottom i ≤ a) (h' : a < L.bottom (i + n))
    (hk : L.bottom k ≤ a) (hk' : a < L.bottom k + L.bytes) : i ≤ k ∧ k < i + n := by
  constructor
  · refine Nat.le_of_not_lt fun hlt => ?_
    have := bottom_add_le (L := L) hlt
    omega
  · refine Nat.lt_of_not_le fun hle => ?_
    have := L.bottom_mono hle
    omega

theorem regionOf_bottom (L : Layout) (i : Nat) : L.regionOf (L.bottom i) = i := by
  have := L.bytes_ge
  exact regionOf_eq (Nat.le_refl _) (by omega)

theorem bottom_regionOf_le (h : L.start ≤ a) : L.bottom (L.regionOf a) ≤ a := by
  have := Nat.div_mul_le_self (a - L.start) L.bytes
  unfold bottom regionOf
  omega

theorem lt_bottom_regionOf (L : Layout) (a : Nat) : a < L.bottom (L.regionOf a) + L.bytes := by
  have h := Nat.lt_mul_div_succ (a - L.start) (show 0 < L.bytes from by have := L.bytes_ge; omega)
  rw [Nat.mul_comm, Nat.succ_mul] at h
  unfold bottom regionOf
  omega

theorem bounds_of_regionOf (h : L.start ≤ a) (hr : L.regionOf a = i) :
    L.bottom i ≤ a ∧ a < L.bottom i + L.bytes :=
  hr ▸ ⟨bottom_regionOf_le h, L.lt_bottom_regionOf a⟩

theorem regionOf_lt (h : L.start ≤ a) (h' : a < L.limit) : L.regionOf a < L.count := by
  have := bottom_regionOf_le h
  by_cases hc : L.regionOf a < L.count
  · exact hc
  · have := bottom_mono (L := L) (show L.count ≤ L.regionOf a by omega)
    unfold limit at h'
    omega

theorem IsWord.regionOf_lt (h : L.IsWord a) : L.regionOf a < L.count :=
  Layout.regionOf_lt h.start_le h.lt_limit

theorem isWord_bottom (h : i < L.count) : L.IsWord (L.bottom i) :=
  ⟨L.start_le_bottom i, bottom_lt_limit h, L.bottom_mod i⟩

theorem isWord_of_le (hi : i < L.count) (h : L.bottom i ≤ a) (h' : a < L.bottom i + L.bytes)
    (hw : a % 8 = 0) : L.IsWord a := by
  have := L.start_le_bottom i
  have := bottom_add_le_limit hi
  exact ⟨by omega, by omega, hw⟩

end Layout

/-- A region lies at its place, and so does its block table. -/
structure Region.Laid (r : Region) (L : Layout) (i : Nat) : Prop where
  index : r.index = i
  bottom : r.bottom = L.bottom i
  limit : r.limit = L.bottom i + L.bytes
  blocksBottom : r.blocks.bottom = L.bottom i
  blocksLimit : r.blocks.limit = L.bottom i + L.bytes
  blocks : r.blocks.starts.size = L.bytes / 512
  bottom_le : L.bottom i ≤ r.top
  top_le : r.top ≤ L.bottom i + L.bytes
  aligned : r.top % 8 = 0

theorem Region.Laid.clear {r : Region} {L : Layout} {i : Nat} (h : r.Laid L i) :
    r.clear.Laid L i :=
  ⟨h.index, h.bottom, h.limit, h.blocksBottom, h.blocksLimit,
    by simp [Region.clear, BlockTable.reset, h.blocks], Nat.le_of_eq h.bottom.symm,
    by rw [Region.clear, h.bottom]; exact Nat.le_add_right _ _,
    by rw [Region.clear, h.bottom]; exact L.bottom_mod i⟩

/-- Nothing is left in the region of an earlier use. -/
structure Region.Blank (r : Region) : Prop where
  kind : r.kind = .free
  top : r.top = r.bottom
  humongousStart : r.humongousStart = none
  marked : r.marked = 0
  blocks : r.blocks.reset = r.blocks

theorem Region.blank_clear (r : Region) : r.clear.Blank :=
  ⟨rfl, rfl, rfl, rfl, by simp [clear, BlockTable.reset]⟩

theorem Region.Blank.entry_eq {r : Region} (b : r.Blank) (c : Nat) :
    Table.entry r.blocks.starts c = 0 := by
  rw [← b.blocks]
  by_cases hc : c < r.blocks.starts.size
  · exact Table.entry_replicate _ _ hc
  · simp [BlockTable.reset, Table.entry, hc]

/-- Regions in the same use. What they remember may differ. -/
structure Region.Alike (r s : Region) : Prop where
  kind : r.kind = s.kind
  top : r.top = s.top
  pins : r.pins = s.pins
  humongousStart : r.humongousStart = s.humongousStart
  marked : r.marked = s.marked

theorem Region.Alike.trans {r s t : Region} (h : r.Alike s) (h' : s.Alike t) : r.Alike t :=
  ⟨h.kind.trans h'.kind, h.top.trans h'.top, h.pins.trans h'.pins,
    h.humongousStart.trans h'.humongousStart, h.marked.trans h'.marked⟩

theorem Region.Alike.isPinned {r s : Region} (h : r.Alike s) : r.isPinned = s.isPinned := by
  simp only [Region.isPinned, h.kind, h.pins]

structure RegionTable.Laid (t : RegionTable) (L : Layout) : Prop where
  size : t.size = L.count
  region : ∀ i, i < L.count → (t.region i).Laid L i

namespace RegionTable.Laid

variable {t : RegionTable} {L : Layout} {i : Nat}

theorem get_of (h : t.Laid L) (hi : i < L.count) : t.get i = .ok (t.region i) :=
  RegionTable.get_of_lt (h.size ▸ hi)

theorem update_of (h : t.Laid L) (hi : i < L.count) {f : Region → Checked Region} {r : Region}
    (hf : f (t.region i) = .ok r) : t.update i f = .ok (t.put i r) :=
  RegionTable.update_of_lt (h.size ▸ hi) hf

theorem region_put_of (h : t.Laid L) (hi : i < L.count) (r : Region) (j : Nat) :
    (t.put i r).region j = if i = j then r else t.region j :=
  RegionTable.region_put (h.size ▸ hi) r j

theorem put (h : t.Laid L) (hi : i < L.count) {r : Region} (hr : r.Laid L i) :
    (t.put i r).Laid L := by
  refine ⟨by rw [size_put, h.size], fun j hj => ?_⟩
  rw [h.region_put_of hi]
  split
  · next e => exact e ▸ hr
  · exact h.region j hj

theorem withMemory (h : t.Laid L) (m : Memory) : ({ t with memory := m } : RegionTable).Laid L :=
  ⟨h.size, h.region⟩

end RegionTable.Laid

end RegionHeap
