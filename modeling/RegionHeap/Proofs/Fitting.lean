import RegionHeap.Cards.CardSet
import RegionHeap.Proofs.Creating

/-!
Memory that can always grow. If a segment of the largest size is not too large for the system, then
no card set on top of it is ever refused a container. The sizes are those of the configuration, and
nothing that is done with the memory changes them.
-/
set_option autoImplicit false

namespace RegionHeap

/-- A segment of the largest size is not too large. -/
def SlotSizing.Fits (s : SlotSizing) : Prop := s.largest * s.slotBytes ≤ Arena.maxSegmentBytes

def CardConfig.Fits (c : CardConfig) : Prop := ∀ k, (c.sizing k).Fits

theorem Arena.grow_of {a : Arena} (h : a.sizing.Fits) :
    ∃ a', a.grow = .ok a' ∧ a'.sizing = a.sizing := by
  obtain ⟨slots, hslots⟩ : ∃ n, a.sizing.nextSlots (a.segments.headD 0) = n := ⟨_, rfl⟩
  have hle : slots * a.sizing.slotBytes ≤ maxSegmentBytes :=
    Nat.le_trans (Nat.mul_le_mul_right _ (hslots ▸ a.sizing.nextSlots_le _)) h
  have hlimit : maxSegmentBytes < Word.limit := by decide
  have hmul : Word.mul slots a.sizing.slotBytes = .ok (slots * a.sizing.slotBytes) := by
    simp
    omega
  refine ⟨{ a with segments := slots :: a.segments, used := 0 }, ?_, rfl⟩
  simp only [grow, hslots, hmul, Checked.ok_bind, Checked.unless_of (decide_eq_true hle),
    Checked.pure_eq]

theorem Arena.allocate_of {a : Arena} (h : a.sizing.Fits) :
    ∃ slot a', a.allocate = .ok (slot, a') ∧ a'.sizing = a.sizing := by
  by_cases hu : a.used < a.segments.headD 0
  · refine ⟨⟨a.segmentCount - 1, a.used⟩, { a with used := a.used + 1 }, ?_, rfl⟩
    simp only [allocate, if_pos hu, Checked.pure_eq, Checked.ok_bind]
  · obtain ⟨a', hg, hs⟩ := grow_of h
    refine ⟨⟨a'.segmentCount - 1, a'.used⟩, { a' with used := a'.used + 1 }, ?_, hs⟩
    simp only [allocate, if_neg hu, hg, Checked.pure_eq, Checked.ok_bind]

theorem SlotAllocator.allocate_of {s : SlotAllocator} (h : s.arena.sizing.Fits) :
    ∃ slot s', s.allocate = .ok (slot, s') ∧ s'.arena.sizing = s.arena.sizing := by
  cases hr : s.nodes.reuse? with
  | some p =>
    refine ⟨p.1, { s with nodes := p.2 }, ?_, rfl⟩
    simp only [allocate, hr, Checked.pure_eq]
  | none =>
    obtain ⟨slot, a', ha, hs⟩ := Arena.allocate_of h
    refine ⟨s.nodes.carve.1, ⟨s.nodes.carve.2, a'⟩, ?_, hs⟩
    simp only [allocate, hr, ha, Checked.ok_bind, Checked.pure_eq]

namespace CardMemory

variable {m : CardMemory}

/-- The sizes of the slots and segments for a kind of container. -/
def sizing (m : CardMemory) (k : ContainerKind) : SlotSizing := (m.allocator k).arena.sizing

def Fits (m : CardMemory) : Prop := ∀ k, (m.sizing k).Fits

@[simp] theorem sizing_create (c : CardConfig) (k : ContainerKind) :
    (create c).sizing k = c.sizing k := by
  cases k <;> rfl

theorem sizing_setAllocator (m : CardMemory) (k l : ContainerKind) (s : SlotAllocator) :
    (m.setAllocator k s).sizing l = if k = l then s.arena.sizing else m.sizing l := by
  cases k <;> cases l <;> rfl

@[simp] theorem sizing_withRounds (m : CardMemory) (r : Rounds) (k : ContainerKind) :
    (m.withRounds r).sizing k = m.sizing k := by
  cases k <;> rfl

@[simp] theorem sizing_free (m : CardMemory) (k l : ContainerKind) (slot : Nat) :
    (m.free k slot).sizing l = m.sizing l := by
  cases k <;> cases l <;> rfl

@[simp] theorem sizing_flush (m : CardMemory) (k : ContainerKind) :
    m.flush.sizing k = m.sizing k := by
  cases k <;> rfl

theorem Fits.allocate (h : m.Fits) (k : ContainerKind) :
    ∃ slot m', m.allocate k = .ok (slot, m') ∧ m'.Fits := by
  obtain ⟨slot, s, hs, hsize⟩ := SlotAllocator.allocate_of (h k)
  refine ⟨slot, m.setAllocator k s, ?_, fun l => ?_⟩
  · simp only [CardMemory.allocate, hs, Checked.ok_bind, Checked.pure_eq]
  · rw [sizing_setAllocator]
    split
    · rw [hsize]
      exact h k
    · exact h l

end CardMemory

theorem Container.insert_of {m : CardMemory} (h : m.Fits) (c : Container) (offset : Nat) :
    ∃ c' m', c.insert m offset = .ok (c', m') ∧ m'.Fits := by
  cases c with
  | array slot offsets =>
    by_cases hroom : offsets.length < arrayCapacity
    · exact ⟨_, m, if_pos hroom, h⟩
    · obtain ⟨bitmapSlot, m', hm, hf⟩ := h.allocate .bitmap
      refine ⟨.bitmap bitmapSlot ((offsets ++ [offset]).foldl Bitmap.insert .empty),
        m'.free .array slot, ?_, fun k => by simpa using hf k⟩
      simp only [insert, if_neg hroom, hm, Checked.ok_bind, Checked.pure_eq]
  | bitmap slot bits => exact ⟨_, m, rfl, h⟩

namespace CardSet

variable {s : CardSet}

def Fits (s : CardSet) : Prop := s.memory.Fits

theorem fits_create {config : CardConfig} (h : config.Fits) : (create config).Fits := fun k => by
  simpa [create] using h k

theorem Fits.withRounds (h : s.Fits) (r : Rounds) : (s.withRounds r).Fits := fun k => by
  simpa [CardSet.withRounds] using h k

theorem Fits.clear (h : s.Fits) : s.clear.Fits := by
  have hfold : ∀ (cs : List (Nat × Container)) (m : CardMemory), m.Fits →
      (cs.foldl (fun m c => m.free c.2.kind c.2.slot) m).Fits := by
    intro cs
    induction cs with
    | nil => exact fun m hm => hm
    | cons c cs ih => exact fun m hm => ih _ fun k => by simpa using hm k
  have hfreed : (s.containers.foldl (fun m c => m.free c.2.kind c.2.slot) s.memory).Fits :=
    hfold _ _ h
  have hmemory : s.clear.memory =
      (s.containers.foldl (fun m c => m.free c.2.kind c.2.slot) s.memory).flush := rfl
  exact fun k => by simpa [hmemory] using hfreed k

theorem Fits.container (h : s.Fits) (region : Nat) :
    ∃ c m, s.container region = .ok (c, m) ∧ m.Fits := by
  cases hl : s.containers.lookup region with
  | some c => exact ⟨c, s.memory, by simp only [CardSet.container, hl, Checked.pure_eq], h⟩
  | none =>
    obtain ⟨slot, m, hm, hf⟩ := CardMemory.Fits.allocate h .array
    exact ⟨.array slot [], m, by simp only [CardSet.container, hl, hm, Checked.ok_bind,
      Checked.pure_eq], hf⟩

theorem Fits.add (h : s.Fits) (card : Nat) : ∃ new s', s.add card = .ok (new, s') ∧ s'.Fits := by
  obtain ⟨c, m, hc, hm⟩ := h.container (s.regionOf card)
  cases hin : c.contains (s.offsetOf card) with
  | true =>
    refine ⟨false, { s with containers := put (s.regionOf card) c s.containers, memory := m },
      ?_, hm⟩
    simp only [CardSet.add, hc, Checked.ok_bind, hin, if_true, Checked.pure_eq]
  | false =>
    obtain ⟨c', m', hc', hm'⟩ := Container.insert_of hm c (s.offsetOf card)
    refine ⟨true, { s with
      containers := put (s.regionOf card) c' s.containers, memory := m'
      occupied := s.occupied + 1 }, ?_, hm'⟩
    simp only [CardSet.add, hc, Checked.ok_bind, hin, Bool.false_eq_true, if_false, hc',
      Checked.pure_eq]

theorem Fits.addAll (h : s.Fits) (cards : List Nat) :
    ∃ s', s.addAll cards = .ok s' ∧ s'.Fits :=
  Checked.foldlM_of (f := fun s card => return (← CardSet.add s card).2)
    (fun _ s => s.Fits) (fun card _ s hs => by
      obtain ⟨new, s', hadd, hf⟩ := hs.add card
      exact ⟨s', (Checked.bind_of hadd _).trans rfl, hf⟩) cards s h

end CardSet

namespace Options

variable {o : Options}

theorem fits_slotSizing (ho : max o.cardSetMaxSlots o.cardSetInitialSlots < 1 <<< 31) {bytes : Nat}
    (hb : bytes ≤ 1 <<< 16) : (o.slotSizing bytes).Fits := by
  have hslot : (o.slotSizing bytes).slotBytes ≤ 1 <<< 17 := by
    have hmask : (o.slotSizing bytes).slotBytes ≤
        Word.subWrapping (Word.addWrapping (8 + bytes) 8) 1 := Nat.and_le_left
    simp only [Word.subWrapping, Word.addWrapping, Word.limit, Nat.one_shiftLeft] at hmask hb ⊢
    omega
  calc (o.slotSizing bytes).largest * (o.slotSizing bytes).slotBytes
      ≤ 1 <<< 31 * 1 <<< 17 := Nat.mul_le_mul (Nat.le_of_lt ho) hslot
    _ ≤ Arena.maxSegmentBytes := by decide

/-- A region has one card for each 512 bytes, and there is memory for all of them. -/
theorem Valid.fits (v : o.Valid) (rounds : Rounds)
    (ho : max o.cardSetMaxSlots o.cardSetInitialSlots < 1 <<< 31) :
    ∃ config, CardSet.configuration rounds o = .ok config ∧ config.Fits ∧
      config.cardsPerRegion = o.regionSize / 512 := by
  obtain ⟨k, hk, hk', he⟩ := isRegionSize_eq v.regionSize
  rw [Nat.one_shiftLeft] at he
  refine ⟨_, v.configuration rounds, fun l => ?_, ?_⟩
  · have hsize : o.regionSize ≤ 2 ^ 25 := he ▸ Nat.pow_le_pow_right (by decide) hk'
    cases l with
    | array => exact fits_slotSizing ho (by decide)
    | bitmap =>
      refine fits_slotSizing ho (Nat.max_le.mpr ⟨?_, by decide⟩)
      rw [Nat.shiftRight_eq_div_pow, Address.logBytesInCard, Nat.one_shiftLeft]
      omega
  · simp only [CardConfig.cardsPerRegion, Address.logBytesInCard, he, Nat.log2_two_pow,
      Nat.one_shiftLeft]
    exact (Nat.pow_div (by omega) (by decide)).symm

end Options

end RegionHeap
