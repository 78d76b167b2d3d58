import RegionHeap.Proofs.SlotBalance

/-!
How arenas grow. Segments double in size until they reach the largest one, and slots are handed out
segment by segment. So the number of slots since the arena was last empty determines everything:
how many segments there are, where each slot lies, and what the segments take.
-/
set_option autoImplicit false

namespace RegionHeap

namespace SlotSizing

/-- The size of each segment, the first one first. -/
def segment (s : SlotSizing) : Nat → Nat
  | 0 => s.initial
  | j + 1 => min s.largest (2 * s.segment j)

/-- The sizes of the first so many segments, the last one first. -/
def segments (s : SlotSizing) : Nat → List Nat
  | 0 => []
  | m + 1 => s.segment m :: s.segments m

/-- The slots of the first so many segments. -/
def room (s : SlotSizing) (m : Nat) : Nat := Word.total (s.segments m)

/-- The sizes are words, and the initial one is one of them. -/
structure Proper (s : SlotSizing) : Prop where
  initial : 0 < s.initial
  largest : s.initial ≤ s.largest
  word : s.largest < Word.limit

@[simp] theorem room_zero (s : SlotSizing) : s.room 0 = 0 := rfl

@[simp] theorem room_succ (s : SlotSizing) (m : Nat) : s.room (m + 1) = s.segment m + s.room m :=
  rfl

@[simp] theorem length_segments (s : SlotSizing) (m : Nat) : (s.segments m).length = m := by
  induction m with
  | zero => rfl
  | succ m ih => simp [segments, ih]

theorem reverse_segments (s : SlotSizing) (m : Nat) :
    (s.segments m).reverse = (List.range m).map s.segment := by
  induction m with
  | zero => rfl
  | succ m ih => simp [segments, ih, List.range_succ]

theorem total_segments (s : SlotSizing) (f : Nat → Nat) (m : Nat) :
    Word.total ((s.segments m).map f) = Word.total ((List.range m).map fun j => f (s.segment j)) := by
  induction m with
  | zero => rfl
  | succ m ih =>
    simp only [segments, List.map_cons, List.range_succ, List.map_append, Word.total_append,
      Word.total, ih, List.map_nil]
    omega

variable {s : SlotSizing} {i j m n : Nat}

theorem room_mono (s : SlotSizing) (h : m ≤ n) : s.room m ≤ s.room n := by
  induction h with
  | refl => exact Nat.le_refl _
  | step _ ih => exact Nat.le_trans ih (Nat.le_add_left ..)

theorem lt_of_room_lt (h : s.room m < s.room n) : m < n :=
  Nat.lt_of_not_le fun hle => Nat.not_lt_of_le (s.room_mono hle) h

theorem dvd_slotBytes {bytes initial largest : Nat}
    (h : create bytes initial largest = .ok s) : slotAlignment ∣ s.slotBytes := by
  simp only [create, Checked.bind_eq_ok, Checked.pure_eq, Except.ok.injEq] at h
  obtain ⟨-, -, rfl⟩ := h
  have hmask : Word.complement (Word.subWrapping slotAlignment 1) % 2 ^ 3 = 0 := by decide
  have hmod := Nat.and_mod_two_pow (a := Word.subWrapping (Word.addWrapping bytes slotAlignment) 1)
    (b := Word.complement (Word.subWrapping slotAlignment 1)) (n := 3)
  rw [hmask, Nat.and_zero] at hmod
  exact Nat.dvd_of_mod_eq_zero hmod

theorem proper_create {bytes initial largest : Nat}
    (h : create bytes initial largest = .ok s) (hw : largest < Word.limit) : s.Proper := by
  simp only [create, Checked.bind_eq_ok, Checked.pure_eq, Except.ok.injEq] at h
  obtain ⟨⟨⟩, hunless, rfl⟩ := h
  have hbounds : 0 < initial ∧ initial ≤ largest := by simpa using hunless
  exact ⟨hbounds.1, hbounds.2, hw⟩

namespace Proper

theorem segment_le (h : s.Proper) (j : Nat) : s.initial ≤ s.segment j ∧ s.segment j ≤ s.largest := by
  induction j with
  | zero => exact ⟨Nat.le_refl _, h.largest⟩
  | succ j ih =>
    have := h.largest
    simp only [segment]
    omega

theorem segment_pos (h : s.Proper) (j : Nat) : 0 < s.segment j :=
  Nat.lt_of_lt_of_le h.initial (h.segment_le j).1

theorem nextSlots_headD (h : s.Proper) (m : Nat) :
    s.nextSlots ((s.segments m).headD 0) = s.segment m := by
  have hinitial := h.largest
  have hword := h.word
  cases m with
  | zero =>
    simp only [segments, List.headD_nil, nextSlots, Word.mulSaturating, segment]
    omega
  | succ m =>
    have := h.segment_le m
    simp only [segments, List.headD_cons, nextSlots, Word.mulSaturating, segment]
    omega

/-- After so many segments at the latest, they have the largest size. -/
theorem segment_largest (h : s.Proper) : s.segment s.largest = s.largest := by
  have hgrows : ∀ j, min s.largest (j + 1) ≤ s.segment j := fun j => by
    induction j with
    | zero =>
      have := h.initial
      simp only [segment]
      omega
    | succ j ih =>
      simp only [segment]
      omega
  have := hgrows s.largest
  have := (h.segment_le s.largest).2
  omega

end Proper

end SlotSizing

namespace Arena

variable {a a' : Arena} {slot : Slot} {slots : List Slot} {segments : List Nat} {s : SlotSizing}
  {i j m used : Nat}

theorem length_placesIn (hu : segments = [] → used = 0) :
    (placesIn segments used).length = Word.total segments.tail + used := by
  induction segments generalizing used with
  | nil => simp [placesIn, hu rfl, Word.total]
  | cons n older ih =>
    have hfull : Word.total older.tail + older.headD 0 = Word.total older := by
      cases older with
      | nil => rfl
      | cons n older => exact Nat.add_comm ..
    rw [placesIn, List.length_append, List.length_map, List.length_range, ih (by rintro rfl; rfl),
      hfull, List.tail_cons]

theorem getElem?_placesIn (hi : i < s.segment j) (hlt : j < m ∨ j = m ∧ i < used) :
    (placesIn (s.segments (m + 1)) used)[s.room j + i]? = some ⟨j, i⟩ := by
  induction m generalizing used with
  | zero =>
    obtain ⟨rfl, hu⟩ : j = 0 ∧ i < used := by omega
    simp [SlotSizing.segments, placesIn, hu]
  | succ m ih =>
    have hlength : (placesIn (s.segments (m + 1)) (s.segment m)).length = s.room (m + 1) := by
      rw [length_placesIn (by simp [SlotSizing.segments])]
      exact Nat.add_comm ..
    have hplaces : placesIn (s.segments (m + 1 + 1)) used =
        placesIn (s.segments (m + 1)) (s.segment m) ++
          (List.range used).map (Slot.mk (m + 1)) := by
      rw [SlotSizing.segments, placesIn, SlotSizing.length_segments]
      rfl
    rw [hplaces]
    obtain hj | ⟨rfl, hu⟩ := hlt
    · have hbound := s.room_mono (show j + 1 ≤ m + 1 by omega)
      rw [SlotSizing.room_succ] at hbound
      rw [List.getElem?_append_left (by omega)]
      refine ih ?_
      obtain hj | rfl : j < m ∨ j = m := by omega
      · exact .inl hj
      · exact .inr ⟨rfl, hi⟩
    · rw [← hlength, List.getElem?_append_right (by omega)]
      simp [hu]

theorem mem_placesIn (h : used ≤ (s.segments m).headD 0) (hs : slot ∈ placesIn (s.segments m) used) :
    slot.segment < m ∧ slot.index < s.segment slot.segment := by
  induction m generalizing used with
  | zero => simp [SlotSizing.segments, placesIn] at hs
  | succ m ih =>
    simp only [SlotSizing.segments, placesIn, List.mem_append, List.mem_map, List.mem_range,
      SlotSizing.length_segments, List.headD_cons] at hs h
    obtain hs | ⟨i, hi, rfl⟩ := hs
    · obtain ⟨hm, hi⟩ := ih (Nat.le_refl _) hs
      exact ⟨Nat.lt_succ_of_lt hm, hi⟩
    · exact ⟨Nat.lt_succ_self m, Nat.lt_of_lt_of_le hi h⟩

theorem allocate_of_room (h : a.used < a.segments.headD 0) :
    a.allocate = .ok (⟨a.segmentCount - 1, a.used⟩, { a with used := a.used + 1 }) := by
  rw [allocate, if_pos h]
  rfl

theorem allocate_of_full (h : ¬a.used < a.segments.headD 0) :
    a.allocate = a.grow >>= fun b =>
      .ok (⟨b.segmentCount - 1, b.used⟩, { b with used := b.used + 1 }) := by
  rw [allocate, if_neg h]
  rfl

/-- What the slots of a segment take. -/
def segmentBytes (a : Arena) (j : Nat) : Nat := a.segments.reverse.getD j 0 * a.sizing.slotBytes

/-- The segments start at these addresses: they are aligned, and none overlaps another one. -/
structure Sited (a : Arena) (base : Nat → Nat) : Prop where
  aligned : ∀ j < a.segmentCount, SlotSizing.slotAlignment ∣ base j
  apart : ∀ j < a.segmentCount, ∀ l < a.segmentCount, j ≠ l →
    base j + a.segmentBytes j ≤ base l ∨ base l + a.segmentBytes l ≤ base j

def address (a : Arena) (base : Nat → Nat) (slot : Slot) : Nat :=
  base slot.segment + slot.index * a.sizing.slotBytes

/-- An arena whose slots were handed out since it was last empty. -/
structure Filled (s : SlotSizing) (a : Arena) (slots : List Slot) : Prop where
  sizing : a.sizing = s
  segments : a.segments = s.segments a.segmentCount
  begun : a.segments ≠ [] → 0 < a.used
  used : a.used ≤ a.segments.headD 0
  places : a.places = slots
  fits : ∀ j < a.segmentCount, s.segment j * s.slotBytes ≤ maxSegmentBytes

namespace Filled

theorem empty (s : SlotSizing) : Filled s { sizing := s } [] where
  sizing := rfl
  segments := rfl
  begun h := absurd rfl h
  used := Nat.le_refl _
  places := rfl
  fits j hj := absurd hj (Nat.not_lt_zero j)

theorem dropAll (h : Filled s a slots) : Filled s a.dropAll [] := by
  have hdrop : a.dropAll = { sizing := s } := by simp [Arena.dropAll, h.sizing]
  rw [hdrop]
  exact empty s

theorem length_eq (h : Filled s a slots) :
    slots.length + a.unused = s.room a.segmentCount := by
  have hused := h.used
  have hnil : a.segments = [] → a.used = 0 := fun hs => by simpa [hs] using hused
  have hroom : Word.total a.segments = s.room a.segmentCount := congrArg Word.total h.segments
  have hlength := length_placesIn hnil
  rw [← h.places, Arena.places, hlength, Arena.unused, ← hroom]
  cases hs : a.segments with
  | nil => simp [hnil hs, Word.total]
  | cons n older =>
    rw [hs] at hused
    simp only [List.headD_cons, List.tail_cons, Word.total] at hused ⊢
    omega

theorem room_lt (h : Filled s a slots) (hm : a.segmentCount = m + 1) :
    s.room m < slots.length := by
  have hlength := h.length_eq
  have hsegments := h.segments
  rw [hm, SlotSizing.segments] at hsegments
  have hbegun := h.begun (by simp [hsegments])
  have hused := h.used
  rw [hm, SlotSizing.room_succ, Arena.unused, hsegments, List.headD_cons] at hlength
  rw [hsegments, List.headD_cons] at hused
  omega

theorem nextSlots (h : Filled s a slots) (hp : s.Proper) :
    s.nextSlots (a.segments.headD 0) = s.segment a.segmentCount := by
  rw [h.segments, hp.nextSlots_headD]

/-- The next segment is made unless it is too large. -/
theorem grow_cases (h : Filled s a slots) (hp : s.Proper) :
    s.segment a.segmentCount * s.slotBytes ≤ maxSegmentBytes ∧
        a.grow = .ok ⟨s, s.segment a.segmentCount :: a.segments, 0⟩ ∨
      maxSegmentBytes < s.segment a.segmentCount * s.slotBytes ∧ ∃ f, a.grow = .error f ∧
        (f = .overflow ∨ f = .segmentTooLarge (s.segment a.segmentCount) s.slotBytes) := by
  have hlimit : maxSegmentBytes < Word.limit := by decide
  simp only [grow, h.sizing, h.nextSlots hp]
  generalize s.segment a.segmentCount = n
  by_cases hfits : n * s.slotBytes ≤ maxSegmentBytes
  · have hmul : Word.mul n s.slotBytes = .ok (n * s.slotBytes) := by
      simp
      omega
    simp [hmul, hfits]
  · refine .inr ⟨Nat.lt_of_not_le hfits, ?_⟩
    by_cases hword : n * s.slotBytes < Word.limit
    · simp [Word.mul, hword, Fault.unless, hfits]
    · simp [Word.mul, hword]

/-- The next slot can be taken if the segments that are there by then are none too large. -/
theorem allocate_iff (h : Filled s a slots) (hp : s.Proper) :
    (∃ r, a.allocate = .ok r) ↔
      ∀ j, s.room j ≤ slots.length → s.segment j * s.slotBytes ≤ maxSegmentBytes := by
  have hlength := h.length_eq
  by_cases hroom : a.used < a.segments.headD 0
  · have hunused : 0 < a.unused := Nat.sub_pos_of_lt hroom
    constructor
    · intro _ j hj
      have hlt : s.room j < s.room a.segmentCount := by omega
      exact h.fits j (SlotSizing.lt_of_room_lt hlt)
    · intro _
      exact ⟨_, allocate_of_room hroom⟩
  · have hunused : a.unused = 0 := Nat.sub_eq_zero_of_le (Nat.le_of_not_lt hroom)
    rw [allocate_of_full hroom]
    obtain ⟨hfits, hgrow⟩ | ⟨hlarge, f, hgrow, -⟩ := h.grow_cases hp
    · rw [hgrow]
      constructor
      · intro _ j hj
        obtain hlt | rfl | hgt := Nat.lt_trichotomy j a.segmentCount
        · exact h.fits j hlt
        · exact hfits
        · have hmono := s.room_mono hgt
          rw [SlotSizing.room_succ] at hmono
          have := hp.segment_pos a.segmentCount
          omega
      · intro _
        exact ⟨_, rfl⟩
    · rw [hgrow]
      constructor
      · rintro ⟨r, hr⟩
        contradiction
      · intro hall
        exact absurd (hall _ (by omega)) (Nat.not_le_of_lt hlarge)

/-- A slot is refused because of the segment that it would lie in. -/
theorem allocate_eq_error (h : Filled s a slots) (hp : s.Proper) {f : Fault}
    (ha : a.allocate = .error f) :
    maxSegmentBytes < s.segment a.segmentCount * s.slotBytes ∧
      (f = .overflow ∨ f = .segmentTooLarge (s.segment a.segmentCount) s.slotBytes) := by
  by_cases hroom : a.used < a.segments.headD 0
  · rw [allocate_of_room hroom] at ha
    contradiction
  · rw [allocate_of_full hroom] at ha
    obtain ⟨-, hgrow⟩ | ⟨hlarge, e, hgrow, he⟩ := h.grow_cases hp
    · rw [hgrow] at ha
      contradiction
    · rw [hgrow] at ha
      obtain rfl := Except.error.inj ha
      exact ⟨hlarge, he⟩

theorem allocate (h : Filled s a slots) (hp : s.Proper) (ha : a.allocate = .ok (slot, a')) :
    Filled s a' (slots ++ [slot]) := by
  have hinitial : 0 < a.sizing.initial ∧ a.sizing.initial ≤ a.sizing.largest := by
    rw [h.sizing]
    exact ⟨hp.initial, hp.largest⟩
  obtain ⟨hsound, -, hplaces⟩ := Sound.allocate ⟨hinitial.1, hinitial.2, h.used⟩ ha
  rw [h.places] at hplaces
  by_cases hroom : a.used < a.segments.headD 0
  · rw [allocate_of_room hroom] at ha
    obtain ⟨-, rfl⟩ := Prod.mk.inj (Except.ok.inj ha)
    exact ⟨h.sizing, h.segments, fun _ => Nat.succ_pos _, hsound.used, hplaces, h.fits⟩
  · rw [allocate_of_full hroom] at ha
    obtain ⟨hfits, hgrow⟩ | ⟨-, f, hgrow, -⟩ := h.grow_cases hp
    · rw [hgrow] at ha
      obtain ⟨-, rfl⟩ := Prod.mk.inj (Except.ok.inj ha)
      refine ⟨rfl, ?_, fun _ => Nat.succ_pos _, hsound.used, hplaces, ?_⟩
      · simp only [segmentCount, List.length_cons, SlotSizing.segments]
        rw [← segmentCount, ← h.segments]
      · intro j hj
        simp only [segmentCount, List.length_cons] at hj
        obtain hlt | rfl := Nat.lt_succ_iff_lt_or_eq.mp hj
        · exact h.fits j hlt
        · exact hfits
    · rw [hgrow] at ha
      contradiction

end Filled

/-- What can happen to an arena. -/
inductive Call where
  | allocate
  | dropAll

namespace Call

/-- The slots that were taken since the arena was last empty go along. -/
def perform : Arena × List Slot → Call → Checked (Arena × List Slot)
  | (a, slots), .allocate => do
    let (slot, a) ← a.allocate
    return (a, slots ++ [slot])
  | (a, _), .dropAll => return (a.dropAll, [])

/-- How many slots are taken after a call. -/
def count : Nat → Call → Nat
  | k, .allocate => k + 1
  | _, .dropAll => 0

end Call

def run (s : SlotSizing) (calls : List Call) : Checked (Arena × List Slot) :=
  calls.foldlM Call.perform ({ sizing := s }, [])

/-- How many slots are taken since the arena was last empty. -/
def taken (calls : List Call) : Nat := calls.foldl Call.count 0

/-- The sizes, the places and the memory of an arena with so many slots taken. -/
structure Scheduled (s : SlotSizing) (k : Nat) (a : Arena) (slots : List Slot) : Prop where
  segments : a.segments.reverse = (List.range a.segmentCount).map s.segment
  enough : k ≤ s.room a.segmentCount
  least : ∀ m, k ≤ s.room m → a.segmentCount ≤ m
  length : slots.length = k
  slot : ∀ j i, i < s.segment j → s.room j + i < k → slots[s.room j + i]? = some ⟨j, i⟩
  inside : ∀ slot ∈ slots, slot.segment < a.segmentCount ∧ slot.index < s.segment slot.segment
  distance : ∀ p ∈ slots, ∀ q ∈ slots, p.segment = q.segment → p.index + 1 = q.index →
    s.distance? p q = some s.slotBytes
  sited : ∀ base, a.Sited base → (∀ slot ∈ slots,
      base slot.segment ≤ a.address base slot ∧ a.address base slot + s.slotBytes ≤
        base slot.segment + a.segmentBytes slot.segment ∧
      SlotSizing.slotAlignment ∣ a.address base slot) ∧
    slots.Pairwise fun p q => a.address base p + s.slotBytes ≤ a.address base q ∨
      a.address base q + s.slotBytes ≤ a.address base p
  memory : a.memory =
    Word.total ((List.range a.segmentCount).map fun j => recordBytes + s.segment j * s.slotBytes)
  wasted : ∀ u n, a.wasted u = .ok n ↔
    (s.room a.segmentCount - k + u) * s.slotBytes < Word.limit ∧
      (s.room a.segmentCount - k + u) * s.slotBytes = n

namespace Filled

theorem segmentBytes_eq (h : Filled s a slots) (hj : j < a.segmentCount) :
    a.segmentBytes j = s.segment j * s.slotBytes := by
  rw [segmentBytes, h.sizing, h.segments, SlotSizing.reverse_segments, List.getD_eq_getElem?_getD]
  simp [hj]

theorem inside (h : Filled s a slots) (hs : slot ∈ slots) :
    slot.segment < a.segmentCount ∧ slot.index < s.segment slot.segment := by
  have hused := h.used
  rw [← h.places, Arena.places, h.segments] at hs
  rw [h.segments] at hused
  exact mem_placesIn hused hs

theorem getElem?_slots (h : Filled s a slots) (hi : i < s.segment j)
    (hlt : s.room j + i < slots.length) : slots[s.room j + i]? = some ⟨j, i⟩ := by
  have hlength := h.length_eq
  have hused := h.used
  cases hm : a.segmentCount with
  | zero =>
    rw [hm, SlotSizing.room_zero] at hlength
    omega
  | succ m =>
    have hsegments := h.segments
    rw [hm] at hsegments
    rw [hm, SlotSizing.room_succ, unused, hsegments, SlotSizing.segments, List.headD_cons] at hlength
    rw [hsegments, SlotSizing.segments, List.headD_cons] at hused
    have hj : j < m + 1 := SlotSizing.lt_of_room_lt (s := s) (by simp; omega)
    rw [← h.places, Arena.places, hsegments]
    refine getElem?_placesIn hi ?_
    obtain hj | rfl := Nat.lt_succ_iff_lt_or_eq.mp hj
    · exact .inl hj
    · exact .inr ⟨rfl, by omega⟩

theorem address_inside (h : Filled s a slots) (halign : SlotSizing.slotAlignment ∣ s.slotBytes)
    {base : Nat → Nat} (hb : a.Sited base) (hs : slot ∈ slots) :
    base slot.segment ≤ a.address base slot ∧ a.address base slot + s.slotBytes ≤
        base slot.segment + a.segmentBytes slot.segment ∧
      SlotSizing.slotAlignment ∣ a.address base slot := by
  obtain ⟨hsegment, hindex⟩ := h.inside hs
  have hend := Nat.mul_le_mul_right s.slotBytes (Nat.succ_le_of_lt hindex)
  rw [Nat.succ_mul] at hend
  rw [h.segmentBytes_eq hsegment, address, h.sizing]
  refine ⟨Nat.le_add_right .., by omega, ?_⟩
  exact Nat.dvd_add (hb.aligned _ hsegment) (Nat.dvd_mul_left_of_dvd halign _)

theorem address_apart (h : Filled s a slots) (halign : SlotSizing.slotAlignment ∣ s.slotBytes)
    {base : Nat → Nat} (hb : a.Sited base) {p q : Slot} (hp : p ∈ slots) (hq : q ∈ slots)
    (hne : p ≠ q) : a.address base p + s.slotBytes ≤ a.address base q ∨
      a.address base q + s.slotBytes ≤ a.address base p := by
  obtain ⟨hp₁, hp₂, -⟩ := h.address_inside halign hb hp
  obtain ⟨hq₁, hq₂, -⟩ := h.address_inside halign hb hq
  by_cases hseg : p.segment = q.segment
  · have hbefore : ∀ i j, i < j → i * s.slotBytes + s.slotBytes ≤ j * s.slotBytes := fun i j hij => by
      rw [← Nat.succ_mul]
      exact Nat.mul_le_mul_right _ hij
    have hindex : p.index ≠ q.index := fun hindex => hne (by
      cases p
      cases q
      simp_all)
    simp only [address, hseg, h.sizing]
    obtain hlt | hgt := Nat.lt_or_gt_of_ne hindex
    · have := hbefore _ _ hlt
      omega
    · have := hbefore _ _ hgt
      omega
  · obtain hle | hle := hb.apart _ (h.inside hp).1 _ (h.inside hq).1 hseg
    · exact .inl (by omega)
    · exact .inr (by omega)

theorem scheduled (h : Filled s a slots) (hpos : 0 < s.slotBytes)
    (halign : SlotSizing.slotAlignment ∣ s.slotBytes) : Scheduled s slots.length a slots where
  segments := by
    rw [h.segments, SlotSizing.reverse_segments]
  enough := by
    have := h.length_eq
    omega
  least m hm := by
    cases hcount : a.segmentCount with
    | zero => exact Nat.zero_le m
    | succ n => exact SlotSizing.lt_of_room_lt (Nat.lt_of_lt_of_le (h.room_lt hcount) hm)
  length := rfl
  slot j i := h.getElem?_slots
  inside slot := h.inside
  distance p _ q _ hseg hindex := by
    rw [SlotSizing.distance?, if_pos hseg, ← hindex, Nat.add_sub_cancel_left, Nat.one_mul]
  sited base hb := by
    have hnodup : slots.Nodup := h.places ▸ nodup_placesIn ..
    refine ⟨fun slot => h.address_inside halign hb, ?_⟩
    exact hnodup.imp_of_mem fun hp hq => h.address_apart halign hb hp hq
  memory := by
    rw [memory, h.sizing, h.segments, SlotSizing.total_segments]
  wasted u n := by
    have hlength := h.length_eq
    have hunused : s.room a.segmentCount - slots.length = a.unused := by omega
    rw [hunused, wasted, h.sizing]
    have hle := Nat.le_mul_of_pos_right (a.unused + u) hpos
    simp only [Checked.bind_eq_ok, Word.add_eq_ok, Word.mul_eq_ok]
    constructor
    · rintro ⟨_, ⟨-, rfl⟩, h⟩
      exact h
    · rintro ⟨hlt, rfl⟩
      exact ⟨_, ⟨by omega, rfl⟩, hlt, rfl⟩

end Filled

theorem run_append (s : SlotSizing) (calls : List Call) (c : Call) :
    run s (calls ++ [c]) = run s calls >>= fun r => c.perform r := by
  simp only [run, List.foldlM_append, List.foldlM_cons, List.foldlM_nil, bind_pure]

theorem taken_append (calls : List Call) (c : Call) :
    taken (calls ++ [c]) = c.count (taken calls) := by
  simp [taken, List.foldl_append]

/-- After every call the arena is filled with the slots that were taken since it was empty. -/
theorem filled_run (hp : s.Proper) (calls : List Call) (hr : run s calls = .ok (a, slots)) :
    Filled s a slots ∧ slots.length = taken calls := by
  induction calls using List.reverseRecOn generalizing a slots with
  | nil =>
    obtain ⟨rfl, rfl⟩ := Prod.mk.inj (Except.ok.inj hr)
    exact ⟨.empty s, rfl⟩
  | append_singleton calls c ih =>
    rw [run_append] at hr
    obtain ⟨⟨b, before⟩, hb, hc⟩ := Checked.bind_eq_ok.mp hr
    obtain ⟨hfilled, hlength⟩ := ih hb
    rw [taken_append]
    cases c with
    | allocate =>
      obtain ⟨⟨slot, a'⟩, ha, he⟩ := Checked.bind_eq_ok.mp hc
      obtain ⟨rfl, rfl⟩ := Prod.mk.inj (Except.ok.inj he)
      exact ⟨hfilled.allocate hp ha, by simp [hlength, Call.count]⟩
    | dropAll =>
      obtain ⟨rfl, rfl⟩ := Prod.mk.inj (Except.ok.inj hc)
      exact ⟨hfilled.dropAll, rfl⟩

/-- The calls succeed as long as no segment that is needed is too large. -/
theorem run_iff (hp : s.Proper) (calls : List Call) :
    (∃ r, run s calls = .ok r) ↔ ∀ done, done <+: calls → ∀ j, s.room j < taken done →
      s.segment j * s.slotBytes ≤ maxSegmentBytes := by
  -- the induction is on the last call, which is refused only for the segment that it needs
  induction calls using List.reverseRecOn with
  | nil =>
    constructor
    · intro _ done hdone j hj
      rw [List.prefix_nil.mp hdone] at hj
      exact absurd hj (Nat.not_lt_zero _)
    · intro _
      exact ⟨_, rfl⟩
  | append_singleton calls c ih =>
    have hstep : ∀ a slots, run s calls = .ok (a, slots) →
        ((∃ r, c.perform (a, slots) = .ok r) ↔ ∀ j, s.room j < taken (calls ++ [c]) →
          s.segment j * s.slotBytes ≤ maxSegmentBytes) := fun a slots hr => by
      obtain ⟨hfilled, hlength⟩ := filled_run hp calls hr
      rw [taken_append, ← hlength]
      cases c with
      | allocate =>
        have hiff := hfilled.allocate_iff hp
        simp only [Call.count, Nat.lt_succ_iff, ← hiff, Call.perform, Checked.bind_eq_ok]
        constructor
        · rintro ⟨_, r, hr, -⟩
          exact ⟨r, hr⟩
        · rintro ⟨r, hr⟩
          exact ⟨_, r, hr, rfl⟩
      | dropAll => simp [Call.perform, Call.count]
    rw [run_append]
    simp only [List.prefix_concat_iff]
    constructor
    · rintro ⟨r, hr⟩ done (rfl | hdone)
      · obtain ⟨⟨a, slots⟩, hb, hc⟩ := Checked.bind_eq_ok.mp hr
        exact (hstep a slots hb).mp ⟨r, hc⟩
      · obtain ⟨b, hb, -⟩ := Checked.bind_eq_ok.mp hr
        exact ih.mp ⟨b, hb⟩ done hdone
    · intro hall
      obtain ⟨⟨a, slots⟩, hb⟩ := ih.mpr fun done hdone => hall done (.inr hdone)
      obtain ⟨r, hr⟩ := (hstep a slots hb).mpr (hall _ (.inl rfl))
      exact ⟨r, (Checked.bind_of hb _).trans hr⟩

/-- Whatever is taken and dropped, the arena has just the segments of the schedule that the slots
need, in this order, and the slots lie in them one behind the other. No call is refused unless a
segment is too large for the system. -/
theorem run_follows_schedule {bytes initial largest : Nat}
    (hs : SlotSizing.create bytes initial largest = .ok s) (hw : largest < Word.limit)
    (hpos : 0 < s.slotBytes) (calls : List Call) :
    ((∃ r, run s calls = .ok r) ↔ ∀ done, done <+: calls → ∀ j, s.room j < taken done →
      s.segment j * s.slotBytes ≤ maxSegmentBytes) ∧
    ∀ a slots, run s calls = .ok (a, slots) → Scheduled s (taken calls) a slots := by
  have hp : s.Proper := SlotSizing.proper_create hs hw
  refine ⟨run_iff hp calls, fun a slots hr => ?_⟩
  obtain ⟨hfilled, hlength⟩ := filled_run hp calls hr
  rw [← hlength]
  exact hfilled.scheduled hpos (SlotSizing.dvd_slotBytes hs)

/-- A slot is dropped, and then there are fifteen. -/
theorem drop_sample : ∃ a slots, a.segments = [8, 8, 4, 2] ∧
    run ⟨16, 2, 8⟩ (.allocate :: .dropAll :: List.replicate 15 .allocate) = .ok (a, slots) ∧
    slots[14]? = some ⟨3, 0⟩ ∧ a.memory = 4 * 24 + 22 * 16 ∧ a.wasted 1 = .ok (8 * 16) ∧
    slots.Pairwise fun p q => a.address (128 * ·) p + 16 ≤ a.address (128 * ·) q ∨
      a.address (128 * ·) q + 16 ≤ a.address (128 * ·) p := by
  have hs : SlotSizing.create 12 2 8 = .ok ⟨16, 2, 8⟩ := by decide
  obtain ⟨-, hscheduled⟩ := run_follows_schedule hs (by decide) (by decide)
    (.allocate :: .dropAll :: List.replicate 15 .allocate)
  obtain ⟨slots, hr⟩ : ∃ slots, run ⟨16, 2, 8⟩
      (.allocate :: .dropAll :: List.replicate 15 .allocate) =
        .ok (⟨⟨16, 2, 8⟩, [8, 8, 4, 2], 1⟩, slots) := ⟨_, rfl⟩
  have hall := hscheduled _ slots hr
  have hsited : Arena.Sited ⟨⟨16, 2, 8⟩, [8, 8, 4, 2], 1⟩ (128 * ·) := ⟨by decide, by decide⟩
  exact ⟨_, slots, rfl, hr, hall.slot 3 0 (by decide) (by decide), hall.memory,
    (hall.wasted 1 _).mpr ⟨by decide, by decide⟩, (hall.sited _ hsited).2⟩

end Arena

end RegionHeap
