import RegionHeap.Proofs.CardSets
import RegionHeap.Proofs.Recycling

/-!
The slots of card sets balance. Each slot that was handed out is held by one container or waits for
reuse, whatever rounds have ended and whichever nodes are being transferred; the rest of the current
segment was never used.
-/
set_option autoImplicit false

namespace RegionHeap

namespace Arena

variable {a a' : Arena} {slot : Slot}

/-- The slots of all segments. -/
def slots (a : Arena) : Nat := Word.total a.segments

/-- The places of all slots of older segments and of so many of the current one, in the order in
which they are handed out. -/
def placesIn : List Nat → Nat → List Slot
  | [], _ => []
  | _ :: older, used =>
    placesIn older (older.headD 0) ++ (List.range used).map (Slot.mk older.length)

/-- The places that were handed out. -/
def places (a : Arena) : List Slot := placesIn a.segments a.used

theorem segment_lt_of_mem_placesIn {segments : List Nat} {used : Nat}
    (h : slot ∈ placesIn segments used) : slot.segment < segments.length := by
  induction segments generalizing used with
  | nil => simp [placesIn] at h
  | cons n older ih =>
    rw [placesIn, List.mem_append, List.mem_map] at h
    rw [List.length_cons]
    obtain h | ⟨_, -, rfl⟩ := h
    · exact Nat.lt_succ_of_lt (ih h)
    · exact Nat.lt_succ_self _

theorem nodup_placesIn (segments : List Nat) (used : Nat) : (placesIn segments used).Nodup := by
  induction segments generalizing used with
  | nil => exact List.nodup_nil
  | cons n older ih =>
    refine List.nodup_append'.mpr ⟨ih _, List.nodup_range.map fun i j h => (Slot.mk.inj h).2, ?_⟩
    intro p hp hp'
    obtain ⟨i, -, rfl⟩ := List.mem_map.mp hp'
    exact Nat.lt_irrefl _ (segment_lt_of_mem_placesIn hp)

/-- There are segments of some size, and no more slots of the current one are in use than it has. -/
structure Sound (a : Arena) : Prop where
  initial : 0 < a.sizing.initial
  largest : a.sizing.initial ≤ a.sizing.largest
  used : a.used ≤ a.segments.headD 0

theorem grow_eq_ok (h : a.grow = .ok a') :
    a' = { a with
      segments := a.sizing.nextSlots (a.segments.headD 0) :: a.segments, used := 0 } := by
  simp only [grow, Checked.bind_eq_ok, Checked.pure_eq, Except.ok.injEq] at h
  obtain ⟨-, -, -, -, rfl⟩ := h
  rfl

/-- One slot more is in use, at a place of its own. -/
theorem Sound.allocate (hs : a.Sound) (h : a.allocate = .ok (slot, a')) :
    a'.Sound ∧ a'.slots + a.unused = a.slots + a'.unused + 1 ∧
      a'.places = a.places ++ [slot] := by
  obtain ⟨hinitial, hlargest, hused⟩ := hs
  by_cases hroom : a.used < a.segments.headD 0
  · simp only [Arena.allocate, if_pos hroom, Checked.pure_eq, Checked.ok_bind, Except.ok.injEq,
      Prod.mk.injEq] at h
    obtain ⟨rfl, rfl⟩ := h
    refine ⟨⟨hinitial, hlargest, hroom⟩, by simp only [slots, unused]; omega, ?_⟩
    obtain ⟨sizing, segments, used⟩ := a
    cases segments with
    | nil => exact absurd hroom (Nat.not_lt_zero _)
    | cons n older =>
      simp [places, placesIn, segmentCount, List.range_succ]
  · simp only [Arena.allocate, if_neg hroom, Checked.bind_eq_ok, Checked.pure_eq, Except.ok.injEq,
      Prod.mk.injEq] at h
    obtain ⟨b, hgrow, rfl, rfl⟩ := h
    rw [grow_eq_ok hgrow]
    have hpos := SlotSizing.nextSlots_pos hinitial hlargest (a.segments.headD 0)
    have hfull : a.used = a.segments.headD 0 := Nat.le_antisymm hused (Nat.le_of_not_lt hroom)
    refine ⟨⟨hinitial, hlargest, hpos⟩, ?_, ?_⟩
    · simp only [slots, unused, Word.total, List.headD_cons]
      omega
    · simp [places, placesIn, segmentCount, hfull]

end Arena

namespace SlotAllocator

variable {s s' : SlotAllocator} {held held' : List Nat} {slot : Nat}

/-- Where a slot lies. Slots are numbered in the order in which the arena hands them out. -/
def place (s : SlotAllocator) (slot : Nat) : Option Slot :=
  s.arena.places[slot + s.arena.places.length - s.nodes.list.carved]?

/-- A slot that is carved has the number of the place that the arena hands out, and the others stay
where they are. -/
theorem place_carve (hs : s.arena.Sound) {p : Slot} {arena : Arena}
    (h : s.arena.allocate = .ok (p, arena)) :
    place ⟨s.nodes.carve.2, arena⟩ s.nodes.carve.1 = some p ∧
      ∀ n, n < s.nodes.list.carved → s.nodes.list.carved ≤ n + s.arena.places.length →
        place ⟨s.nodes.carve.2, arena⟩ n = s.place n := by
  obtain ⟨-, -, hplaces⟩ := hs.allocate h
  have hindex : ∀ n, place ⟨s.nodes.carve.2, arena⟩ n =
      (s.arena.places ++ [p])[n + s.arena.places.length - s.nodes.list.carved]? := fun n => by
    rw [place, hplaces, List.length_append, List.length_singleton, ← Nat.add_assoc]
    exact congrArg _ (Nat.add_sub_add_right ..)
  refine ⟨?_, fun n hlt hle => ?_⟩
  · have hnumber : s.nodes.carve.1 = s.nodes.list.carved := rfl
    rw [hindex, hnumber, Nat.add_sub_cancel_left, List.getElem?_concat_length]
  · rw [hindex, List.getElem?_append_left (by omega), place]

/-- Each slot that was handed out is in use once: it is held, or it waits for reuse. -/
structure Balanced (s : SlotAllocator) (held : List Nat) : Prop where
  arena : s.arena.Sound
  nodup : (held ++ s.nodes.list.idle).Nodup
  carved : ∀ n ∈ held ++ s.nodes.list.idle, n < s.nodes.list.carved ∧
    s.nodes.list.carved ≤ n + s.arena.places.length
  slots : s.arena.slots = (held ++ s.nodes.list.idle).length + s.arena.unused

namespace Balanced

theorem of_perm (h : s.Balanced held) (ha : s'.arena = s.arena)
    (hc : s'.nodes.list.carved = s.nodes.list.carved)
    (hp : (held' ++ s'.nodes.list.idle).Perm (held ++ s.nodes.list.idle)) : s'.Balanced held' where
  arena := ha ▸ h.arena
  nodup := hp.nodup_iff.mpr h.nodup
  carved n hn := by
    rw [ha, hc]
    exact h.carved n (hp.mem_iff.mp hn)
  slots := by rw [ha, hp.length_eq, h.slots]

theorem withRounds (h : s.Balanced held) (rounds : Rounds) : (s.withRounds rounds).Balanced held :=
  h.of_perm rfl (s.nodes.carved_withRounds rounds)
    ((s.nodes.withRounds_idle rounds).append_left held)

theorem startTransfer (h : s.Balanced held) :
    SlotAllocator.Balanced { s with nodes := s.nodes.startTransfer.2 } held :=
  h.of_perm rfl s.nodes.carved_startTransfer (s.nodes.startTransfer_idle.append_left held)

theorem free (h : s.Balanced (slot :: held)) : (s.free slot).Balanced held :=
  h.of_perm rfl (s.nodes.carved_release slot)
    (((s.nodes.release_idle slot).append_left held).trans List.perm_middle)

theorem allocate (h : s.Balanced held) (ha : s.allocate = .ok (slot, s')) :
    s'.Balanced (slot :: held) := by
  unfold SlotAllocator.allocate at ha
  split at ha
  · next node nodes hr =>
    obtain ⟨rfl, rfl⟩ := Prod.mk.inj (Except.ok.inj ha)
    obtain ⟨hp, hc⟩ := Recycler.reuse_eq_some hr
    exact h.of_perm rfl hc (List.perm_middle.symm.trans (hp.append_left held))
  · obtain ⟨⟨place, arena⟩, harena, he⟩ := Checked.bind_eq_ok.mp ha
    obtain ⟨rfl, rfl⟩ := Prod.mk.inj (Except.ok.inj he)
    obtain ⟨hsound, hslots, hplaces⟩ := h.arena.allocate harena
    have hlength : arena.places.length = s.arena.places.length + 1 := by
      rw [hplaces, List.length_append, List.length_singleton]
    -- a slot that is carved has a number of its own
    have hnew : s.nodes.list.carved ∉ held ++ s.nodes.list.idle := fun hin =>
      Nat.lt_irrefl _ (h.carved _ hin).1
    refine ⟨hsound, List.nodup_cons.mpr ⟨hnew, h.nodup⟩, fun n hn => ?_, ?_⟩
    · change n < s.nodes.list.carved + 1 ∧ s.nodes.list.carved + 1 ≤ n + arena.places.length
      obtain rfl | hn := List.mem_cons.mp hn
      · have hnumber : s.nodes.list.carve.1 = s.nodes.list.carved := rfl
        omega
      · have := h.carved n hn
        omega
    · have hbefore := h.slots
      change arena.slots = (held ++ s.nodes.list.idle).length + 1 + arena.unused
      omega

/-- Every slot lies at a place that was handed out, and no two lie at one place. -/
theorem place_of (h : s.Balanced held) :
    (∀ n ∈ held, ∃ p ∈ s.arena.places, s.place n = some p) ∧ (held.map s.place).Nodup := by
  have hindex : ∀ n ∈ held, n + s.arena.places.length - s.nodes.list.carved <
      s.arena.places.length ∧ s.nodes.list.carved ≤ n + s.arena.places.length := fun n hn => by
    have := h.carved n (List.mem_append_left _ hn)
    omega
  refine ⟨fun n hn => ⟨_, List.getElem_mem (hindex n hn).1, List.getElem?_eq_getElem _⟩, ?_⟩
  refine (List.nodup_append'.mp h.nodup).1.map_on fun n hn m hm he => ?_
  have hnodup : s.arena.places.Nodup := Arena.nodup_placesIn _ _
  have hsame := (List.getElem?_inj (hindex n hn).1 hnodup).mp he
  have hn := hindex n hn
  have hm := hindex m hm
  omega

/-- What is not held is wasted. -/
theorem wasted_eq_ok (h : s.Balanced held) {n : Nat} : s.wasted = .ok n ↔
    s.arena.slots - held.length < Word.limit ∧ n < Word.limit ∧
      (s.arena.slots - held.length) * s.arena.sizing.slotBytes = n := by
  have hslots := h.slots
  rw [List.length_append, FreeList.length_idle] at hslots
  have hspare : s.arena.unused + (s.nodes.freeCount + s.nodes.pendingCount) =
      s.arena.slots - held.length := by
    rw [Recycler.freeCount, Recycler.pendingCount]
    omega
  simp only [SlotAllocator.wasted, Arena.wasted, Checked.bind_eq_ok, Word.add_eq_ok,
    Word.mul_eq_ok, hspare]
  constructor
  · rintro ⟨_, ⟨hlt, rfl⟩, hbytes, rfl⟩
    exact ⟨hlt, hbytes, rfl⟩
  · rintro ⟨hlt, hbytes, rfl⟩
    exact ⟨_, ⟨hlt, rfl⟩, hbytes, rfl⟩

end Balanced

/-- All slots went back to the system. -/
structure Dropped (s : SlotAllocator) : Prop where
  segments : s.arena.segments = []
  used : s.arena.used = 0
  idle : s.nodes.list.idle = []

theorem dropped_dropAll (s : SlotAllocator) : s.dropAll.Dropped := ⟨rfl, rfl, rfl⟩

namespace Dropped

theorem withRounds (h : s.Dropped) (rounds : Rounds) : (s.withRounds rounds).Dropped :=
  ⟨h.segments, h.used, List.Perm.eq_nil (h.idle ▸ s.nodes.withRounds_idle rounds)⟩

theorem counts (h : s.Dropped) : s.nodes.freeCount = 0 ∧ s.nodes.pendingCount = 0 := by
  have hlength := s.nodes.list.length_idle
  rw [h.idle, List.length_nil] at hlength
  exact ⟨by rw [Recycler.freeCount]; omega, by rw [Recycler.pendingCount]; omega⟩

theorem unused (h : s.Dropped) : s.arena.unused = 0 := by
  rw [Arena.unused, h.segments, List.headD_nil, Nat.zero_sub]

theorem wasted (h : s.Dropped) : s.wasted = .ok 0 := by
  have hadd : Word.add 0 (0 + 0) = .ok 0 := rfl
  rw [SlotAllocator.wasted, Arena.wasted, h.unused, h.counts.1, h.counts.2, hadd, Checked.ok_bind]
  exact Word.mul_eq_ok.mpr ⟨by simp [Word.limit], Nat.zero_mul _⟩

theorem memory (h : s.Dropped) : s.arena.memory = 0 := by
  rw [Arena.memory, h.segments]
  rfl

theorem balanced (h : s.Dropped) (hi : 0 < s.arena.sizing.initial)
    (hl : s.arena.sizing.initial ≤ s.arena.sizing.largest) : s.Balanced [] where
  arena := ⟨hi, hl, by rw [h.used]; exact Nat.zero_le _⟩
  nodup := by simp [h.idle]
  carved := by simp [h.idle]
  slots := by
    rw [Arena.slots, h.segments, h.unused, h.idle]
    rfl

end Dropped

end SlotAllocator

namespace CardMemory

variable {m m' : CardMemory} {k l : ContainerKind} {slot : Nat}

theorem allocator_setAllocator (m : CardMemory) (k l : ContainerKind) (s : SlotAllocator) :
    (m.setAllocator k s).allocator l =
      if k = l then s else (m.allocator l).withRounds s.nodes.rounds := by
  cases k <;> cases l <;> rfl

theorem allocator_withRounds (m : CardMemory) (rounds : Rounds) (k : ContainerKind) :
    (m.withRounds rounds).allocator k = (m.allocator k).withRounds rounds := by
  cases k <;> rfl

/-- Starts to move the idle slots for a kind of container that are not yet free. -/
def startTransfer (m : CardMemory) (k : ContainerKind) : CardMemory :=
  m.setAllocator k { m.allocator k with nodes := (m.allocator k).nodes.startTransfer.2 }

/-- The slots of each kind are balanced. -/
def Balanced (m : CardMemory) (held : ContainerKind → List Nat) : Prop :=
  ∀ k, (m.allocator k).Balanced (held k)

namespace Balanced

variable {held held' : ContainerKind → List Nat}

theorem setAllocator (h : m.Balanced held) {s : SlotAllocator} (hs : s.Balanced (held' k))
    (hothers : ∀ l, k ≠ l → held' l = held l) : (m.setAllocator k s).Balanced held' := by
  intro l
  rw [allocator_setAllocator]
  split
  · next he => exact he ▸ hs
  · next hne =>
    rw [hothers l hne]
    exact (h l).withRounds _

theorem withRounds (h : m.Balanced held) (rounds : Rounds) : (m.withRounds rounds).Balanced held :=
  fun k => by
    rw [allocator_withRounds]
    exact (h k).withRounds rounds

theorem startTransfer (h : m.Balanced held) (k : ContainerKind) :
    (m.startTransfer k).Balanced held :=
  h.setAllocator (h k).startTransfer fun _ _ => rfl

theorem allocate (h : m.Balanced held) (ha : m.allocate k = .ok (slot, m'))
    (hk : held' k = slot :: held k) (hothers : ∀ l, k ≠ l → held' l = held l) :
    m'.Balanced held' := by
  obtain ⟨⟨slot', s⟩, hs, he⟩ := Checked.bind_eq_ok.mp ha
  obtain ⟨rfl, rfl⟩ := Prod.mk.inj (Except.ok.inj he)
  exact h.setAllocator (hk ▸ (h k).allocate hs) hothers

theorem free (h : m.Balanced held) (hk : held k = slot :: held' k)
    (hothers : ∀ l, k ≠ l → held' l = held l) : (m.free k slot).Balanced held' :=
  h.setAllocator (SlotAllocator.Balanced.free (hk ▸ h k)) hothers

end Balanced

/-- The slots of a kind that no container is in, when so many are. -/
def spare (m : CardMemory) (live : ContainerKind → Nat) (k : ContainerKind) : Nat :=
  (m.allocator k).arena.slots - live k

def spareBytes (m : CardMemory) (live : ContainerKind → Nat) : Nat :=
  m.spare live .array * (m.sizing .array).slotBytes +
    m.spare live .bitmap * (m.sizing .bitmap).slotBytes

/-- What no container is in is wasted, no more and no less; if that is too much for a word it cannot
be told. -/
theorem Balanced.wasted_eq_ok {held : ContainerKind → List Nat} {live : ContainerKind → Nat}
    (h : m.Balanced held) (hl : ∀ k, (held k).length = live k) {n : Nat} : m.wasted = .ok n ↔
      (∀ k, m.spare live k < Word.limit) ∧ n < Word.limit ∧ m.spareBytes live = n := by
  have heach : ∀ k i, (m.allocator k).wasted = .ok i ↔ m.spare live k < Word.limit ∧
      i < Word.limit ∧ m.spare live k * (m.sizing k).slotBytes = i := fun k i => by
    rw [spare, ← hl]
    exact (h k).wasted_eq_ok
  have ha := heach .array
  have hb := heach .bitmap
  simp only [wasted, Checked.bind_eq_ok, Word.add_eq_ok]
  constructor
  · rintro ⟨i, hi, j, hj, hlt, rfl⟩
    obtain ⟨harray, -, rfl⟩ := (ha i).mp hi
    obtain ⟨hbitmap, -, rfl⟩ := (hb j).mp hj
    refine ⟨fun k => ?_, hlt, rfl⟩
    cases k with
    | array => exact harray
    | bitmap => exact hbitmap
  · rintro ⟨hspare, hlt, rfl⟩
    rw [spareBytes] at hlt ⊢
    exact ⟨_, (ha _).mpr ⟨hspare .array, Nat.lt_of_le_of_lt (Nat.le_add_right _ _) hlt, rfl⟩, _,
      (hb _).mpr ⟨hspare .bitmap, Nat.lt_of_le_of_lt (Nat.le_add_left _ _) hlt, rfl⟩, hlt, rfl⟩

theorem dropped_flush (m : CardMemory) (k : ContainerKind) : (m.flush.allocator k).Dropped := by
  cases k with
  | array => exact (SlotAllocator.dropped_dropAll _).withRounds _
  | bitmap => exact SlotAllocator.dropped_dropAll _

end CardMemory

theorem CardConfig.sized_of_create {rounds : Rounds} {o : Options} {arrayBytes bitmapBytes : Nat}
    {config : CardConfig} (h : create rounds o arrayBytes bitmapBytes = .ok config)
    (k : ContainerKind) :
    0 < (config.sizing k).initial ∧ (config.sizing k).initial ≤ (config.sizing k).largest := by
  simp only [create, SlotSizing.create, Checked.bind_eq_ok, Fault.unless_eq_ok, Checked.pure_eq,
    Except.ok.injEq, Bool.and_eq_true, decide_eq_true_eq] at h
  obtain ⟨_, ⟨_, -, _, ⟨ha, ha'⟩, rfl⟩, _, ⟨_, -, _, ⟨hb, hb'⟩, rfl⟩, rfl⟩ := h
  cases k with
  | array => exact ⟨ha, ha'⟩
  | bitmap => exact ⟨hb, hb'⟩

namespace CardSet

variable {s s' : CardSet} {l : List (Nat × Container)} {region : Nat} {c d : Container}

section Containers

/-- The slots of the containers of a kind. -/
def slotsOf (l : List (Nat × Container)) (k : ContainerKind) : List Nat :=
  l.filterMap fun p => if p.2.kind = k then some p.2.slot else none

theorem slotsOf_cons (p : Nat × Container) (l : List (Nat × Container)) (k : ContainerKind) :
    slotsOf (p :: l) k = if p.2.kind = k then p.2.slot :: slotsOf l k else slotsOf l k := by
  rw [slotsOf, List.filterMap_cons]
  split <;> simp_all [slotsOf]

theorem slotsOf_cons_same (p : Nat × Container) (l : List (Nat × Container)) :
    slotsOf (p :: l) p.2.kind = p.2.slot :: slotsOf l p.2.kind := by
  rw [slotsOf_cons, if_pos rfl]

theorem slotsOf_cons_other {p : Nat × Container} {k : ContainerKind} (h : p.2.kind ≠ k) :
    slotsOf (p :: l) k = slotsOf l k := by
  rw [slotsOf_cons, if_neg h]

theorem length_slotsOf (l : List (Nat × Container)) (k : ContainerKind) :
    (slotsOf l k).length = l.countP (·.2.kind = k) := by
  induction l with
  | nil => rfl
  | cons p l ih =>
    rw [slotsOf_cons, List.countP_cons, ← ih]
    split <;> simp_all

theorem put_perm_of_none (h : l.lookup region = none) (c : Container) :
    (put region c l).Perm ((region, c) :: l) := by
  induction l with
  | nil => exact List.Perm.refl _
  | cons p l ih =>
    obtain ⟨k, e⟩ := p
    rw [lookup_entry] at h
    unfold put
    split
    · exact List.Perm.refl _
    · split
      · next he => simp [he] at h
      · next hne =>
        rw [if_neg hne] at h
        exact ((ih h).cons _).trans (List.Perm.swap ..)

theorem put_perm_of_some (hasc : l.Pairwise fun a b => a.1 < b.1)
    (h : l.lookup region = some d) :
    ∃ rest, l.Perm ((region, d) :: rest) ∧ ∀ c, (put region c l).Perm ((region, c) :: rest) := by
  induction l with
  | nil => contradiction
  | cons p l ih =>
    obtain ⟨k, e⟩ := p
    obtain ⟨hp, hl⟩ := List.pairwise_cons.mp hasc
    rw [lookup_entry] at h
    by_cases he : region = k
    · subst he
      rw [if_pos rfl] at h
      obtain rfl := Option.some.inj h
      exact ⟨l, List.Perm.refl _, fun c => by simp [put]⟩
    · rw [if_neg he] at h
      have hlt : ¬region < k := fun hlt =>
        Nat.lt_asymm hlt (hp _ ((mem_iff_lookup hl).mpr h))
      obtain ⟨rest, hrest, hput⟩ := ih hl h
      refine ⟨(k, e) :: rest, (hrest.cons _).trans (List.Perm.swap ..), fun c => ?_⟩
      rw [put, if_neg hlt, if_neg he]
      exact ((hput c).cons _).trans (List.Perm.swap ..)

end Containers

/-- How many containers of a kind there are. -/
def live (s : CardSet) (k : ContainerKind) : Nat := s.containers.countP (·.2.kind = k)

/-- Starts to move idle slots in the memory of a set. -/
def startTransfer (s : CardSet) (k : ContainerKind) : CardSet :=
  { s with memory := s.memory.startTransfer k }

/-- The containers are the only ones to hold slots, each one of its own. -/
structure Balanced (s : CardSet) : Prop where
  ascending : s.containers.Pairwise fun a b => a.1 < b.1
  memory : s.memory.Balanced (slotsOf s.containers)

namespace Balanced

theorem create {config : CardConfig}
    (hs : ∀ k, 0 < (config.sizing k).initial ∧
      (config.sizing k).initial ≤ (config.sizing k).largest) :
    (create config).Balanced where
  ascending := List.Pairwise.nil
  memory k := by
    have hd : ((CardMemory.create config).allocator k).Dropped := by
      cases k <;> exact ⟨rfl, rfl, rfl⟩
    have hsizing : ((CardMemory.create config).allocator k).arena.sizing = config.sizing k :=
      CardMemory.sizing_create config k
    exact hd.balanced (hsizing ▸ (hs k).1) (hsizing ▸ (hs k).2)

theorem withRounds (h : s.Balanced) (rounds : Rounds) : (s.withRounds rounds).Balanced :=
  ⟨h.ascending, h.memory.withRounds rounds⟩

theorem startTransfer (h : s.Balanced) (k : ContainerKind) : (s.startTransfer k).Balanced :=
  ⟨h.ascending, h.memory.startTransfer k⟩

theorem container (h : s.Balanced) {m : CardMemory} (hc : s.container region = .ok (c, m)) :
    ∃ rest, (∀ c', (put region c' s.containers).Perm ((region, c') :: rest)) ∧
      m.Balanced (slotsOf ((region, c) :: rest)) := by
  rw [CardSet.container] at hc
  split at hc
  · next d hl =>
    obtain ⟨rfl, rfl⟩ := Prod.mk.inj (Except.ok.inj hc)
    obtain ⟨rest, hrest, hput⟩ := put_perm_of_some h.ascending hl
    refine ⟨rest, hput, fun k => (h.memory k).of_perm rfl rfl ?_⟩
    exact (List.Perm.filterMap _ hrest.symm).append_right _
  · next hl =>
    obtain ⟨⟨slot, m'⟩, hm, he⟩ := Checked.bind_eq_ok.mp hc
    obtain ⟨rfl, rfl⟩ := Prod.mk.inj (Except.ok.inj he)
    exact ⟨s.containers, put_perm_of_none hl, h.memory.allocate hm
      (slotsOf_cons_same (region, .array slot []) _) fun k hk => slotsOf_cons_other hk⟩

/-- A container that overflows gives its slot back for that of the bitmap. -/
theorem insert {m m' : CardMemory} {rest : List (Nat × Container)} {offset : Nat}
    (h : m.Balanced (slotsOf ((region, c) :: rest))) (hc : c.insert m offset = .ok (d, m')) :
    m'.Balanced (slotsOf ((region, d) :: rest)) := by
  cases c with
  | bitmap slot bits =>
    obtain ⟨rfl, rfl⟩ := Prod.mk.inj (Except.ok.inj hc)
    exact h
  | array slot offsets =>
    rw [Container.insert] at hc
    split at hc
    · obtain ⟨rfl, rfl⟩ := Prod.mk.inj (Except.ok.inj hc)
      exact h
    · obtain ⟨⟨bitmapSlot, m₁⟩, hm, he⟩ := Checked.bind_eq_ok.mp hc
      obtain ⟨rfl, rfl⟩ := Prod.mk.inj (Except.ok.inj he)
      -- for a moment there are both containers
      have hboth : m₁.Balanced (slotsOf ((region, .array slot offsets) ::
          (region, .bitmap bitmapSlot ((offsets ++ [offset]).foldl Bitmap.insert .empty)) ::
            rest)) :=
        h.allocate hm (by simp [slotsOf_cons, Container.kind, Container.slot]) fun k hk => by
          cases k with
          | array => simp [slotsOf_cons, Container.kind]
          | bitmap => exact absurd rfl hk
      exact hboth.free (slotsOf_cons_same (region, .array slot offsets) _) fun k hk =>
        (slotsOf_cons_other (p := (region, .array slot offsets)) hk).symm

theorem add (h : s.Balanced) {card : Nat} {new : Bool} (ha : s.add card = .ok (new, s')) :
    s'.Balanced := by
  obtain ⟨c, m, hc, hcases⟩ := add_eq_ok ha
  obtain ⟨rest, hput, hm⟩ := h.container hc
  -- the memory is balanced for the containers in whatever order they come
  have hkept : ∀ {d : Container} {m' : CardMemory},
      m'.Balanced (slotsOf ((s.regionOf card, d) :: rest)) →
      m'.Balanced (slotsOf (put (s.regionOf card) d s.containers)) := fun {d m'} hm' k =>
    (hm' k).of_perm rfl rfl ((List.Perm.filterMap _ (hput d)).append_right _)
  obtain ⟨-, -, rfl⟩ | ⟨-, -, d, m', hi, rfl⟩ := hcases
  · exact ⟨ascending_put h.ascending _ _, hkept hm⟩
  · exact ⟨ascending_put h.ascending _ _, hkept (insert hm hi)⟩

theorem freed {l : List (Nat × Container)} {m : CardMemory} (h : m.Balanced (slotsOf l)) :
    (l.foldl (fun m p => m.free p.2.kind p.2.slot) m).Balanced fun _ => [] := by
  induction l generalizing m with
  | nil => exact h
  | cons p l ih =>
    exact ih (h.free (slotsOf_cons_same p l) fun k hk => (slotsOf_cons_other hk).symm)

theorem clear (h : s.Balanced) : s.clear.Balanced where
  ascending := List.Pairwise.nil
  memory k := by
    have hfreed := (freed h.memory k).arena
    have hmemory : s.clear.memory =
      (s.containers.foldl (fun m p => m.free p.2.kind p.2.slot) s.memory).flush := rfl
    generalize s.containers.foldl (fun m p => m.free p.2.kind p.2.slot) s.memory = m at *
    have hsizing : (m.flush.allocator k).arena.sizing = (m.allocator k).arena.sizing :=
      m.sizing_flush k
    rw [hmemory]
    exact (m.dropped_flush k).balanced (hsizing ▸ hfreed.initial) (hsizing ▸ hfreed.largest)

end Balanced

/-- The slots of a set add up: those of all segments are in use by a container, idle, or were never
used, and what is not in use is wasted. -/
structure Accounted (s : CardSet) : Prop where
  slots : ∀ k, (s.memory.allocator k).arena.slots = s.live k +
    (s.memory.allocator k).nodes.freeCount + (s.memory.allocator k).nodes.pendingCount +
      (s.memory.allocator k).arena.unused
  wasted : ∀ n, s.memory.wasted = .ok n ↔ (∀ k, s.memory.spare s.live k < Word.limit) ∧
    n < Word.limit ∧ s.memory.spareBytes s.live = n
  placed : ∀ k, ∀ slot ∈ slotsOf s.containers k,
    ∃ p ∈ (s.memory.allocator k).arena.places, (s.memory.allocator k).place slot = some p
  apart : ∀ k, ((slotsOf s.containers k).map (s.memory.allocator k).place).Nodup
  kept : ∀ k, ∀ slot ∈ slotsOf s.containers k, slot ∉ (s.memory.allocator k).nodes.list.idle

theorem Balanced.accounted (h : s.Balanced) : s.Accounted where
  slots k := by
    have hslots := (h.memory k).slots
    rw [List.length_append, length_slotsOf, FreeList.length_idle] at hslots
    rw [hslots, live, Recycler.freeCount, Recycler.pendingCount]
    omega
  wasted n := h.memory.wasted_eq_ok (length_slotsOf s.containers)
  placed k := (h.memory k).place_of.1
  apart k := (h.memory k).place_of.2
  kept k slot hs := (List.nodup_append'.mp (h.memory k).nodup).2.2 hs

/-- No memory is left. -/
structure Emptied (s : CardSet) : Prop where
  segments : ∀ k, (s.memory.allocator k).arena.segments = []
  stats : s.memory.stats = {}
  counts : ∀ k, (s.memory.allocator k).nodes.freeCount = 0 ∧
    (s.memory.allocator k).nodes.pendingCount = 0
  wasted : s.memory.wasted = .ok 0

theorem emptied_clear (s : CardSet) : s.clear.Emptied := by
  have hd : ∀ k, (s.clear.memory.allocator k).Dropped := fun k => CardMemory.dropped_flush _ k
  have ha := hd .array
  have hb := hd .bitmap
  refine ⟨fun k => (hd k).segments, ?_, fun k => (hd k).counts, ?_⟩
  · rw [CardMemory.stats]
    exact congr (congr (congrArg₂ MemoryStats.mk ha.memory hb.memory)
      (congrArg List.length ha.segments)) (congrArg List.length hb.segments)
  · have hadd : Word.add 0 0 = .ok 0 := rfl
    have hwa : s.clear.memory.array.wasted = .ok 0 := ha.wasted
    have hwb : s.clear.memory.bitmap.wasted = .ok 0 := hb.wasted
    rw [CardMemory.wasted, hwa, Checked.ok_bind, hwb, Checked.ok_bind, hadd]

/-- If an array becomes a bitmap, its slot is idle from then on. -/
def GivesBack (s s' : CardSet) : Prop :=
  ∀ region slot offsets slot' bits, s.containers.lookup region = some (.array slot offsets) →
    s'.containers.lookup region = some (.bitmap slot' bits) →
    s'.memory.array.nodes.list.idle.Perm (slot :: s.memory.array.nodes.list.idle)

theorem givesBack_add {card : Nat} {new : Bool} (ha : s.add card = .ok (new, s')) :
    s.GivesBack s' := by
  intro region slot offsets slot' bits hbefore hafter
  obtain ⟨c, m, hc, hcases⟩ := add_eq_ok ha
  -- only the container of the card changes
  have hregion : region = s.regionOf card := by
    by_contra hne
    have hsame : s'.containers.lookup region = s.containers.lookup region := by
      obtain ⟨-, -, rfl⟩ | ⟨-, -, d, m', -, rfl⟩ := hcases <;> rw [lookup_put, if_neg hne]
    rw [hsame, hbefore] at hafter
    simp at hafter
  subst hregion
  rw [CardSet.container, hbefore] at hc
  obtain ⟨rfl, rfl⟩ := Prod.mk.inj (Except.ok.inj hc)
  obtain ⟨-, -, rfl⟩ | ⟨-, -, d, m', hi, rfl⟩ := hcases
  · rw [lookup_put, if_pos rfl] at hafter
    simp at hafter
  · rw [lookup_put, if_pos rfl] at hafter
    obtain rfl := Option.some.inj hafter
    rw [Container.insert] at hi
    split at hi
    · simp at hi
    · obtain ⟨⟨bitmapSlot, m₁⟩, hm, he⟩ := Checked.bind_eq_ok.mp hi
      obtain ⟨-, rfl⟩ := Prod.mk.inj (Except.ok.inj he)
      obtain ⟨⟨_, t⟩, -, he⟩ := Checked.bind_eq_ok.mp hm
      obtain ⟨-, rfl⟩ := Prod.mk.inj (Except.ok.inj he)
      exact (Recycler.release_idle _ slot).trans ((Recycler.withRounds_idle _ _).cons slot)

/-- What can happen to a set and to its memory. -/
inductive Event where
  | operation (op : Operation)
  | transfer (k : ContainerKind)

def Event.perform (s : CardSet) : Event → Checked CardSet
  | .operation op => op.perform s
  | .transfer k => return s.startTransfer k

def happen (s : CardSet) (events : List Event) : Checked CardSet := events.foldlM Event.perform s

theorem Fits.startTransfer (h : s.Fits) (k : ContainerKind) : (s.startTransfer k).Fits := by
  intro l
  have hsizing : (s.startTransfer k).memory.sizing l = s.memory.sizing l := by
    refine (s.memory.sizing_setAllocator k l _).trans ?_
    split
    · next he => exact he ▸ rfl
    · rfl
  rw [hsizing]
  exact h l

theorem Balanced.perform (h : s.Balanced) (hf : s.Fits) (event : Event) :
    ∃ s', event.perform s = .ok s' ∧ s'.Balanced ∧ s'.Fits := by
  cases event with
  | operation op =>
    cases op with
    | add card =>
      obtain ⟨new, s', hadd, hf'⟩ := hf.add card
      exact ⟨s', (Checked.bind_of hadd _).trans rfl, h.add hadd, hf'⟩
    | clear => exact ⟨s.clear, rfl, h.clear, hf.clear⟩
    | rounds r => exact ⟨_, rfl, h.withRounds r, hf.withRounds r⟩
  | transfer k => exact ⟨_, rfl, h.startTransfer k, hf.startTransfer k⟩

/-- Whatever is done with a set and to its memory, and whenever transfers come to an end, its slots
add up: no slot is lost, none is in two containers, an array that becomes a bitmap gives its slot
back, and a set that is cleared has no memory left. -/
theorem happen_accounted {rounds : Rounds} {o : Options} {arrayBytes bitmapBytes : Nat}
    {config : CardConfig} (hc : CardConfig.create rounds o arrayBytes bitmapBytes = .ok config)
    (hf : config.Fits) (events : List Event) :
    ∃ s, (create config).happen events = .ok s ∧ s.Accounted ∧ s.clear.Emptied ∧
      ∀ card, ∃ new s', s.add card = .ok (new, s') ∧ s.GivesBack s' := by
  obtain ⟨s, hs, hb, hfits⟩ := Checked.foldlM_of (f := Event.perform)
    (fun _ s => s.Balanced ∧ s.Fits) (fun event _ s ⟨hb, hfits⟩ => hb.perform hfits event) events
    (create config) ⟨.create (CardConfig.sized_of_create hc), fits_create hf⟩
  refine ⟨s, hs, hb.accounted, emptied_clear s, fun card => ?_⟩
  obtain ⟨new, s', hadd, -⟩ := hfits.add card
  exact ⟨new, s', hadd, givesBack_add hadd⟩

/-- An array overflows while another one lives on; the slot that it gave back is transferred. -/
theorem overflow_sample : ∃ config s, CardConfig.create { period := 128, delay := 2 }
      { threads := 1, regionSize := 65536 } 64 16 = .ok config ∧ config.Fits ∧
    (create config).happen ((List.range 16).map (fun card => .operation (.add card)) ++
      [.operation (.add 128), .transfer .array,
        .operation (.rounds { period := 128, delay := 2, current := 9 })]) = .ok s ∧
    s.live .array = 1 ∧ s.live .bitmap = 1 ∧ s.memory.array.nodes.freeCount = 1 ∧
    s.memory.array.arena.unused = 6 ∧ s.memory.wasted = .ok (7 * 72 + 7 * 24) ∧
    s.clear.memory.stats = {} := by
  obtain ⟨config, hc⟩ : ∃ config, CardConfig.create { period := 128, delay := 2 }
      { threads := 1, regionSize := 65536 } 64 16 = .ok config := ⟨_, rfl⟩
  have hf : config.Fits := by
    obtain rfl := Except.ok.inj hc
    intro k
    cases k <;> rw [SlotSizing.Fits] <;> decide
  obtain ⟨s, hs, hacc, hempty, -⟩ := happen_accounted hc hf
    ((List.range 16).map (fun card => .operation (.add card)) ++
      [.operation (.add 128), .transfer .array,
        .operation (.rounds { period := 128, delay := 2, current := 9 })])
  refine ⟨config, s, hc, hf, hs, ?_⟩
  obtain rfl := Except.ok.inj hc
  have hwasted := (hacc.wasted (7 * 72 + 7 * 24)).mpr
  have hstats := hempty.stats
  obtain rfl := Except.ok.inj hs
  refine ⟨rfl, rfl, rfl, rfl, hwasted ⟨fun k => ?_, by decide, rfl⟩, hstats⟩
  cases k <;> decide

end CardSet

end RegionHeap
