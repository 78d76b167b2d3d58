import RegionHeap.Proofs.Fitting
import RegionHeap.Proofs.Segments

/-!
How far the memory behind card sets grows. The options admit any positive numbers of slots, so
that a segment of the schedule may be larger than the system allows. Such a segment is refused, and
whether one is ever needed follows from the schedule alone.
-/
set_option autoImplicit false

namespace RegionHeap

namespace Options

variable {o o' : Options} {name value : String} {taken : Bool}

/-- The options of a process, with any of them set afterwards. -/
inductive Reached : Options → Prop where
  | environment (threads : Nat) (entries : List (String × String)) (h : 0 < threads) :
    Reached (ofEnvironment threads entries)
  | set {o o' : Options} {name value : String} {taken : Bool} (h : Reached o)
    (hs : o.set name value = .ok (taken, o')) : Reached o'

/-- Valid options whose numbers of slots are words. -/
structure Sized (o : Options) : Prop extends Valid o where
  initialWord : o.cardSetInitialSlots < Word.limit
  largestWord : o.cardSetMaxSlots < Word.limit

theorem readWord?_lt {n : Nat} (h : readWord? value = some n) : n < Word.limit := by
  simp only [readWord?, Option.ite_none_left_eq_some, Option.ite_none_right_eq_some] at h
  obtain ⟨-, hlt, hn⟩ := h
  exact Option.some.inj hn ▸ hlt

theorem readNumber?_lt {valid : Nat → Bool} {n : Nat} (h : readNumber? valid value = some n) :
    n < Word.limit :=
  readWord?_lt (Option.filter_eq_some_iff.mp h).1

theorem Sized.put? {k : Key} (h : o.Sized) (hp : o.put? k value = some o') : o'.Sized := by
  have hvalid := h.toValid.put? hp
  have hinitial := h.initialWord
  have hlargest := h.largestWord
  cases k <;> simp only [Options.put?, Option.map_eq_some_iff] at hp <;>
    obtain ⟨n, hn, rfl⟩ := hp
  case cardSetInitialSlots => exact ⟨hvalid, readNumber?_lt hn, hlargest⟩
  case cardSetMaxSlots => exact ⟨hvalid, hinitial, readNumber?_lt hn⟩
  all_goals exact ⟨hvalid, hinitial, hlargest⟩

theorem Sized.set (h : o.Sized) (hs : o.set name value = .ok (taken, o')) : o'.Sized := by
  unfold Options.set at hs
  cases hk : Key.ofName? name with
  | none => simp [hk] at hs
  | some k =>
    cases hp : o.put? k value with
    | none =>
      obtain ⟨-, rfl⟩ : false = taken ∧ o = o' := by simpa [hk, hp] using hs
      exact h
    | some p =>
      obtain ⟨-, rfl⟩ : true = taken ∧ p = o' := by simpa [hk, hp] using hs
      exact h.put? hp

theorem sized_ofEnvironment {threads : Nat} (h : 0 < threads) (entries : List (String × String)) :
    (ofEnvironment threads entries).Sized := by
  have hinitial : 8 < Word.limit := by decide
  have hlargest : 1 <<< 31 - 1 < Word.limit := by decide
  refine List.foldlRecOn entries _ ⟨valid_default h, hinitial, hlargest⟩ fun o ho entry _ => ?_
  obtain ⟨name, value⟩ := entry
  dsimp only
  split
  · next k _ =>
    cases hp : o.put? k value with
    | none => exact ho
    | some p => exact ho.put? hp
  · exact ho

theorem Reached.sized (h : o.Reached) : o.Sized := by
  induction h with
  | environment threads entries h => exact sized_ofEnvironment h entries
  | set h hs ih => exact ih.set hs

theorem Sized.proper (h : o.Sized) (bytes : Nat) : (o.slotSizing bytes).Proper :=
  ⟨h.cardSetInitialSlots, Nat.le_max_right .., Nat.max_lt.mpr ⟨h.largestWord, h.initialWord⟩⟩

theorem slotBytes_bitmap (h : isRegionSize o.regionSize = true) :
    (o.slotSizing (max (o.regionSize >>> Address.logBytesInCard / 8) 8)).slotBytes =
      8 + o.regionSize / 4096 := by
  obtain ⟨k, hk, hk', he⟩ := isRegionSize_eq h
  rw [slotSizing, he]
  obtain rfl | rfl | rfl | rfl | rfl | rfl | rfl | rfl | rfl | rfl :
      k = 16 ∨ k = 17 ∨ k = 18 ∨ k = 19 ∨ k = 20 ∨ k = 21 ∨ k = 22 ∨ k = 23 ∨ k = 24 ∨ k = 25 := by
    omega
  all_goals rfl

end Options

namespace SlotAllocator

variable {s s' : SlotAllocator} {sizing : SlotSizing} {threshold n : Nat}

/-- What can happen to the slots of a kind. -/
inductive Call where
  | allocate
  | free (slot : Nat)
  | rounds (r : Rounds)
  | dropAll

def Call.perform (s : SlotAllocator) : Call → Checked SlotAllocator
  | .allocate => do return (← s.allocate).2
  | .free slot => return s.free slot
  | .rounds r => return s.withRounds r
  | .dropAll => return s.dropAll

def run (s : SlotAllocator) (calls : List Call) : Checked SlotAllocator :=
  calls.foldlM Call.perform s

theorem allocate_eq_ok {slot : Nat} (h : s.allocate = .ok (slot, s')) :
    s'.arena = s.arena ∨ ∃ p, s.arena.allocate = .ok (p, s'.arena) := by
  unfold allocate at h
  split at h
  · obtain ⟨-, rfl⟩ := Prod.mk.inj (Except.ok.inj h)
    exact .inl rfl
  · obtain ⟨⟨p, arena⟩, ha, he⟩ := Checked.bind_eq_ok.mp h
    obtain ⟨-, rfl⟩ := Prod.mk.inj (Except.ok.inj he)
    exact .inr ⟨p, ha⟩

theorem allocate_eq_error {f : Fault} (h : s.allocate = .error f) : s.arena.allocate = .error f := by
  unfold allocate at h
  split at h
  · contradiction
  · cases ha : s.arena.allocate with
    | error e => simpa [ha] using h
    | ok p => simp [ha] at h

/-- The arena follows the schedule. -/
def Follows (s : SlotAllocator) (sizing : SlotSizing) : Prop :=
  ∃ slots, Arena.Filled sizing s.arena slots

/-- A refusal that is due to a segment of the schedule. -/
def TooLarge (sizing : SlotSizing) (f : Fault) : Prop :=
  ∃ j, Arena.maxSegmentBytes < sizing.segment j * sizing.slotBytes ∧
    (f = .overflow ∨ f = .segmentTooLarge (sizing.segment j) sizing.slotBytes)

theorem Follows.perform (h : s.Follows sizing) (hp : sizing.Proper) {c : Call}
    (hc : c.perform s = .ok s') : s'.Follows sizing := by
  obtain ⟨slots, hfilled⟩ := h
  cases c with
  | allocate =>
    obtain ⟨⟨slot, t⟩, ha, he⟩ := Checked.bind_eq_ok.mp hc
    obtain rfl := Except.ok.inj he
    obtain hsame | ⟨p, hp'⟩ := allocate_eq_ok ha
    · exact ⟨slots, hsame ▸ hfilled⟩
    · exact ⟨_, hfilled.allocate hp hp'⟩
  | free slot =>
    obtain rfl := Except.ok.inj hc
    exact ⟨slots, hfilled⟩
  | rounds r =>
    obtain rfl := Except.ok.inj hc
    exact ⟨slots, hfilled⟩
  | dropAll =>
    obtain rfl := Except.ok.inj hc
    exact ⟨[], hfilled.dropAll⟩

theorem Follows.refused (h : s.Follows sizing) (hp : sizing.Proper) {c : Call} {f : Fault}
    (hc : c.perform s = .error f) : TooLarge sizing f := by
  obtain ⟨slots, hfilled⟩ := h
  cases c with
  | allocate =>
    have ha : s.allocate = .error f := by
      cases ha : s.allocate with
      | error e => simpa [Call.perform, ha] using hc
      | ok p => simp [Call.perform, ha] at hc
    exact ⟨_, hfilled.allocate_eq_error hp (allocate_eq_error ha)⟩
  | free slot => contradiction
  | rounds r => contradiction
  | dropAll => contradiction

theorem Follows.run (h : s.Follows sizing) (hp : sizing.Proper) (calls : List Call) :
    (∀ s', s.run calls = .ok s' → s'.Follows sizing) ∧
      ∀ f, s.run calls = .error f → TooLarge sizing f := by
  induction calls generalizing s with
  | nil =>
    refine ⟨fun s' hs => ?_, fun f hf => by contradiction⟩
    obtain rfl := Except.ok.inj hs
    exact h
  | cons c calls ih =>
    have hcons : s.run (c :: calls) = c.perform s >>= fun t => t.run calls := List.foldlM_cons
    cases hc : c.perform s with
    | error e =>
      rw [hcons, hc]
      refine ⟨fun s' hs => by contradiction, fun f hf => ?_⟩
      obtain rfl := Except.error.inj hf
      exact h.refused hp hc
    | ok t =>
      rw [hcons, hc]
      exact ih (h.perform hp hc)

theorem follows_create (sizing : SlotSizing) (threshold : Nat) (rounds : Rounds) :
    (create sizing threshold rounds).Follows sizing :=
  ⟨[], .empty sizing⟩

/-- As long as no slot comes back, each one is taken from the arena. -/
theorem run_fresh (hs : s.nodes.list.free = []) (slots : List Slot) (n : Nat) :
    (·.arena) <$> s.run (List.replicate n .allocate) =
      Prod.fst <$> (List.replicate n Arena.Call.allocate).foldlM Arena.Call.perform
        (s.arena, slots) := by
  induction n generalizing s slots with
  | zero => rfl
  | succ n ih =>
    have hallocate : s.allocate = s.arena.allocate >>= fun p =>
        .ok (s.nodes.carve.1, ⟨s.nodes.carve.2, p.2⟩) := by
      rw [allocate, Recycler.reuse?, hs]
      rfl
    simp only [List.replicate_succ, run, List.foldlM_cons, Call.perform, Arena.Call.perform,
      hallocate]
    cases ha : s.arena.allocate with
    | error e => rfl
    | ok p => exact ih (s := ⟨s.nodes.carve.2, p.2⟩) hs _

/-- How far the slots of a kind can be taken. -/
structure Grows (sizing : SlotSizing) (threshold : Nat) (rounds : Rounds) : Prop where
  segments : ∀ calls s, (create sizing threshold rounds).run calls = .ok s →
    s.arena.segments.reverse = (List.range s.arena.segmentCount).map sizing.segment ∧
      ∀ n ∈ s.arena.segments, n * sizing.slotBytes ≤ Arena.maxSegmentBytes
  refused : ∀ calls f, (create sizing threshold rounds).run calls = .error f → TooLarge sizing f
  inARow : ∀ n, (∃ s, (create sizing threshold rounds).run (List.replicate n .allocate) = .ok s) ↔
    ∀ j, sizing.room j < n → sizing.segment j * sizing.slotBytes ≤ Arena.maxSegmentBytes
  always : (∀ calls, ∃ s, (create sizing threshold rounds).run calls = .ok s) ↔ sizing.Fits

theorem taken_replicate (n : Nat) : Arena.taken (List.replicate n .allocate) = n := by
  induction n with
  | zero => rfl
  | succ n ih => rw [List.replicate_succ', Arena.taken_append, ih, Arena.Call.count]

theorem inARow_iff (hp : sizing.Proper) (threshold : Nat) (rounds : Rounds) (n : Nat) :
    (∃ s, (create sizing threshold rounds).run (List.replicate n .allocate) = .ok s) ↔
      ∀ j, sizing.room j < n → sizing.segment j * sizing.slotBytes ≤ Arena.maxSegmentBytes := by
  have hfresh := run_fresh (s := create sizing threshold rounds) rfl [] n
  have hiff : (∃ s, (create sizing threshold rounds).run (List.replicate n .allocate) = .ok s) ↔
      ∃ r, Arena.run sizing (List.replicate n .allocate) = .ok r := by
    change _ = Prod.fst <$> Arena.run sizing (List.replicate n .allocate) at hfresh
    cases hx : (create sizing threshold rounds).run (List.replicate n .allocate) <;>
      cases hy : Arena.run sizing (List.replicate n .allocate) <;> simp [hx, hy] at hfresh ⊢
  rw [hiff, Arena.run_iff hp]
  constructor
  · intro h
    have hall := h _ (List.prefix_refl _)
    rwa [taken_replicate] at hall
  · intro h done hdone j hj
    obtain ⟨hle, hdone⟩ := List.prefix_replicate_iff.mp hdone
    rw [hdone, taken_replicate] at hj
    exact h j (by omega)

theorem grows (hp : sizing.Proper) (threshold : Nat) (rounds : Rounds) :
    Grows sizing threshold rounds where
  segments calls s hs := by
    obtain ⟨slots, hfilled⟩ := ((follows_create sizing threshold rounds).run hp calls).1 s hs
    have hsegments := SlotSizing.reverse_segments sizing s.arena.segmentCount
    rw [← hfilled.segments] at hsegments
    refine ⟨hsegments, fun n hn => ?_⟩
    rw [← List.mem_reverse, hsegments] at hn
    obtain ⟨j, hj, rfl⟩ := List.mem_map.mp hn
    exact hfilled.fits j (List.mem_range.mp hj)
  refused calls := ((follows_create sizing threshold rounds).run hp calls).2
  inARow := inARow_iff hp threshold rounds
  always := by
    constructor
    · intro hall
      -- so many slots need a segment of the largest size
      have hlast := (inARow_iff hp threshold rounds (sizing.room sizing.largest + 1)).mp (hall _)
        sizing.largest (Nat.lt_succ_self _)
      rwa [hp.segment_largest] at hlast
    · intro hfits calls
      cases hr : (create sizing threshold rounds).run calls with
      | ok s => exact ⟨s, rfl⟩
      | error f =>
        obtain ⟨j, hlarge, -⟩ := ((follows_create sizing threshold rounds).run hp calls).2 f hr
        have hle := Nat.mul_le_mul_right sizing.slotBytes (hp.segment_le j).2
        exact absurd (Nat.le_trans hle hfits) (Nat.not_le_of_lt hlarge)

end SlotAllocator

namespace Options

variable {o : Options}

/-- The card sets of any options take slots until a segment of the schedule is too large. That
happens sooner or later unless a segment of the largest size is none too large, as it is with up to
2 ^ 49 slots. -/
theorem Reached.configuration_grows (h : o.Reached) (rounds : Rounds) : ∃ config,
    CardSet.configuration rounds o = .ok config ∧
    config.array.slotBytes = 72 ∧ config.bitmap.slotBytes = 8 + o.regionSize / 4096 ∧
    (∀ k, (config.sizing k).initial = o.cardSetInitialSlots ∧
      (config.sizing k).largest = max o.cardSetMaxSlots o.cardSetInitialSlots ∧
      SlotAllocator.Grows (config.sizing k) config.transferThreshold config.rounds) ∧
    (max o.cardSetMaxSlots o.cardSetInitialSlots ≤ 1 <<< 49 → config.Fits) := by
  have hsized := h.sized
  have hbitmap := slotBytes_bitmap hsized.regionSize
  refine ⟨_, hsized.configuration rounds, rfl, hbitmap, fun k => ?_, fun hslots k => ?_⟩
  · cases k with
    | array => exact ⟨rfl, rfl, SlotAllocator.grows (hsized.proper _) _ _⟩
    | bitmap => exact ⟨rfl, rfl, SlotAllocator.grows (hsized.proper _) _ _⟩
  · have hsize : o.regionSize ≤ 1 <<< 25 := by
      have hregion := hsized.regionSize
      simp only [isRegionSize, Bool.and_eq_true, decide_eq_true_eq] at hregion
      exact hregion.2
    have hbytes : 8 + o.regionSize / 4096 ≤ 8200 := by
      have := Nat.div_le_div_right (c := 4096) hsize
      omega
    cases k with
    | array =>
      calc _ ≤ 1 <<< 49 * 72 := Nat.mul_le_mul_right _ hslots
        _ ≤ Arena.maxSegmentBytes := by decide
    | bitmap =>
      rw [SlotSizing.Fits, CardConfig.sizing, hbitmap]
      calc _ ≤ 1 <<< 49 * 8200 := Nat.mul_le_mul hslots hbytes
        _ ≤ Arena.maxSegmentBytes := by decide

/-- An option that is taken, and a first slot that is refused. -/
theorem refused_sample : ∃ o config, Reached o ∧
    ({ threads := 1 } : Options).set "card_set_initial_slots" "144115188075855872" = .ok (true, o) ∧
    CardSet.configuration { period := 128, delay := 2 } o = .ok config ∧
    ¬∃ s, (SlotAllocator.create config.array config.transferThreshold config.rounds).run
      [.allocate] = .ok s := by
  have hset : ({ threads := 1 } : Options).set "card_set_initial_slots" "144115188075855872" =
      .ok (true, { threads := 1, cardSetInitialSlots := 144115188075855872 }) := by decide
  have hreached := Reached.set (.environment 1 [] Nat.one_pos) hset
  obtain ⟨config, hc, hbytes, -, hgrows, -⟩ :=
    hreached.configuration_grows { period := 128, delay := 2 }
  refine ⟨_, config, hreached, hset, hc, fun hs => ?_⟩
  obtain ⟨hinitial, -, hgrows⟩ := hgrows .array
  have hfits := (hgrows.inARow 1).mp hs 0 Nat.one_pos
  rw [CardConfig.sizing] at hinitial hfits
  rw [SlotSizing.segment, hinitial, hbytes] at hfits
  revert hfits
  decide

end Options

end RegionHeap
