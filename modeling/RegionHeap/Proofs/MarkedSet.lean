import Mathlib.Data.Finset.Card
import Mathlib.Data.Finset.Image
import RegionHeap.LivenessStorage
import RegionHeap.Proofs.Checked

/-!
A set of marked words of the heap. Regions that hold words are marked, and what is done to one region
changes nothing in another.
-/
set_option autoImplicit false

namespace RegionHeap

/-- A set of words of the heap, and the regions that are marked and that have storage. -/
structure MarkedSet where
  start : Nat
  regions : Nat
  regionBytes : Nat
  words : Finset Nat := ∅
  marked : Finset Nat := ∅
  ready : Finset Nat := ∅

namespace MarkedSet

def region (t : MarkedSet) (a : Nat) : Nat := (a - t.start) / t.regionBytes

/-- The position of a word in its region. -/
def position (t : MarkedSet) (a : Nat) : Nat :=
  (a - (t.start + t.region a * t.regionBytes)) / 8

def wordsIn (t : MarkedSet) (region : Nat) : Finset Nat := t.words.filter (t.region · = region)

def state (t : MarkedSet) (region : Nat) : LazyState :=
  if region ∈ t.marked then .marked
  else if region ∈ t.ready then .initialized
  else .uninitialized

/-- The region of a word of the heap. -/
def regionOf (t : MarkedSet) (a : Nat) : Checked Nat := do
  Fault.unless (t.start ≤ a) .precondition
  Fault.unless (t.region a < t.regions) (.notInHeap a)
  return t.region a

def checkRegion (t : MarkedSet) (region : Nat) : Checked Unit :=
  Fault.unless (region < t.regions) .outOfBounds

/-- Only the bits of a marked region are looked at. -/
def checkBit (t : MarkedSet) (region a : Nat) : Checked Unit :=
  Fault.unless (region ∉ t.marked ∨ Address.isWordAligned a = true) .precondition

/-- A region is marked. -/
def enter (t : MarkedSet) (region : Nat) : MarkedSet :=
  { t with marked := insert region t.marked, ready := insert region t.ready }

def without (t : MarkedSet) (region : Nat) : MarkedSet :=
  { t with words := t.words.filter (t.region · ≠ region) }

/-- Words of the heap are aligned, and only a region that is ready and not marked gives its storage
back. -/
def check (t : MarkedSet) : LivenessOperation → Checked Unit
  | .mark a | .tryMark a => do
    let _ ← t.regionOf a
    Fault.unless (Address.isWordAligned a) .precondition
  | .clear a => do t.checkBit (← t.regionOf a) a
  | .clearRange region | .reset region => t.checkRegion region
  | .resetAll => return
  | .uncommit region => do
    t.checkRegion region
    Fault.unless (t.state region == .initialized) (.sliceInUse region)

def answer (t : MarkedSet) : LivenessOperation → Option Bool
  | .mark a => some (decide (a ∈ t.words))
  | .tryMark a => some (decide (a ∉ t.words))
  | _ => none

def after (t : MarkedSet) : LivenessOperation → MarkedSet
  | .mark a | .tryMark a => { t.enter (t.region a) with words := insert a t.words }
  | .clear a => { t with words := t.words.erase a }
  | .clearRange region => t.without region
  | .reset region => { t.without region with marked := t.marked.erase region }
  | .resetAll => { t with words := ∅, marked := ∅ }
  | .uncommit region => { t with ready := t.ready.erase region }

def perform (t : MarkedSet) (operation : LivenessOperation) : Checked (Option Bool × MarkedSet) := do
  t.check operation
  return (t.answer operation, t.after operation)

/-- The words lie in marked regions of the heap, and these have storage. -/
structure Sound (t : MarkedSet) : Prop where
  words : ∀ a ∈ t.words, t.start ≤ a ∧ a % 8 = 0 ∧ t.region a ∈ t.marked
  marked : ∀ r ∈ t.marked, r ∈ t.ready
  ready : ∀ r ∈ t.ready, r < t.regions

variable {t t' : MarkedSet} {a b r region : Nat}

theorem regionOf_eq_ok :
    t.regionOf a = .ok region ↔ t.start ≤ a ∧ t.region a < t.regions ∧ t.region a = region := by
  simp [regionOf, Checked.bind_eq_ok]

theorem mem_wordsIn : a ∈ t.wordsIn region ↔ a ∈ t.words ∧ t.region a = region := by
  simp [wordsIn]

theorem position_inj (ha : t.start ≤ a) (hb : t.start ≤ b) (ha' : a % 8 = 0) (hb' : b % 8 = 0)
    (hr : t.region a = t.region b) (hp : t.position a = t.position b) : a = b := by
  have hale : t.region a * t.regionBytes ≤ a - t.start := Nat.div_mul_le_self _ _
  have hble : t.region b * t.regionBytes ≤ b - t.start := Nat.div_mul_le_self _ _
  rw [position, position, hr] at hp
  rw [hr] at hale
  omega

namespace Sound

theorem wordsIn_of_unmarked (h : t.Sound) (hr : r ∉ t.marked) : t.wordsIn r = ∅ := by
  refine Finset.eq_empty_of_forall_notMem fun a ha => ?_
  rw [mem_wordsIn] at ha
  exact hr (ha.2 ▸ (h.words a ha.1).2.2)

theorem position_injOn (h : t.Sound) (r : Nat) : Set.InjOn t.position (t.wordsIn r) := by
  intro a ha b hb hp
  obtain ⟨ha, har⟩ := mem_wordsIn.mp (Finset.mem_coe.mp ha)
  obtain ⟨hb, hbr⟩ := mem_wordsIn.mp (Finset.mem_coe.mp hb)
  exact position_inj (h.words a ha).1 (h.words b hb).1 (h.words a ha).2.1 (h.words b hb).2.1
    (har.trans hbr.symm) hp

theorem enter (h : t.Sound) (hr : region < t.regions) : (t.enter region).Sound where
  words a ha := by
    obtain ⟨hstart, haligned, hin⟩ := h.words a ha
    exact ⟨hstart, haligned, Finset.mem_insert_of_mem hin⟩
  marked r hr := by
    rw [MarkedSet.enter, Finset.mem_insert] at hr
    rw [MarkedSet.enter, Finset.mem_insert]
    exact hr.imp_right (h.marked r)
  ready r hr := by
    rw [MarkedSet.enter, Finset.mem_insert] at hr
    obtain rfl | hr := hr
    · assumption
    · exact h.ready r hr

theorem insertWord (h : t.Sound) (ha : t.start ≤ a) (ha' : a % 8 = 0)
    (hm : t.region a ∈ t.marked) : ({ t with words := insert a t.words } : MarkedSet).Sound where
  words b hb := by
    obtain rfl | hb := Finset.mem_insert.mp hb
    · exact ⟨ha, ha', hm⟩
    · exact h.words b hb
  marked := h.marked
  ready := h.ready

theorem subset (h : t.Sound) {words : Finset Nat} (hw : ∀ a ∈ words, a ∈ t.words) :
    ({ t with words := words } : MarkedSet).Sound :=
  ⟨fun a ha => h.words a (hw a ha), h.marked, h.ready⟩

theorem unmark (h : t.Sound) (hw : t.wordsIn region = ∅) :
    ({ t with marked := t.marked.erase region } : MarkedSet).Sound where
  words a ha := by
    obtain ⟨hstart, haligned, hin⟩ := h.words a ha
    refine ⟨hstart, haligned, Finset.mem_erase.mpr ⟨fun hr => ?_, hin⟩⟩
    exact Finset.notMem_empty a (hw ▸ mem_wordsIn.mpr ⟨ha, hr⟩)
  marked r hr := h.marked r (Finset.mem_of_mem_erase hr)
  ready := h.ready

theorem uncommit (h : t.Sound) (hr : region ∉ t.marked) :
    ({ t with ready := t.ready.erase region } : MarkedSet).Sound where
  words := h.words
  marked r hm := Finset.mem_erase.mpr ⟨fun he => hr (he ▸ hm), h.marked r hm⟩
  ready r hm := h.ready r (Finset.mem_of_mem_erase hm)

end Sound

theorem wordsIn_without : (t.without region).wordsIn r = if region = r then ∅ else t.wordsIn r := by
  ext a
  have hmem : a ∈ (t.without region).wordsIn r ↔
      (a ∈ t.words ∧ t.region a ≠ region) ∧ t.region a = r := by
    rw [mem_wordsIn, without, Finset.mem_filter]
    rfl
  rw [hmem]
  split
  · next he =>
    subst he
    simp
  · next he =>
    rw [mem_wordsIn]
    refine ⟨fun h => ⟨h.1.1, h.2⟩, fun h => ⟨⟨h.1, fun hr => he (hr.symm.trans h.2)⟩, h.2⟩⟩

theorem without_of_empty (h : t.wordsIn region = ∅) : t.without region = t := by
  rw [without, Finset.filter_true_of_mem]
  exact fun a ha hr => Finset.notMem_empty a (h ▸ mem_wordsIn.mpr ⟨ha, hr⟩)

theorem checkBit_of_marked (hm : region ∈ t.marked) :
    t.checkBit region a = Fault.unless (Address.isWordAligned a) .precondition := by
  simp [checkBit, hm]

theorem isMarked_state : (t.state r).isMarked = decide (r ∈ t.marked) := by
  by_cases hm : r ∈ t.marked
  · simp [state, hm, LazyState.isMarked]
  · by_cases hr : r ∈ t.ready <;> simp [state, hm, hr, LazyState.isMarked]

theorem Sound.isInitialized_state (h : t.Sound) :
    (t.state r).isInitialized = decide (r ∈ t.ready) := by
  by_cases hm : r ∈ t.marked
  · simp [state, hm, h.marked r hm, LazyState.isInitialized]
  · by_cases hr : r ∈ t.ready <;> simp [state, hm, hr, LazyState.isInitialized]

theorem state_same : t.state r = if region = r then t.state region else t.state r := by
  split
  · next he => rw [he]
  · rfl

theorem state_unmark (hr : region ∈ t.ready) :
    ({ t with marked := t.marked.erase region } : MarkedSet).state r =
      if region = r then .initialized else t.state r := by
  by_cases he : region = r
  · subst he
    simp [state, hr]
  · simp [state, he, Ne.symm he]

theorem state_uncommit (hm : region ∉ t.marked) :
    ({ t with ready := t.ready.erase region } : MarkedSet).state r =
      if region = r then .uninitialized else t.state r := by
  by_cases he : region = r
  · subst he
    simp [state, hm]
  · simp [state, he, Ne.symm he]

theorem state_eq_initialized : t.state r = .initialized ↔ r ∉ t.marked ∧ r ∈ t.ready := by
  by_cases hm : r ∈ t.marked
  · simp [state, hm]
  · by_cases hr : r ∈ t.ready <;> simp [state, hm, hr]

theorem state_enter : (t.enter region).state r = if region = r then .marked else t.state r := by
  by_cases he : region = r
  · simp [state, enter, he]
  · simp [state, enter, he, Ne.symm he]

theorem wordsIn_insert : ({ t with words := insert a t.words } : MarkedSet).wordsIn r =
    if t.region a = r then insert a (t.wordsIn r) else t.wordsIn r :=
  Finset.filter_insert _ _ _

theorem wordsIn_erase : ({ t with words := t.words.erase a } : MarkedSet).wordsIn r =
    (t.wordsIn r).erase a :=
  Finset.filter_erase _ _ _

/-- The region an operation is on. -/
def target (t : MarkedSet) : LivenessOperation → Option Nat
  | .mark a | .tryMark a | .clear a => some (t.region a)
  | .clearRange region | .reset region | .uncommit region => some region
  | .resetAll => none

variable {operation : LivenessOperation}

theorem perform_eq_ok {r : Option Bool × MarkedSet} : t.perform operation = .ok r ↔
    t.check operation = .ok () ∧ (t.answer operation, t.after operation) = r := by
  constructor
  · intro h
    obtain ⟨_, hc, hr⟩ := Checked.bind_eq_ok.mp h
    exact ⟨hc, Except.ok.inj hr⟩
  · rintro ⟨hc, rfl⟩
    rw [perform, hc]
    rfl

theorem aligned_of (h : Address.isWordAligned a = true) : a % 8 = 0 := by
  simpa [Address.isWordAligned, Address.bytesInWord] using h

theorem check_mark (h : t.check (.mark a) = .ok ()) :
    t.start ≤ a ∧ t.region a < t.regions ∧ a % 8 = 0 := by
  obtain ⟨region, hregion, haligned⟩ := Checked.bind_eq_ok.mp h
  obtain ⟨hstart, hlt, -⟩ := regionOf_eq_ok.mp hregion
  exact ⟨hstart, hlt, aligned_of (Fault.unless_eq_ok.mp haligned)⟩

theorem check_uncommit (h : t.check (.uncommit region) = .ok ()) :
    region < t.regions ∧ t.state region = .initialized := by
  obtain ⟨_, hlt, hfree⟩ := Checked.bind_eq_ok.mp h
  exact ⟨by simpa [checkRegion] using hlt, by simpa using hfree⟩

theorem Sound.after (h : t.Sound) (hc : t.check operation = .ok ()) : (t.after operation).Sound := by
  cases operation with
  | mark a | tryMark a =>
    obtain ⟨hstart, hlt, haligned⟩ := check_mark hc
    exact (h.enter hlt).insertWord hstart haligned (Finset.mem_insert_self _ _)
  | clear a => exact h.subset fun b hb => Finset.mem_of_mem_erase hb
  | clearRange region => exact h.subset fun b hb => Finset.mem_of_mem_filter b hb
  | reset region =>
    exact (h.subset fun b hb => Finset.mem_of_mem_filter b hb).unmark
      (wordsIn_without.trans (if_pos rfl))
  | resetAll => exact ⟨fun a ha => absurd ha (Finset.notMem_empty a),
      fun r hr => absurd hr (Finset.notMem_empty r), h.ready⟩
  | uncommit region =>
    exact h.uncommit (state_eq_initialized.mp (check_uncommit hc).2).1

theorem after_apart (h : t.target operation = some region) (hr : r ≠ region) :
    (t.after operation).wordsIn r = t.wordsIn r ∧ (t.after operation).state r = t.state r := by
  have hne : region ≠ r := Ne.symm hr
  cases operation with
  | mark a | tryMark a =>
    obtain rfl : t.region a = region := Option.some.inj h
    exact ⟨wordsIn_insert.trans (if_neg hne), state_enter.trans (if_neg hne)⟩
  | clear a =>
    obtain rfl : t.region a = region := Option.some.inj h
    exact ⟨wordsIn_erase.trans (Finset.erase_eq_of_notMem fun ha => hne (mem_wordsIn.mp ha).2), rfl⟩
  | clearRange i =>
    obtain rfl : i = region := Option.some.inj h
    exact ⟨wordsIn_without.trans (if_neg hne), rfl⟩
  | reset i =>
    obtain rfl : i = region := Option.some.inj h
    refine ⟨wordsIn_without.trans (if_neg hne), ?_⟩
    simp [after, without, state, hr]
  | resetAll => contradiction
  | uncommit i =>
    obtain rfl : i = region := Option.some.inj h
    refine ⟨rfl, ?_⟩
    simp [after, state, hr]

/-- A region that is not marked becomes marked only by an operation on it. -/
theorem after_unmarked (hm : region ∉ t.marked) (h : t.target operation ≠ some region) :
    region ∉ (t.after operation).marked := by
  cases operation with
  | mark a | tryMark a =>
    have hne : region ≠ t.region a := fun he => h (congrArg some he.symm)
    simp [after, enter, hne, hm]
  | clear a => exact hm
  | clearRange i => exact hm
  | reset i => exact fun hin => hm (Finset.mem_of_mem_erase hin)
  | resetAll => exact Finset.notMem_empty region
  | uncommit i => exact hm

theorem region_after : (t.after operation).region = t.region := by
  cases operation <;> rfl

theorem target_after (next : LivenessOperation) :
    (t.after operation).target next = t.target next := by
  cases next <;> simp only [target, region_after]

/-- What may be asked of a map in the middle of a program. -/
def Accepts (t : MarkedSet) : LivenessOperation → Prop
  | .mark a | .tryMark a | .clear a => t.start ≤ a ∧ t.region a < t.regions ∧ a % 8 = 0
  | .clearRange region | .reset region => region < t.regions
  | .resetAll => True
  | .uncommit region => region < t.regions ∧ t.state region = .initialized

theorem check_of (h : t.Accepts operation) : t.check operation = .ok () := by
  cases operation with
  | mark a | tryMark a | clear a =>
    obtain ⟨hstart, hlt, haligned⟩ := h
    simp [check, regionOf, checkBit, hstart, hlt, Address.isWordAligned, Address.bytesInWord,
      haligned]
  | clearRange region | reset region =>
    have hlt : region < t.regions := h
    simp [check, checkRegion, hlt]
  | resetAll => rfl
  | uncommit region =>
    obtain ⟨hlt, hstate⟩ := h
    simp [check, checkRegion, hlt, hstate]

/-- The regions of a set are separate: words lie in marked regions only, what is done to one region
does not concern another, and a region that gave its storage back starts afresh. -/
structure Separate (t : MarkedSet) : Prop where
  passes : ∀ operation, t.Accepts operation → ∃ r, t.perform operation = .ok r
  within : ∀ a ∈ t.words, t.region a ∈ t.marked
  apart : ∀ operation region r, t.perform operation = .ok r → t.target operation = some region →
    ∀ other, other ≠ region →
      r.2.wordsIn other = t.wordsIn other ∧ r.2.state other = t.state other
  renewed : ∀ region between a r₁ r₂ r₃, t.perform (.uncommit region) = .ok r₁ →
    (∀ operation ∈ between, t.target operation ≠ some region) →
    Checked.runAll perform r₁.2 between = .ok r₂ → t.region a = region →
    r₂.2.perform (.mark a) = .ok r₃ → r₃.1 = some false ∧ r₃.2.wordsIn region = {a}

/-- Until an operation on it, a region that is not marked holds no words. -/
theorem Sound.run_unmarked (h : t.Sound) (hm : region ∉ t.marked) {between : List LivenessOperation}
    (hb : ∀ operation ∈ between, t.target operation ≠ some region)
    {r : List (Option Bool) × MarkedSet} (hr : Checked.runAll perform t between = .ok r) :
    r.2.Sound ∧ region ∉ r.2.marked ∧ r.2.region = t.region := by
  refine Checked.runAll_of (fun t' => t'.Sound ∧ region ∉ t'.marked ∧ t'.region = t.region)
    (fun t' operation r' hop ⟨h', hm', hregion⟩ hp => ?_) ⟨h, hm, rfl⟩ hr
  obtain ⟨hc, rfl⟩ := perform_eq_ok.mp hp
  have htarget : t'.target operation = t.target operation := by
    cases operation <;> simp only [target, hregion]
  exact ⟨h'.after hc, after_unmarked hm' (htarget ▸ hb operation hop), region_after.trans hregion⟩

theorem Sound.separate (h : t.Sound) : t.Separate where
  passes operation ha := ⟨_, perform_eq_ok.mpr ⟨check_of ha, rfl⟩⟩
  within a ha := (h.words a ha).2.2
  apart operation region r hp htarget other hne := by
    obtain ⟨-, rfl⟩ := perform_eq_ok.mp hp
    exact after_apart htarget hne
  renewed region between a r₁ r₂ r₃ h₁ hb h₂ ha h₃ := by
    obtain ⟨hc, rfl⟩ := perform_eq_ok.mp h₁
    have hm : region ∉ (t.after (.uncommit region)).marked :=
      (state_eq_initialized.mp (check_uncommit hc).2).1
    obtain ⟨hs, hm₂, hregion⟩ := (h.after hc).run_unmarked hm
      (fun operation hop => by rw [target_after]; exact hb operation hop) h₂
    obtain ⟨-, rfl⟩ := perform_eq_ok.mp h₃
    have hat : r₂.2.region a = region := by
      rw [hregion, region_after, ha]
    have hempty := hs.wordsIn_of_unmarked hm₂
    have hnone : a ∉ r₂.2.words := fun hin =>
      Finset.notMem_empty a (hempty ▸ mem_wordsIn.mpr ⟨hin, hat⟩)
    refine ⟨by simp [answer, hnone], ?_⟩
    exact (wordsIn_insert.trans (if_pos hat)).trans (congrArg (insert a) hempty)

end MarkedSet

end RegionHeap
