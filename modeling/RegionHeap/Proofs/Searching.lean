import Mathlib.Data.Finset.Max
import RegionHeap.Proofs.LivenessSets

/-!
The search for marked words, and the walk over the objects of a region. Both go by whole words of
bits and skip regions that are not marked; what they find is the least marked word of a range.
-/
set_option autoImplicit false

namespace RegionHeap

namespace Word

theorem trailingZeros_of {w : Nat} (h : w ≠ 0) (hlt : w < limit) :
    trailingZeros w < 64 ∧ w.testBit (trailingZeros w) = true ∧
      ∀ j, j < trailingZeros w → w.testBit j = false := by
  obtain ⟨i, hi⟩ := Nat.exists_testBit_of_ne_zero h
  have hi64 : i < 64 := Nat.lt_of_not_le fun hle => by
    have hpow : limit ≤ 2 ^ i := Nat.pow_le_pow_right (show 0 < 2 by decide) hle
    rw [Nat.testBit_lt_two_pow (Nat.lt_of_lt_of_le hlt hpow)] at hi
    contradiction
  cases hf : (List.range 64).find? w.testBit with
  | none => exact absurd hi (List.find?_eq_none.mp hf i (List.mem_range.mpr hi64))
  | some j =>
    have hj : trailingZeros w = j := by rw [trailingZeros, hf, Option.getD_some]
    obtain ⟨hb, hmem, hlow⟩ := List.find?_range_eq_some.mp hf
    rw [hj]
    exact ⟨List.mem_range.mp hmem, hb, fun k hk => by simpa using hlow k hk⟩

theorem testBit_shiftLeft_ones {k j : Nat} (hj : j < 64) :
    (((limit - 1) <<< k) % limit).testBit j = decide (k ≤ j) := by
  rw [show limit = 2 ^ 64 by rfl, Nat.testBit_mod_two_pow, Nat.testBit_shiftLeft,
    Nat.testBit_two_pow_sub_one]
  simp [hj]
  omega

end Word

namespace Bitmap

variable {b : Bitmap} {start limit i k : Nat}

theorem next_eq (h : start ≤ i) (hl : i ≤ limit) (hget : i < limit → b.get i = true)
    (hnone : ∀ j, start ≤ j → j < i → b.get j = false) : b.next start limit = i := by
  have hsl := Nat.le_trans h hl
  refine Nat.le_antisymm (Nat.le_of_not_lt fun hlt => ?_) (Nat.le_of_not_lt fun hlt => ?_)
  · have := hget (Nat.lt_of_lt_of_le hlt (next_le b hsl))
    rw [not_get_of_lt_next hsl h hlt] at this
    contradiction
  · have := get_next hsl (Nat.lt_of_lt_of_le hlt hl)
    rw [hnone _ (le_next b hsl) hlt] at this
    contradiction

theorem next_eq_limit (h : start ≤ limit) (hnone : ∀ j, start ≤ j → j < limit → b.get j = false) :
    b.next start limit = limit :=
  next_eq h (Nat.le_refl _) (fun hlt => absurd hlt (Nat.lt_irrefl _)) hnone

theorem get_add {j : Nat} (hj : j < 64) : b.get (64 * k + j) = (b.word k).testBit j := by
  rw [get, show (64 * k + j) / 64 = k by omega, show (64 * k + j) % 64 = j by omega]

end Bitmap

namespace LivenessMap

variable {l : LivenessMap} {a region : Nat}

theorem regionStart_succ (l : LivenessMap) (region : Nat) :
    l.regionStart (region + 1) = l.regionStart region + l.regionBytes := by
  rw [regionStart, regionStart, Nat.succ_mul, Nat.add_assoc]

theorem regionStart_le_of_regionOf (h : l.regionOf a = .ok region) : l.regionStart region ≤ a := by
  obtain ⟨hstart, -, rfl⟩ := regionOf_eq_ok.mp h
  have := Nat.div_mul_le_self (a - l.start) l.regionBytes
  rw [regionStart]
  omega

end LivenessMap

namespace LivenessStorage.Stores

open Checked

variable {s : LivenessStorage} {l : LivenessMap} {a stop region first last index word : Nat}

theorem regionStart_eq (h : s.Stores l) (region : Nat) :
    s.regionStart region = l.regionStart region := by
  rw [LivenessStorage.regionStart, LivenessStorage.regionBytes, h.start, h.log]
  rfl

theorem regionStart_add (h : s.Stores l) (region : Nat) :
    s.regionStart region + s.regionBytes = l.regionStart (region + 1) := by
  rw [h.regionStart_eq, l.regionStart_succ, LivenessStorage.regionBytes, h.log]
  rfl

theorem div_regionStart (h : s.Stores l) (region : Nat) :
    (l.regionStart region - l.start) / l.regionBytes = region := by
  rw [LivenessMap.regionStart, Nat.add_sub_cancel_left, Nat.mul_div_cancel]
  rw [h.bytes]
  exact Nat.mul_pos (by decide) h.some

theorem wordAt_of (h : s.Stores l) (hr : region < l.slices.size)
    (hi : (l.sliceAt region).state.isInitialized = true) (hk : index < l.sliceWords) :
    s.wordAt region index = .ok ((l.sliceAt region).bits.word index) := by
  have hread := PagedMemory.read_of (h.word region hr hi index hk)
  rw [Nat.mul_comm] at hread
  simp [wordAt, h.wordsOf_eq, hk, hread]

/-- What is left of a word of bits at a position, when the bits before another are masked. -/
def Masked (b : Bitmap) (first index word : Nat) : Prop :=
  word < Word.limit ∧
    ∀ j, j < 64 → word.testBit j = (decide (first ≤ 64 * index + j) && b.get (64 * index + j))

/-- A scan that has passed no bit finds the next one. -/
theorem scanFrom_of (h : s.Stores l) (hr : region < l.slices.size)
    (hi : (l.sliceAt region).state.isInitialized = true) (hlast : last ≤ 64 * l.sliceWords)
    (hfl : first ≤ last) (hfi : first < 64 * (index + 1))
    (hpassed : ∀ j, first ≤ j → j < 64 * index → (l.sliceAt region).bits.get j = false)
    (hw : Masked (l.sliceAt region).bits first index word) :
    s.scanFrom region last index word =
      .ok (if (l.sliceAt region).bits.next first last < last then
        Option.some (s.regionStart region + 8 * (l.sliceAt region).bits.next first last)
      else none) := by
  obtain ⟨hword, hbits⟩ := hw
  -- the bits of the word at hand that are not masked
  have hget : ∀ j, first ≤ j → 64 * index ≤ j → j < 64 * (index + 1) →
      (l.sliceAt region).bits.get j = word.testBit (j - 64 * index) := fun j hj hlo hhi => by
    rw [hbits _ (by omega), show 64 * index + (j - 64 * index) = j by omega]
    simp [hj]
  -- by induction on the words of bits that are left
  induction index, word using LivenessStorage.scanFrom.induct last with
  | case1 index word hne =>
    obtain ⟨h64, hset, hlow⟩ := Word.trailingZeros_of hne hword
    have hfound := hbits _ h64
    rw [hset, eq_comm, Bool.and_eq_true, decide_eq_true_eq] at hfound
    have hnone : ∀ j, first ≤ j → j < 64 * index + Word.trailingZeros word →
        (l.sliceAt region).bits.get j = false := fun j hj hlt => by
      by_cases hlo : j < 64 * index
      · exact hpassed j hj hlo
      · rw [hget j hj (by omega) (by omega)]
        exact hlow _ (by omega)
    rw [scanFrom, if_pos hne, Nat.mul_comm index 64]
    dsimp only
    by_cases hbl : 64 * index + Word.trailingZeros word < last
    · rw [Bitmap.next_eq hfound.1 (Nat.le_of_lt hbl) (fun _ => hfound.2) hnone]
    · rw [Bitmap.next_eq_limit hfl fun j hj hlt => hnone j hj (by omega), if_neg hbl,
        if_neg (Nat.lt_irrefl _)]
  | case2 index word hzero hend =>
    obtain rfl : word = 0 := Decidable.not_not.mp hzero
    rw [scanFrom, if_neg hzero, if_pos hend, Bitmap.next_eq_limit hfl fun j hj hlt => ?_,
      if_neg (Nat.lt_irrefl _)]
    by_cases hlo : j < 64 * index
    · exact hpassed j hj hlo
    · rw [hget j hj (by omega) (by omega), Nat.zero_testBit]
  | case3 index word hzero hend ih =>
    obtain rfl : word = 0 := Decidable.not_not.mp hzero
    have hbounded := h.bounded region hr (index + 1)
    have hnext : ∀ j, j < 64 → ((l.sliceAt region).bits.word (index + 1)).testBit j =
        (decide (first ≤ 64 * (index + 1) + j) &&
          (l.sliceAt region).bits.get (64 * (index + 1) + j)) := fun j hj => by
      rw [Bitmap.get_add hj, decide_eq_true (by omega), Bool.true_and]
    rw [scanFrom, if_neg hzero, if_neg hend, h.wordAt_of hr hi (by omega), ok_bind]
    refine ih _ (by omega) (fun j hj hlt => ?_) hbounded hnext fun j hj hlo hhi => ?_
    · by_cases hlo : j < 64 * index
      · exact hpassed j hj hlo
      · rw [hget j hj (by omega) (by omega), Nat.zero_testBit]
    · rw [hnext _ (by omega), show 64 * (index + 1) + (j - 64 * (index + 1)) = j by omega]
      simp [hj]

theorem scan_eq (h : s.Stores l) (hr : region < l.slices.size)
    (hi : (l.sliceAt region).state.isInitialized = true) (ha : l.regionStart region ≤ a)
    (hlt : a < stop) (hstop : stop ≤ l.regionStart region + l.regionBytes) :
    s.scan region a stop = (do
      let last := (stop - l.regionStart region) / 8
      let bit := (l.sliceAt region).bits.next ((a - l.regionStart region) / 8) last
      return if bit < last then Option.some (l.regionStart region + 8 * bit) else none) := by
  have hbytes := h.bytes
  have hfirst := Address.wordsFrom_eq_ok.mpr ⟨ha, rfl⟩
  have hlast := Address.wordsFrom_eq_ok.mpr ⟨Nat.le_trans ha (Nat.le_of_lt hlt), rfl⟩
  generalize hf : (a - l.regionStart region) / 8 = first at *
  generalize hl : (stop - l.regionStart region) / 8 = last at *
  have hword : first / 64 < l.sliceWords := by omega
  have hwhole : last ≤ 64 * l.sliceWords := by omega
  have hle : first ≤ last := by omega
  have hwithin : first < 64 * (first / 64 + 1) := by omega
  have hmask : Word.shiftLeft (Word.limit - 1) (first % 64) =
      .ok (((Word.limit - 1) <<< (first % 64)) % Word.limit) :=
    if_pos (Nat.mod_lt _ (by decide))
  have hmasked : Masked (l.sliceAt region).bits first (first / 64)
      ((l.sliceAt region).bits.word (first / 64) &&&
        ((Word.limit - 1) <<< (first % 64)) % Word.limit) := by
    refine ⟨Nat.lt_of_le_of_lt Nat.and_le_left (h.bounded region hr _), fun j hj => ?_⟩
    have hiff : first % 64 ≤ j ↔ first ≤ 64 * (first / 64) + j := by omega
    rw [Nat.testBit_and, Word.testBit_shiftLeft_ones hj, Bitmap.get_add hj, Bool.and_comm,
      decide_eq_decide.mpr hiff]
  rw [scan, h.regionStart_eq, hfirst, ok_bind, hlast, ok_bind, hmask, ok_bind,
    h.wordAt_of hr hi hword, ok_bind, h.scanFrom_of hr hi hwhole hle hwithin
      (fun j hj hlt => by omega) hmasked, h.regionStart_eq]
  rfl

theorem nextInRegion (h : s.Stores l) (ha : l.regionStart region ≤ a) (hlt : a < stop)
    (hstop : stop ≤ l.regionStart region + l.regionBytes) :
    s.nextInRegion region a stop = l.nextInRegion region a stop := by
  refine Both.eq ?_
  rw [LivenessStorage.nextInRegion, LivenessStorage.isRegionMarked, bind_assoc]
  refine (h.slice region).bind fun state x _ hx => ?_
  obtain ⟨hr, rfl, rfl⟩ := hx
  rw [pure_eq, ok_bind]
  cases hm : (l.sliceAt region).state.isMarked with
  | false => exact .ok rfl
  | true =>
    have hi := LazyState.isInitialized_of_isMarked hm
    rw [if_neg (by simp), if_neg (by simp), h.scan_eq hr hi ha hlt hstop,
      decide_eq_true h.some, unless_true, ok_bind]
    exact .ok rfl

theorem nextFrom_eq (h : s.Stores l) {limit n : Nat}
    (hn : l.regions - (a - l.start) / l.regionBytes < n) :
    s.next a limit = l.nextFrom limit n a := by
  -- by induction on the regions that are left
  induction n generalizing a with
  | zero => exact absurd hn (Nat.not_lt_zero _)
  | succ n ih =>
    have hregionOf := h.regionOf_eq a
    rw [LivenessStorage.next, LivenessMap.nextFrom]
    split
    · rfl
    · next hlt =>
      split
      · next f hf =>
        rw [← hregionOf, hf]
        rfl
      · next region hregion =>
        have hend := lt_of_regionOf hregion
        rw [hregionOf] at hregion
        obtain ⟨hstart, hr, hdiv⟩ := LivenessMap.regionOf_eq_ok.mp hregion
        rw [h.regionStart_add] at hend ⊢
        have hleft : l.regions - (l.regionStart (region + 1) - l.start) / l.regionBytes < n := by
          rw [hdiv] at hn hr
          rw [h.div_regionStart]
          simp only [LivenessMap.regions] at hn ⊢
          omega
        have hfound := h.nextInRegion (LivenessMap.regionStart_le_of_regionOf hregion)
          (Nat.lt_min.mpr ⟨Nat.not_le.mp hlt, hend⟩)
          (l.regionStart_succ region ▸ Nat.min_le_right limit _)
        rw [hregion, ok_bind]
        dsimp only
        rw [hfound]
        refine bind_congr fun found => ?_
        cases found with
        | some found => rfl
        | none => exact ih hleft

theorem next (h : s.Stores l) (a limit : Nat) : s.next a limit = l.next a limit :=
  h.nextFrom_eq (Nat.lt_succ_of_le (Nat.sub_le _ _))

theorem walkFrom {σ : Type} (h : s.Stores l) (visit : σ → Nat → Checked (Nat × σ))
    (limit n cursor : Nat) (x : σ) :
    s.walkFrom visit limit n cursor x =
      LivenessMap.walkFrom (fun _ => l) visit limit n cursor x := by
  induction n generalizing cursor x with
  | zero => rfl
  | succ n ih => simp only [LivenessStorage.walkFrom, LivenessMap.walkFrom, h.next, ih]

theorem walk {σ : Type} (h : s.Stores l) (visit : σ → Nat → Checked (Nat × σ))
    (region limit : Nat) (x : σ) :
    s.walk visit region limit x = LivenessMap.walk (fun _ => l) visit region limit x := by
  simp only [LivenessStorage.walk, LivenessMap.walk, h.isRegionMarked, h.regionStart_eq, h.walkFrom]

end LivenessStorage.Stores

namespace MarkedSet

variable {t : MarkedSet} {a b start limit stop region : Nat}

/-- The least word of the set in a range, or the end of the range. -/
def next (t : MarkedSet) (start limit : Nat) : Nat :=
  (t.words.filter fun a => start ≤ a ∧ a < limit).min.untopD limit

theorem next_le (t : MarkedSet) (start limit : Nat) : t.next start limit ≤ limit := by
  rw [next]
  cases hm : (t.words.filter fun a => start ≤ a ∧ a < limit).min with
  | top => exact Nat.le_refl _
  | coe a => exact Nat.le_of_lt (Finset.mem_filter.mp (Finset.mem_of_min hm)).2.2

theorem next_mem (h : t.next start limit < limit) :
    start ≤ t.next start limit ∧ t.next start limit ∈ t.words := by
  rw [next] at h ⊢
  cases hm : (t.words.filter fun a => start ≤ a ∧ a < limit).min with
  | top =>
    rw [hm] at h
    exact absurd h (Nat.lt_irrefl _)
  | coe a =>
    have ha := Finset.mem_filter.mp (Finset.mem_of_min hm)
    exact ⟨ha.2.1, ha.1⟩

theorem not_mem_of_lt_next (hb : start ≤ b) (h : b < t.next start limit) : b ∉ t.words := by
  intro hmem
  have hlt := Nat.lt_of_lt_of_le h (t.next_le start limit)
  have hin : b ∈ t.words.filter fun a => start ≤ a ∧ a < limit :=
    Finset.mem_filter.mpr ⟨hmem, hb, hlt⟩
  rw [next] at h
  cases hm : (t.words.filter fun a => start ≤ a ∧ a < limit).min with
  | top => exact Finset.notMem_empty b (Finset.min_eq_top.mp hm ▸ hin)
  | coe a =>
    rw [hm] at h
    exact absurd (Finset.min_le_of_eq hin hm) (Nat.not_le.mpr h)

theorem next_eq (hl : a ≤ limit) (hin : a < limit → start ≤ a ∧ a ∈ t.words)
    (hnone : ∀ b, start ≤ b → b < a → b ∉ t.words) : t.next start limit = a := by
  refine Nat.le_antisymm (Nat.le_of_not_lt fun hlt => ?_) (Nat.le_of_not_lt fun hlt => ?_)
  · obtain ⟨hs, hmem⟩ := hin (Nat.lt_of_lt_of_le hlt (t.next_le start limit))
    exact not_mem_of_lt_next hs hlt hmem
  · obtain ⟨hs, hmem⟩ := next_mem (Nat.lt_of_lt_of_le hlt hl)
    exact hnone _ hs hlt hmem

theorem next_eq_limit (hnone : ∀ b, start ≤ b → b < limit → b ∉ t.words) :
    t.next start limit = limit :=
  next_eq (Nat.le_refl _) (fun hlt => absurd hlt (Nat.lt_irrefl _)) hnone

theorem next_skip (hle : start ≤ stop) (hnone : ∀ b, start ≤ b → b < min limit stop → b ∉ t.words) :
    t.next start limit = t.next stop limit := by
  refine next_eq (t.next_le stop limit) (fun hlt => ?_) fun b hs hlt => ?_
  · obtain ⟨hs, hmem⟩ := next_mem hlt
    exact ⟨Nat.le_trans hle hs, hmem⟩
  · by_cases hb : b < stop
    · have := t.next_le stop limit
      exact hnone b hs (by omega)
    · exact not_mem_of_lt_next (Nat.le_of_not_lt hb) hlt

theorem region_eq (hb : t.start + region * t.regionBytes ≤ a)
    (h : a < t.start + (region + 1) * t.regionBytes) : t.region a = region := by
  rw [MarkedSet.region]
  exact Nat.div_eq_of_lt_le (by omega) (by omega)

/-- The visits of a walk from a place on: each is to the least word of the set that lies no lower
than the end of the object at the one before. -/
inductive Visits {σ : Type} (t : MarkedSet) (visit : σ → Nat → Nat × σ) (limit : Nat) :
    Nat → σ → List Nat → σ → Prop where
  | done {cursor : Nat} {x : σ} : t.next cursor limit = limit → Visits t visit limit cursor x [] x
  | visit {cursor a words : Nat} {x x' x'' : σ} {as : List Nat} : t.next cursor limit = a →
    a < limit → visit x a = (words, x') → Visits t visit limit (a + 8 * words) x' as x'' →
    Visits t visit limit cursor x (a :: as) x''

theorem Visits.sorted {σ : Type} {visit : σ → Nat → Nat × σ} {cursor : Nat} {x x' : σ}
    {as : List Nat} (h : t.Visits visit limit cursor x as x')
    (hpos : ∀ x, ∀ a ∈ t.words, 0 < (visit x a).1) :
    as.Pairwise (· < ·) ∧ ∀ a ∈ as, cursor ≤ a := by
  induction h with
  | done => simp
  | @visit cursor a words x x' x'' as hnext hlt hvisit _ ih =>
    obtain ⟨hs, hmem⟩ := next_mem (hnext.symm ▸ hlt)
    rw [hnext] at hs hmem
    have hwords : 0 < words := by simpa [hvisit] using hpos x a hmem
    obtain ⟨hsorted, hlow⟩ := ih
    refine ⟨List.pairwise_cons.mpr ⟨fun b hb => ?_, hsorted⟩, fun b hb => ?_⟩
    · have := hlow b hb
      omega
    · obtain rfl | hb := List.mem_cons.mp hb
      · exact hs
      · have := hlow b hb
        omega

/-- The visits are determined by where the walk begins. -/
theorem Visits.unique {σ : Type} {visit : σ → Nat → Nat × σ} {cursor : Nat} {x x' y' : σ}
    {as bs : List Nat} (h : t.Visits visit limit cursor x as x')
    (h' : t.Visits visit limit cursor x bs y') : as = bs ∧ x' = y' := by
  induction h generalizing bs y' with
  | done hnext =>
    cases h' with
    | done => exact ⟨rfl, rfl⟩
    | visit hnext' hlt => omega
  | visit hnext hlt hvisit _ ih =>
    cases h' with
    | done hnext' => omega
    | visit hnext' _ hvisit' h' =>
      obtain rfl := hnext.symm.trans hnext'
      obtain ⟨rfl, rfl⟩ := Prod.mk.inj (hvisit.symm.trans hvisit')
      obtain ⟨rfl, rfl⟩ := ih h'
      exact ⟨rfl, rfl⟩

theorem run_bounds {operations : List LivenessOperation} {answers : List (Option Bool)}
    {t' : MarkedSet} (h : Checked.runAll perform t operations = .ok (answers, t')) :
    t'.start = t.start ∧ t'.regions = t.regions ∧ t'.regionBytes = t.regionBytes := by
  refine Checked.runAll_of (fun t' => t'.start = t.start ∧ t'.regions = t.regions ∧
    t'.regionBytes = t.regionBytes) (fun t₁ operation r _ hkept hp => ?_) ⟨rfl, rfl, rfl⟩ h
  obtain ⟨-, rfl⟩ := perform_eq_ok.mp hp
  cases operation <;> exact hkept

end MarkedSet

namespace LivenessMap.Denotes

open Checked

variable {l : LivenessMap} {t : MarkedSet} {a limit stop region : Nat}

theorem regionStart_eq (h : l.Denotes t) (region : Nat) :
    l.regionStart region = t.start + region * t.regionBytes := by
  rw [LivenessMap.regionStart, h.start, h.bytes]

theorem regionStart_mod (h : l.Denotes t) (hw : t.start % 8 = 0) (region : Nat) :
    l.regionStart region % 8 = 0 := by
  have hbytes : 8 ∣ region * t.regionBytes :=
    Dvd.dvd.mul_left (h.whole ▸ Dvd.dvd.mul_right (by decide) _) _
  rw [h.regionStart_eq]
  omega

theorem regionBytes_pos (h : l.Denotes t) : 0 < t.regionBytes := by
  rw [h.whole]
  exact Nat.mul_pos (by decide) h.some

theorem region_bounds (h : l.Denotes t) (hs : t.start ≤ a) :
    l.regionStart (t.region a) ≤ a ∧ a < l.regionStart (t.region a + 1) := by
  have hle := Nat.div_mul_le_self (a - t.start) t.regionBytes
  have hlt := Nat.lt_div_mul_add (a := a - t.start) h.regionBytes_pos
  rw [h.regionStart_eq, h.regionStart_eq, Nat.succ_mul, MarkedSet.region]
  omega

theorem get_word (h : l.Denotes t) (hr : region < t.regions) (hb : l.regionStart region ≤ a)
    (hlt : a < l.regionStart (region + 1)) (ha : a % 8 = 0) :
    (l.sliceAt region).bits.get ((a - l.regionStart region) / 8) = decide (a ∈ t.words) := by
  rw [h.regionStart_eq] at hb hlt
  have hregion := MarkedSet.region_eq hb hlt
  have hget := h.get_position (a := a) (by omega) (hregion.symm ▸ hr) ha
  rwa [MarkedSet.position, hregion, ← h.regionStart_eq] at hget

theorem not_mem_of_unmarked (h : l.Denotes t) (hm : region ∉ t.marked)
    (hb : l.regionStart region ≤ a) (hlt : a < l.regionStart (region + 1)) : a ∉ t.words := by
  intro ha
  rw [h.regionStart_eq] at hb hlt
  exact hm (MarkedSet.region_eq hb hlt ▸ (h.sound.words a ha).2.2)

theorem next_bit (h : l.Denotes t) (hw : t.start % 8 = 0) (hr : region < t.regions)
    (hb : l.regionStart region ≤ a) (hle : a ≤ stop)
    (hstop : stop ≤ l.regionStart (region + 1)) (ha : a % 8 = 0) (hs : stop % 8 = 0) :
    (l.sliceAt region).bits.next ((a - l.regionStart region) / 8)
      ((stop - l.regionStart region) / 8) = (t.next a stop - l.regionStart region) / 8 := by
  have hbottom := h.regionStart_mod hw region
  have hlast := t.next_le a stop
  have hlow : a ≤ t.next a stop := by
    rcases Nat.lt_or_ge (t.next a stop) stop with hlt | hge
    · exact (MarkedSet.next_mem hlt).1
    · exact Nat.le_trans hle hge
  refine Bitmap.next_eq (by omega) (by omega) (fun hlt => ?_) fun j hj hlt => ?_
  · have hmem := (MarkedSet.next_mem (show t.next a stop < stop by omega)).2
    rw [h.get_word hr (by omega) (by omega) (h.sound.words _ hmem).2.1, decide_eq_true hmem]
  · have hbelow : l.regionStart region + 8 * j < t.next a stop := by omega
    have hword := h.get_word hr (Nat.le_add_right _ (8 * j)) (by omega) (by omega)
    rw [Nat.add_sub_cancel_left, Nat.mul_div_cancel_left j (by decide)] at hword
    rw [hword, decide_eq_false (MarkedSet.not_mem_of_lt_next (by omega) hbelow)]

theorem nextInRegion (h : l.Denotes t) (hw : t.start % 8 = 0) (hr : region < t.regions)
    (hb : l.regionStart region ≤ a) (hle : a ≤ stop)
    (hstop : stop ≤ l.regionStart (region + 1)) (ha : a % 8 = 0) (hs : stop % 8 = 0) :
    l.nextInRegion region a stop =
      .ok (if t.next a stop < stop then Option.some (t.next a stop) else none) := by
  have hslice : l.slice region = .ok (l.sliceAt region) := Table.get_of_lt (h.size ▸ hr)
  have hbottom := h.regionStart_mod hw region
  have hlast := t.next_le a stop
  rw [LivenessMap.nextInRegion, hslice, ok_bind, h.state region hr, MarkedSet.isMarked_state]
  by_cases hm : region ∈ t.marked
  · rw [if_neg (by simp [hm]), decide_eq_true h.some, unless_true, ok_bind]
    dsimp only
    rw [h.next_bit hw hr hb hle hstop ha hs]
    by_cases hlt : t.next a stop < stop
    · obtain ⟨hlow, hmem⟩ := MarkedSet.next_mem hlt
      have haligned := (h.sound.words _ hmem).2.1
      have hback : l.regionStart region + 8 * ((t.next a stop - l.regionStart region) / 8) =
          t.next a stop := by omega
      rw [if_pos hlt, hback, if_pos (by omega), pure_eq]
    · rw [if_neg hlt, if_neg (by omega), pure_eq]
  · have hnone : t.next a stop = stop :=
      MarkedSet.next_eq_limit fun b hb' hlt => h.not_mem_of_unmarked hm (by omega) (by omega)
    rw [if_pos (by simp [hm]), if_neg (by omega), pure_eq]

theorem nextFrom_eq (h : l.Denotes t) (hw : t.start % 8 = 0) {n : Nat} (hs : t.start ≤ a)
    (ha : a % 8 = 0) (hl : limit % 8 = 0) (hin : limit ≤ t.start + t.regions * t.regionBytes)
    (hn : t.regions - t.region a < n) : l.nextFrom limit n a = .ok (t.next a limit) := by
  -- by induction on the regions that are left
  induction n generalizing a with
  | zero => exact absurd hn (Nat.not_lt_zero _)
  | succ n ih =>
    rw [LivenessMap.nextFrom]
    by_cases hla : limit ≤ a
    · rw [if_pos hla, MarkedSet.next_eq_limit fun b hb hlt =>
        absurd hlt (Nat.not_lt.mpr (Nat.le_trans hla hb))]
      rfl
    · have hpos := h.regionBytes_pos
      have hr : t.region a < t.regions := (Nat.div_lt_iff_lt_mul hpos).mpr (by omega)
      have hregion : l.regionOf a = .ok (t.region a) :=
        (h.regionOf_eq a).trans (MarkedSet.regionOf_eq_ok.mpr ⟨hs, hr, rfl⟩)
      obtain ⟨hb, hend⟩ := h.region_bounds hs
      have hmod := h.regionStart_mod hw (t.region a + 1)
      have hnext : t.region (l.regionStart (t.region a + 1)) = t.region a + 1 := by
        rw [h.regionStart_eq, MarkedSet.region, Nat.add_sub_cancel_left, Nat.mul_div_cancel _ hpos]
      have hle := t.next_le a (min limit (l.regionStart (t.region a + 1)))
      rw [if_neg hla, hregion, ok_bind]
      dsimp only
      rw [h.nextInRegion hw hr hb (Nat.le_of_lt (Nat.lt_min.mpr ⟨Nat.not_le.mp hla, hend⟩))
        (Nat.min_le_right _ _) ha (by omega), ok_bind]
      by_cases hlt : t.next a (min limit (l.regionStart (t.region a + 1))) <
          min limit (l.regionStart (t.region a + 1))
      · have hsame : t.next a limit = t.next a (min limit (l.regionStart (t.region a + 1))) :=
          MarkedSet.next_eq (by omega) (fun _ => MarkedSet.next_mem hlt)
            fun b => MarkedSet.not_mem_of_lt_next
        rw [if_pos hlt, hsame]
        rfl
      · rw [if_neg hlt, MarkedSet.next_skip (Nat.le_of_lt hend) fun b hb hlt' =>
          MarkedSet.not_mem_of_lt_next hb (Nat.lt_of_lt_of_le hlt' (Nat.le_of_not_lt hlt))]
        exact ih (by rw [h.regionStart_eq]; omega) hmod (by rw [hnext]; omega)

theorem next (h : l.Denotes t) (hw : t.start % 8 = 0) (hs : t.start ≤ a) (ha : a % 8 = 0)
    (hl : limit % 8 = 0) (hin : limit ≤ t.start + t.regions * t.regionBytes) :
    l.next a limit = .ok (t.next a limit) := by
  refine h.nextFrom_eq hw hs ha hl hin ?_
  rw [LivenessMap.regions, h.size]
  exact Nat.lt_succ_of_le (Nat.sub_le _ _)

section Walk

variable {σ : Type} {visit : σ → Nat → Nat × σ}

theorem walkFrom_of (h : l.Denotes t) (hw : t.start % 8 = 0) (hl : limit % 8 = 0)
    (hin : limit ≤ t.start + t.regions * t.regionBytes)
    (hsize : ∀ x, ∀ a ∈ t.words, 0 < (visit x a).1 ∧ a + 8 * (visit x a).1 < Word.limit)
    {n cursor : Nat} {x : σ} (hs : t.start ≤ cursor) (hc : cursor % 8 = 0)
    (hn : limit - cursor < n) :
    ∃ as x', t.Visits visit limit cursor x as x' ∧
      walkFrom (fun _ => l) (fun x a => .ok (visit x a)) limit n cursor x = .ok x' := by
  -- by induction on the steps that are left: an object moves the cursor up
  induction n generalizing cursor x with
  | zero => exact absurd hn (Nat.not_lt_zero _)
  | succ n ih =>
    rw [walkFrom, h.next hw hs hc hl hin, ok_bind]
    by_cases hlt : t.next cursor limit < limit
    · obtain ⟨hlow, hmem⟩ := MarkedSet.next_mem hlt
      obtain ⟨hpos, hend⟩ := hsize x _ hmem
      obtain ⟨hfirst, haligned, -⟩ := h.sound.words _ hmem
      generalize hfound : t.next cursor limit = found at *
      rcases hvisit : visit x found with ⟨words, y⟩
      rw [hvisit] at hpos hend
      have hadd : Address.addWords found words = .ok (found + 8 * words) :=
        Address.addWords_of (by omega)
      obtain ⟨as, x', hvisits, hwalk⟩ :=
        ih (x := y) (show t.start ≤ found + 8 * words by omega) (by omega) (by omega)
      refine ⟨found :: as, x', .visit hfound hlt hvisit hvisits, ?_⟩
      rw [if_neg (Nat.not_le.mpr hlt), ok_bind]
      dsimp only
      rw [decide_eq_true hpos, unless_true, ok_bind, hadd, ok_bind, hwalk]
    · have hnone := Nat.le_antisymm (t.next_le cursor limit) (Nat.le_of_not_lt hlt)
      exact ⟨[], x, .done hnone, by rw [if_pos (Nat.le_of_not_lt hlt), pure_eq]⟩

/-- A walk over a region visits what the set has there. -/
theorem walk_of (h : l.Denotes t) (hw : t.start % 8 = 0) (hr : region < t.regions)
    (hl : limit % 8 = 0) (hin : limit ≤ t.start + (region + 1) * t.regionBytes)
    (hsize : ∀ x, ∀ a ∈ t.words, 0 < (visit x a).1 ∧ a + 8 * (visit x a).1 < Word.limit) (x : σ) :
    ∃ as x', t.Visits visit limit (t.start + region * t.regionBytes) x as x' ∧
      walk (fun _ => l) (fun x a => .ok (visit x a)) region limit x = .ok x' := by
  have hslice : l.slice region = .ok (l.sliceAt region) := Table.get_of_lt (h.size ▸ hr)
  have hwithin : limit ≤ t.start + t.regions * t.regionBytes :=
    Nat.le_trans hin (Nat.add_le_add_left (Nat.mul_le_mul_right _ hr) _)
  rw [walk, LivenessMap.isRegionMarked, hslice, ok_bind, h.state region hr,
    MarkedSet.isMarked_state, pure_eq, ok_bind]
  by_cases hm : region ∈ t.marked
  · rw [if_neg (by simp [hm]), ← h.regionStart_eq]
    exact h.walkFrom_of hw hl hwithin hsize (by rw [h.regionStart_eq]; omega)
      (h.regionStart_mod hw region) (Nat.lt_succ_self _)
  · refine ⟨[], x, .done (MarkedSet.next_eq_limit fun b hb hlt => ?_), ?_⟩
    · rw [← h.regionStart_eq] at hin hb
      exact h.not_mem_of_unmarked hm hb (Nat.lt_of_lt_of_le hlt hin)
    · rw [if_pos (by simp [hm]), pure_eq]

end Walk

end LivenessMap.Denotes

namespace LivenessMap

open Checked

variable {l : LivenessMap}

/-- Whatever was marked and cleared before, a search finds the least marked word of its range, and a
walk over a region visits the least marked word of the region and then, again and again, the least
one behind the object just visited. The storage is searched by words of bits with the same results.
A heap starts at a word. -/
theorem search_as_marked_set {system : Mapping.System} {start regions regionBytes : Nat}
    (hbytes : 512 ≤ regionBytes) (hstart : start % 8 = 0)
    (hc : create system start regions regionBytes = .ok l)
    (operations : List LivenessOperation) {answers : List (Option Bool)} {l' : LivenessMap}
    (hrun : runAll LivenessMap.perform l operations = .ok (answers, l')) :
    ∃ t s s', runAll MarkedSet.perform { start, regions, regionBytes } operations =
        .ok (answers, t) ∧
      LivenessStorage.create system start regions regionBytes = .ok s ∧
      runAll LivenessStorage.perform s operations = .ok (answers, s') ∧
      (∀ a limit, start ≤ a → a % 8 = 0 → limit % 8 = 0 → limit ≤ start + regions * regionBytes →
        s'.next a limit = .ok (t.next a limit) ∧ l'.next a limit = .ok (t.next a limit)) ∧
      ∀ region limit, region < regions → limit % 8 = 0 →
        limit ≤ start + (region + 1) * regionBytes →
        ∀ (σ : Type) (visit : σ → Nat → Nat × σ),
          (∀ x, ∀ a ∈ t.words, 0 < (visit x a).1 ∧ a + 8 * (visit x a).1 < Word.limit) →
          ∀ x, ∃ as x', t.Visits visit limit (start + region * regionBytes) x as x' ∧
            as.Pairwise (· < ·) ∧
            s'.walk (fun x a => .ok (visit x a)) region limit x = .ok x' ∧
            walk (fun _ => l') (fun x a => .ok (visit x a)) region limit x = .ok x' := by
  have hdenotes := denotes_of_create hbytes hc
  have hset := Both.runAll (R := Denotes) (fun _ _ operation h => h.perform operation) hdenotes
    operations
  rw [hrun] at hset
  obtain ⟨⟨_, t⟩, ht, rfl, h⟩ := hset.passes
  obtain ⟨hs, hn, hb⟩ := MarkedSet.run_bounds ht
  have hcreate := LivenessStorage.create_stores system start regions hbytes
  rw [hc] at hcreate
  obtain ⟨s, hs₀, hstores, -⟩ := hcreate.passes_left
  have hstorage := Both.runAll (R := LivenessStorage.Stores)
    (fun _ _ operation h => h.perform operation) hstores operations
  rw [hrun] at hstorage
  obtain ⟨⟨_, s'⟩, hs', rfl, h'⟩ := hstorage.passes_left
  dsimp only at hs hn hb h h'
  rw [← hs] at hstart
  refine ⟨t, s, s', ht, hs₀, hs', fun a limit ha haligned hl hin => ?_,
    fun region limit hr hl hin σ visit hsize x => ?_⟩
  · rw [h'.next]
    have hnext := h.next hstart (hs ▸ ha) haligned hl (by rw [hs, hn, hb]; exact hin)
    exact ⟨hnext, hnext⟩
  · obtain ⟨as, x', hvisits, hwalk⟩ :=
      h.walk_of hstart (hn ▸ hr) hl (by rw [hs, hb]; exact hin) hsize x
    rw [hs, hb] at hvisits
    refine ⟨as, x', hvisits, (hvisits.sorted fun x a ha => (hsize x a ha).1).1, ?_, hwalk⟩
    rw [h'.walk, hwalk]

/-- A search that passes a region without marks, and a walk that skips what lies inside an object
and ends with one that reaches beyond its region. -/
theorem search_sample :
    ∃ l l', create ⟨fun _ _ => .ok 0x7ffff7a1d000, fun _ _ => .ok ()⟩ (1 <<< 46) 3 1024 = .ok l ∧
      runAll LivenessMap.perform l [.mark (1 <<< 46), .mark (1 <<< 46 + 16), .mark (1 <<< 46 + 800),
        .mark (1 <<< 46 + 1016), .mark (1 <<< 46 + 2056)] =
        .ok (List.replicate 5 (some false), l') ∧
      l'.next (1 <<< 46 + 1024) (1 <<< 46 + 3072) = .ok (1 <<< 46 + 2056) ∧
      l'.next (1 <<< 46 + 2064) (1 <<< 46 + 3072) = .ok (1 <<< 46 + 3072) ∧
      walk (fun _ => l') (fun seen a => .ok (4, seen ++ [a])) 0 (1 <<< 46 + 1024) [] =
        .ok [1 <<< 46, 1 <<< 46 + 800, 1 <<< 46 + 1016] := by
  obtain ⟨l, hl⟩ : ∃ l, create ⟨fun _ _ => .ok 0x7ffff7a1d000, fun _ _ => .ok ()⟩ (1 <<< 46) 3
      1024 = .ok l := ⟨_, rfl⟩
  obtain ⟨l', hrun⟩ : ∃ l', runAll LivenessMap.perform l [.mark (1 <<< 46), .mark (1 <<< 46 + 16),
      .mark (1 <<< 46 + 800), .mark (1 <<< 46 + 1016), .mark (1 <<< 46 + 2056)] =
      .ok (List.replicate 5 (some false), l') := by
    obtain rfl := Except.ok.inj hl
    exact ⟨_, rfl⟩
  obtain ⟨t, s, s', ht, -, -, hnext, hwalk⟩ :=
    search_as_marked_set (by decide) (by decide) hl _ hrun
  have hset := (Prod.mk.inj (Except.ok.inj ht)).2
  have hsize : ∀ a ∈ t.words, a + 8 * 4 < Word.limit := hset ▸ by decide
  obtain rfl := hset
  refine ⟨l, l', hl, hrun, ?_, ?_, ?_⟩
  · exact (hnext (1 <<< 46 + 1024) (1 <<< 46 + 3072) (by decide) (by decide) (by decide)
      (by decide)).2
  · exact (hnext (1 <<< 46 + 2064) (1 <<< 46 + 3072) (by decide) (by decide) (by decide)
      (by decide)).2
  · obtain ⟨as, x', hvisits, -, -, hx⟩ := hwalk 0 (1 <<< 46 + 1024) (by decide) (by decide)
      (by decide) (List Nat) (fun seen a => (4, seen ++ [a]))
      (fun _ a ha => ⟨show 0 < 4 by decide, hsize a ha⟩) []
    rw [hx, (hvisits.unique (.visit rfl (by decide) rfl (.visit rfl (by decide) rfl
      (.visit rfl (by decide) rfl (.done rfl))))).2]
    rfl

end LivenessMap

end RegionHeap
