import Mathlib.Data.Nat.Bitwise
import RegionHeap.LivenessStorage
import RegionHeap.Proofs.Lockstep
import RegionHeap.Proofs.Marks

/-!
The storage of a liveness map holds the bits of its slices. The bits of each region have words of
their own, which are there exactly while the slice is ready.
-/
set_option autoImplicit false

namespace RegionHeap

namespace PagedMemory

variable {m : PagedMemory} {a start count : Nat}

theorem read_of {w : Nat} (h : m.words a = some w) : m.read a = .ok w := by
  simp [read, h]

theorem write_of {w : Nat} (h : m.words a = some w) (v : Nat) :
    m.write a v = .ok ⟨fun b => if b = a then some v else m.words b⟩ := by
  simp [write, read, h]

theorem write_same {w : Nat} (h : m.read a = .ok w) : m.write a w = .ok m := by
  have hw : m.words a = some w := by
    rw [read] at h
    split at h
    · next hw => rw [hw, Except.ok.inj h]
    · contradiction
  rw [write_of hw]
  refine congrArg (fun words => Except.ok (PagedMemory.mk words)) (funext fun b => ?_)
  split
  · next hb => rw [hb, hw]
  · rfl

theorem zero_of (h : ∀ k, k < count → ∃ w, m.words (start + 8 * k) = some w) :
    ∃ m', m.zero start count = .ok m' ∧ (∀ k, k < count → m'.words (start + 8 * k) = some 0) ∧
      ∀ b, (∀ k, k < count → b ≠ start + 8 * k) → m'.words b = m.words b := by
  refine (Checked.foldlM_range_of (fun n m' =>
    (∀ k, k < n → m'.words (start + 8 * k) = some 0) ∧
      ∀ b, (∀ k, k < n → b ≠ start + 8 * k) → m'.words b = m.words b) ?_ m ⟨?_, ?_⟩)
  · intro n m' hn hm'
    obtain ⟨w, hw⟩ := h n hn
    have hthere : m'.words (start + 8 * n) = some w := by
      rw [hm'.2 _ fun k hk => by omega, hw]
    refine ⟨_, write_of hthere 0, fun k hk => ?_, fun b hb => ?_⟩
    · by_cases hkn : k = n
      · simp [hkn]
      · simp [hm'.1 k (by omega)]
    · simp [hb n (by omega), hm'.2 b fun k hk => hb k (by omega)]
  · simp
  · simp

end PagedMemory

namespace Bitmap

variable {w k : Nat}

theorem and_mask (w k : Nat) : (w &&& 1 <<< k != 0) = w.testBit k := by
  rw [Nat.one_shiftLeft, Nat.and_two_pow]
  cases w.testBit k <;> simp

theorem or_mask (h : w.testBit k = true) : w ||| 1 <<< k = w := by
  refine Nat.eq_of_testBit_eq fun j => ?_
  rw [Nat.testBit_or, testBit_one_shiftLeft]
  by_cases hj : k = j
  · simp [← hj, h]
  · simp [hj]

theorem and_complement (hw : w < Word.limit) (hk : k < 64) : w &&& Word.complement (1 <<< k) =
    if w.testBit k then w ^^^ 1 <<< k else w := by
  have hmask : 1 <<< k < 2 ^ 64 := by
    rw [Nat.one_shiftLeft]
    exact Nat.pow_lt_pow_right (by omega) hk
  have hcomplement : Word.complement (1 <<< k) = 2 ^ 64 - (1 <<< k + 1) := by
    simp only [Word.complement, Word.limit]
    omega
  have hbits : w < 2 ^ 64 := by
    simp only [Word.limit] at hw
    omega
  refine Nat.eq_of_testBit_eq fun j => ?_
  have hxor : (w ^^^ 1 <<< k).testBit j = (w.testBit j ^^ decide (k = j)) := by
    rw [Nat.testBit_xor, testBit_one_shiftLeft]
  rw [hcomplement, Nat.testBit_and, Nat.testBit_two_pow_sub_succ hmask, testBit_one_shiftLeft,
    apply_ite (Nat.testBit · j), hxor]
  by_cases hj : j < 64
  · by_cases hkj : k = j
    · subst hkj
      cases hb : w.testBit k <;> simp
    · simp [hkj, hj]
  · have hhigh : w.testBit j = false :=
      Nat.testBit_lt_two_pow (Nat.lt_of_lt_of_le hbits (Nat.pow_le_pow_right (by omega) (by omega)))
    have hkj : k ≠ j := by omega
    simp [hhigh, hkj]

theorem word_lt_insert {b : Bitmap} {i : Nat} (h : ∀ j, b.word j < Word.limit) :
    b.word (i / 64) ||| 1 <<< (i % 64) < Word.limit := by
  have hmask : 1 <<< (i % 64) < 2 ^ 64 := by
    rw [Nat.one_shiftLeft]
    exact Nat.pow_lt_pow_right (by omega) (Nat.mod_lt _ (by omega))
  exact Nat.or_lt_two_pow (h _) hmask

theorem erase_eq_write {b : Bitmap} (i : Nat) (h : ∀ j, b.word j < Word.limit) : b.erase i =
    ⟨b.words.write (i / 64) (b.word (i / 64) &&& Word.complement (1 <<< (i % 64)))⟩ := by
  rw [and_complement (h _) (Nat.mod_lt i (by omega)), erase]
  split
  · rfl
  · refine congrArg Bitmap.mk (Memory.ext fun j => ?_)
    rw [Memory.read_write]
    split
    · next hj => rw [← hj, word]
    · rfl

end Bitmap

namespace LivenessMap

theorem regionOf_eq_ok {l : LivenessMap} {a region : Nat} : l.regionOf a = .ok region ↔
    l.start ≤ a ∧ (a - l.start) / l.regionBytes < l.slices.size ∧
      (a - l.start) / l.regionBytes = region := by
  simp [regionOf, Checked.bind_eq_ok, show l.regions = l.slices.size from rfl]

end LivenessMap

theorem LazyState.isInitialized_of_isMarked {state : LazyState} (h : state.isMarked = true) :
    state.isInitialized = true := by
  cases state <;> simp_all [isMarked, isInitialized]

namespace LivenessStorage

open Checked

/-- It makes no difference that a bit is looked at before it is set. -/
theorem tryMark_eq (s : LivenessStorage) (a : Nat) :
    s.tryMark a = (do let (before, s') ← s.mark a; return (!before, s')) := by
  simp only [tryMark, mark, bind_assoc]
  refine bind_congr fun region => bind_congr fun s' => ?_
  cases ha : Address.isWordAligned a with
  | false =>
    rw [bit, ha]
    rfl
  | true =>
    simp only [bit, ha, unless_true, ok_bind, pure_eq]
    generalize s'.storageOf region + (a - s'.regionStart region) / 8 / 64 * 8 = word
    generalize (a - s'.regionStart region) / 8 % 64 = k
    cases hread : s'.memory.read word with
    | error f => rfl
    | ok old =>
      simp only [ok_bind, Bitmap.and_mask]
      cases hb : old.testBit k with
      | true =>
        simp [Bitmap.or_mask hb, PagedMemory.write_same hread]
      | false =>
        have hclear : (old &&& 1 <<< k == 0) = true := by
          simpa [bne, hb] using Bitmap.and_mask old k
        simp [hclear]

/-- The slices of a map are stored one beside the other. -/
structure Stores (s : LivenessStorage) (l : LivenessMap) : Prop where
  start : s.start = l.start
  log : s.logRegionBytes = l.logRegionBytes
  size : s.states.size = l.slices.size
  committed : s.committed = l.committed
  bytes : l.regionBytes = 512 * l.sliceWords
  some : 0 < l.sliceWords
  room : 8 * l.sliceWords ≤ s.sliceBytes
  state : ∀ r, r < l.slices.size → Table.entry s.states r = (l.sliceAt r).state
  ready : ∀ r, r < l.slices.size → (l.sliceAt r).state ≠ .initializing
  word : ∀ r, r < l.slices.size → (l.sliceAt r).state.isInitialized = true →
    ∀ k, k < l.sliceWords → s.memory.words (s.storageOf r + 8 * k) =
      Option.some ((l.sliceAt r).bits.word k)
  bounded : ∀ r, r < l.slices.size → ∀ k, (l.sliceAt r).bits.word k < Word.limit

variable {s : LivenessStorage} {l : LivenessMap} {a r r' k region : Nat}

namespace Stores

theorem regionOf_eq (h : s.Stores l) (a : Nat) : s.regionOf a = l.regionOf a := by
  rw [LivenessStorage.regionOf, LivenessMap.regionOf, LivenessStorage.regionBytes, h.start, h.log,
    h.size]
  rfl

theorem wordsOf_eq (h : s.Stores l) : s.wordsOf = l.sliceWords := by
  rw [wordsOf, LivenessStorage.regionBytes, h.log]
  rfl

theorem outside (h : s.Stores l) (hr : r ≠ r') (hk : k < l.sliceWords) :
    ¬(s.storageOf r' ≤ s.storageOf r + 8 * k ∧
      s.storageOf r + 8 * k < s.storageOf r' + s.sliceBytes) := by
  have hroom := h.room
  simp only [storageOf]
  rcases Nat.lt_or_gt_of_ne hr with hlt | hlt
  · have hle := Nat.mul_le_mul_right s.sliceBytes (Nat.succ_le_of_lt hlt)
    rw [Nat.succ_mul] at hle
    omega
  · have hle := Nat.mul_le_mul_right s.sliceBytes (Nat.succ_le_of_lt hlt)
    rw [Nat.succ_mul] at hle
    omega

theorem bit_lt (h : s.Stores l) (hr : l.regionOf a = .ok region) :
    region < l.slices.size ∧ (a - l.regionStart region) / 8 / 64 < l.sliceWords := by
  obtain ⟨-, hlt, rfl⟩ := LivenessMap.regionOf_eq_ok.mp hr
  have hpos := h.some
  have hmod := Nat.mod_lt (a - l.start) (show 0 < l.regionBytes by rw [h.bytes]; omega)
  have hbytes := h.bytes
  refine ⟨hlt, ?_⟩
  rw [LivenessMap.regionStart, ← Nat.sub_sub, ← Nat.mod_eq_sub_div_mul]
  omega

/-- A slice is replaced, and with it the words that store it. -/
theorem replace (h : s.Stores l) (hr : region < l.slices.size) {slice : LivenessSlice}
    {states : Array LazyState} {memory : PagedMemory} {n n' : Nat}
    (hsize : states.size = s.states.size)
    (hstates : ∀ r, r < l.slices.size →
      Table.entry states r = if region = r then slice.state else Table.entry s.states r)
    (hothers : ∀ r, r < l.slices.size → region ≠ r → ∀ k, k < l.sliceWords →
      memory.words (s.storageOf r + 8 * k) = s.memory.words (s.storageOf r + 8 * k))
    (hready : slice.state ≠ .initializing)
    (hword : slice.state.isInitialized = true → ∀ k, k < l.sliceWords →
      memory.words (s.storageOf region + 8 * k) = Option.some (slice.bits.word k))
    (hbounded : ∀ k, slice.bits.word k < Word.limit) (hn : n = n') :
    ({ s with states := states, memory := memory, committed := n } : LivenessStorage).Stores
      { l.setSlice region slice with committed := n' } := by
  have hat : ∀ r, LivenessMap.sliceAt { l.setSlice region slice with committed := n' } r =
      if region = r then slice else l.sliceAt r := LivenessMap.sliceAt_setSlice hr slice
  have hslices : (l.setSlice region slice).slices.size = l.slices.size := by
    simp [LivenessMap.setSlice]
  exact {
    start := h.start
    log := h.log
    size := by rw [hslices, ← h.size, ← hsize]
    committed := hn
    bytes := h.bytes
    some := h.some
    room := h.room
    state := fun r hlt => by
      rw [hslices] at hlt
      rw [hstates r hlt, hat, h.state r hlt, apply_ite LivenessSlice.state]
    ready := fun r hlt => by
      rw [hslices] at hlt
      rw [hat]
      split
      · exact hready
      · exact h.ready r hlt
    word := fun r hlt hi k hk => by
      rw [hslices] at hlt
      rw [hat] at hi ⊢
      by_cases he : region = r
      · subst he
        rw [if_pos rfl] at hi ⊢
        exact hword hi k hk
      · rw [if_neg he] at hi ⊢
        rw [← h.word r hlt hi k hk]
        exact hothers r hlt he k hk
    bounded := fun r hlt k => by
      rw [hslices] at hlt
      rw [hat]
      split
      · exact hbounded k
      · exact h.bounded r hlt k }

theorem slice_of (h : s.Stores l) (hr : region < l.slices.size) :
    Table.get s.states region = .ok (l.sliceAt region).state ∧
      l.slice region = .ok (l.sliceAt region) :=
  ⟨by rw [Table.get_of_lt (h.size ▸ hr), h.state region hr], Table.get_of_lt hr⟩

theorem slice (h : s.Stores l) (r : Nat) :
    Both (fun state x => r < l.slices.size ∧ state = x.state ∧ x = l.sliceAt r)
      (Table.get s.states r) (l.slice r) := by
  by_cases hr : r < l.slices.size
  · rw [(h.slice_of hr).1, (h.slice_of hr).2]
    exact .ok ⟨hr, rfl, rfl⟩
  · have hr' : ¬r < s.states.size := h.size ▸ hr
    simp only [LivenessMap.slice, Table.get, Array.getElem?_eq_none (Nat.le_of_not_lt hr),
      Array.getElem?_eq_none (Nat.le_of_not_lt hr')]
    exact .error _

theorem state_kept (h : s.Stores l) (r : Nat) (hr : r < l.slices.size) :
    Table.entry s.states r =
      if region = r then (l.sliceAt region).state else Table.entry s.states r := by
  rw [h.state r hr]
  split
  · next he => rw [← he]
  · rfl

theorem entry_setState (h : s.Stores l) (hr : region < l.slices.size) (state : LazyState) (r : Nat) :
    Table.entry (s.setState region state).states r =
      if region = r then state else Table.entry s.states r :=
  Table.entry_set (h.size ▸ hr) state r

theorem setState (h : s.Stores l) (hr : region < l.slices.size)
    (hi : (l.sliceAt region).state.isInitialized = true) {state : LazyState}
    (hstate : state ≠ .initializing) :
    (s.setState region state).Stores
      (l.setSlice region { l.sliceAt region with state := state }) :=
  h.replace hr (by simp) (fun r _ => h.entry_setState hr state r) (fun _ _ _ _ _ => rfl) hstate
    (fun _ => h.word region hr hi) (h.bounded region hr) h.committed

theorem reach (h : s.Stores l) (hr : region < l.slices.size)
    (hk : (a - l.regionStart region) / 8 / 64 < l.sliceWords)
    (hi : (l.sliceAt region).state.isInitialized = true) (ha : Address.isWordAligned a = true) :
    ∃ b, s.bit region a = .ok (s.storageOf region + 8 * (b / 64), 1 <<< (b % 64)) ∧
      l.bitOf region a = .ok b ∧ b / 64 < l.sliceWords ∧
      s.memory.read (s.storageOf region + 8 * (b / 64)) =
        .ok ((l.sliceAt region).bits.word (b / 64)) := by
  have hstart : s.regionStart region = l.regionStart region := by
    rw [LivenessStorage.regionStart, LivenessStorage.regionBytes, h.start, h.log]
    rfl
  refine ⟨(a - l.regionStart region) / 8, ?_, ?_, hk,
    PagedMemory.read_of (h.word region hr hi _ hk)⟩
  · simp only [bit, ha, unless_true, ok_bind, pure_eq, hstart, Nat.mul_comm]
  · simp only [LivenessMap.bitOf, ha, unless_true, ok_bind, pure_eq]

theorem write (h : s.Stores l) (hr : region < l.slices.size) (hk : k < l.sliceWords)
    (hi : (l.sliceAt region).state.isInitialized = true) {v : Nat} (hv : v < Word.limit) :
    ∃ memory, s.memory.write (s.storageOf region + 8 * k) v = .ok memory ∧
      ({ s with memory := memory } : LivenessStorage).Stores (l.setSlice region
        { l.sliceAt region with bits := ⟨(l.sliceAt region).bits.words.write k v⟩ }) := by
  have hroom := h.room
  refine ⟨_, PagedMemory.write_of (h.word region hr hi k hk) v, h.replace hr rfl
    h.state_kept ?_ (h.ready region hr) ?_ ?_ h.committed⟩
  · intro r _ hne k' hk'
    have hout := h.outside (Ne.symm hne) hk'
    exact if_neg (by omega)
  · intro _ k' hk'
    rw [Bitmap.word_write]
    by_cases he : k = k'
    · simp [he]
    · have hne : s.storageOf region + 8 * k' ≠ s.storageOf region + 8 * k := by omega
      simp only [if_neg hne, if_neg he]
      exact h.word region hr hi k' hk'
  · intro k'
    rw [Bitmap.word_write]
    split
    · exact hv
    · exact h.bounded region hr k'

theorem commit (h : s.Stores l) (hr : region < l.slices.size) :
    ((s.commit region).setState region .marked).Stores
      { l.setSlice region ⟨.marked, .empty⟩ with committed := l.committed + 1 } := by
  have hroom := h.room
  have hbefore := h.committed
  refine h.replace hr ?_ (fun r _ => h.entry_setState hr .marked r) ?_ (by simp) ?_
    (by simp [Bitmap.word, Bitmap.empty, Word.limit]) ?_
  · simp [LivenessStorage.commit]
  · intro r _ hne k hk
    exact if_neg (h.outside (Ne.symm hne) hk)
  · intro _ k hk
    rw [Bitmap.word, Bitmap.empty, Memory.read_empty]
    exact if_pos (by omega)
  · simp only [LivenessStorage.commit]
    omega

theorem prepareToMark (h : s.Stores l) (hr : region < l.slices.size) :
    ∃ s' l', s.prepareToMark region = .ok s' ∧ l.markRegion region = .ok l' ∧ s'.Stores l' ∧
      (l'.sliceAt region).state = .marked ∧ l'.slices.size = l.slices.size ∧
      l'.regionStart region = l.regionStart region ∧ l'.sliceWords = l.sliceWords := by
  obtain ⟨hget, hslice⟩ := h.slice_of hr
  rw [LivenessStorage.prepareToMark, LivenessMap.markRegion, hget, hslice]
  cases hst : (l.sliceAt region).state with
  | initializing => exact absurd hst (h.ready region hr)
  | marked =>
    exact ⟨s, l, by simp [LazyState.isMarked], by simp [hst, LazyState.isMarked], h, hst, rfl, rfl,
      rfl⟩
  | initialized =>
    refine ⟨s.setState region .marked,
      l.setSlice region { l.sliceAt region with state := .marked }, ?_, ?_,
      h.setState hr (by simp [hst, LazyState.isInitialized]) (by simp), ?_, ?_, rfl, rfl⟩
    · simp [LazyState.isMarked, LazyState.ensure, LazyState.isInitialized, LazyState.mark]
    · simp [hst, LazyState.isMarked, LazyState.ensure, LazyState.isInitialized, LazyState.mark]
    · rw [LivenessMap.sliceAt_setSlice hr, if_pos rfl]
    · simp [LivenessMap.setSlice]
  | uninitialized =>
    refine ⟨(s.commit region).setState region .marked,
      { l.setSlice region ⟨.marked, .empty⟩ with committed := l.committed + 1 }, ?_, ?_,
      h.commit hr, ?_, ?_, rfl, rfl⟩
    · simp [LazyState.isMarked, LazyState.ensure, LazyState.isInitialized, LazyState.mark,
        LazyState.begin, LazyState.complete]
    · simp [hst, LazyState.isMarked, LazyState.ensure, LazyState.isInitialized, LazyState.mark,
        LazyState.begin, LazyState.complete, LivenessMap.setSlice]
    · exact congrArg LivenessSlice.state
        ((LivenessMap.sliceAt_setSlice hr ⟨.marked, .empty⟩ region).trans (if_pos rfl))
    · simp [LivenessMap.setSlice]

theorem mark (h : s.Stores l) (a : Nat) :
    Both (fun r r' => r.1 = r'.1 ∧ r.2.Stores r'.2) (s.mark a) (l.mark a) := by
  rw [LivenessStorage.mark, LivenessMap.mark, h.regionOf_eq]
  refine .bind_same fun region hregion => ?_
  obtain ⟨hr, hk⟩ := h.bit_lt hregion
  obtain ⟨s₁, l₁, hs, hl, h₁, hstate, hsize, hstart, hwords⟩ := h.prepareToMark hr
  rw [← hsize] at hr
  rw [← hwords, ← hstart] at hk
  have hi : (l₁.sliceAt region).state.isInitialized = true := by
    rw [hstate]
    rfl
  rw [bind_of hs, bind_of hl]
  cases ha : Address.isWordAligned a with
  | false =>
    rw [bit, LivenessMap.bitOf, ha]
    exact .error _
  | true =>
    obtain ⟨b, hbit, hbitOf, hk, hread⟩ := h₁.reach hr hk hi ha
    have hslice : l₁.slice region = .ok (l₁.sliceAt region) := Table.get_of_lt hr
    obtain ⟨memory, hmemory, h₂⟩ :=
      h₁.write hr hk hi (Bitmap.word_lt_insert (i := b) (h₁.bounded region hr))
    simp only [hbit, hbitOf, hread, hmemory, hslice, ok_bind, pure_eq]
    exact .ok ⟨Bitmap.and_mask _ _, h₂⟩

theorem tryMark (h : s.Stores l) (a : Nat) :
    Both (fun r r' => r.1 = r'.1 ∧ r.2.Stores r'.2) (s.tryMark a) (l.tryMark a) := by
  rw [tryMark_eq]
  exact (h.mark a).bind fun _ _ _ ⟨hb, h'⟩ => .ok ⟨by rw [hb], h'⟩

theorem isMarked (h : s.Stores l) (a : Nat) : s.isMarked a = l.isMarked a := by
  rw [LivenessStorage.isMarked, LivenessMap.isMarked, h.regionOf_eq]
  refine Both.eq (.bind_same fun region hregion => ?_)
  obtain ⟨hr, hk⟩ := h.bit_lt hregion
  obtain ⟨hget, hslice⟩ := h.slice_of hr
  simp only [LivenessStorage.isRegionMarked, hget, hslice, ok_bind, pure_eq]
  cases hm : (l.sliceAt region).state.isMarked with
  | false => exact .ok rfl
  | true =>
    cases ha : Address.isWordAligned a with
    | false =>
      simp only [bit, LivenessMap.bitOf, ha]
      exact .error _
    | true =>
      obtain ⟨b, hbit, hbitOf, hk, hread⟩ :=
        h.reach hr hk (LazyState.isInitialized_of_isMarked hm) ha
      simp only [hbit, hbitOf, hread, ok_bind]
      exact .ok (Bitmap.and_mask _ _)

theorem clear (h : s.Stores l) (a : Nat) : Both Stores (s.clear a) (l.clear a) := by
  rw [LivenessStorage.clear, LivenessMap.clear, h.regionOf_eq]
  refine .bind_same fun region hregion => ?_
  obtain ⟨hr, hk⟩ := h.bit_lt hregion
  obtain ⟨hget, hslice⟩ := h.slice_of hr
  simp only [LivenessStorage.isRegionMarked, hget, hslice, ok_bind, pure_eq]
  cases hm : (l.sliceAt region).state.isMarked with
  | false => exact .ok h
  | true =>
    cases ha : Address.isWordAligned a with
    | false =>
      simp only [bit, LivenessMap.bitOf, ha]
      exact .error _
    | true =>
      have hi := LazyState.isInitialized_of_isMarked hm
      obtain ⟨b, hbit, hbitOf, hk, hread⟩ := h.reach hr hk hi ha
      obtain ⟨memory, hmemory, h'⟩ :=
        h.write hr hk hi (v := _ &&& Word.complement (1 <<< (b % 64)))
          (Nat.lt_of_le_of_lt Nat.and_le_left (h.bounded region hr (b / 64)))
      simp only [hbit, hbitOf, hread, hmemory, ok_bind,
        Bitmap.erase_eq_write b (h.bounded region hr)]
      exact .ok h'

theorem zero (h : s.Stores l) (hr : region < l.slices.size)
    (hi : (l.sliceAt region).state.isInitialized = true) :
    ∃ memory, s.memory.zero (s.storageOf region) s.wordsOf = .ok memory ∧
      ({ s with memory := memory } : LivenessStorage).Stores
        (l.setSlice region { l.sliceAt region with bits := .empty }) := by
  have hroom := h.room
  have hthere : ∀ k, k < s.wordsOf → ∃ w, s.memory.words (s.storageOf region + 8 * k) =
      Option.some w := fun k hk => ⟨_, h.word region hr hi k (h.wordsOf_eq ▸ hk)⟩
  obtain ⟨memory, hmemory, hcleared, hothers⟩ := PagedMemory.zero_of hthere
  rw [h.wordsOf_eq] at hcleared hothers
  refine ⟨memory, hmemory, h.replace hr rfl h.state_kept ?_ (h.ready region hr) ?_
    (by simp [Bitmap.word, Bitmap.empty, Word.limit]) h.committed⟩
  · intro r _ hne k hk
    have hout := h.outside (Ne.symm hne) hk
    exact hothers _ fun k' hk' => by omega
  · intro _ k hk
    rw [hcleared k hk, Bitmap.word, Bitmap.empty, Memory.read_empty]

theorem clearedBits_eq (h : s.Stores l) (x : LivenessSlice) : l.clearedBits x = .empty :=
  if_neg (Nat.ne_of_gt h.some)

theorem clearRange (h : s.Stores l) (region : Nat) :
    Both Stores (s.clearRange region) (l.clearRange region) := by
  refine (h.slice region).bind fun state x _ hx => ?_
  obtain ⟨hr, rfl, rfl⟩ := hx
  cases hi : (l.sliceAt region).state.isInitialized with
  | false => exact .ok h
  | true =>
    obtain ⟨memory, hmemory, h'⟩ := h.zero hr hi
    simp only [hmemory, h.clearedBits_eq]
    exact .ok h'

theorem reset (h : s.Stores l) (region : Nat) :
    Both Stores (s.reset region) (l.reset region) := by
  refine (h.slice region).bind fun state x _ hx => ?_
  obtain ⟨hr, rfl, rfl⟩ := hx
  cases hm : (l.sliceAt region).state.isMarked with
  | false => exact .ok h
  | true =>
    have hi := LazyState.isInitialized_of_isMarked hm
    obtain ⟨memory, hmemory, h'⟩ := h.zero hr hi
    have hr' : region < (l.setSlice region { l.sliceAt region with bits := .empty }).slices.size := by
      simpa [LivenessMap.setSlice] using hr
    have hclear : s.clearRange region = .ok { s with memory := memory } := by
      rw [LivenessStorage.clearRange, (h.slice_of hr).1, ok_bind, hi, hmemory]
      rfl
    have h'' := h'.setState hr' (by rw [LivenessMap.sliceAt_setSlice hr, if_pos rfl]; exact hi)
      (show LazyState.initialized ≠ .initializing by simp)
    rw [LivenessMap.sliceAt_setSlice hr, if_pos rfl] at h''
    simp only [hclear, LazyState.toInitialized, hi, h.clearedBits_eq, unless_true, ok_bind]
    refine .ok ?_
    simpa [LivenessMap.setSlice] using h''

theorem resetAll (h : s.Stores l) : Both Stores s.resetAll l.resetAll := by
  rw [LivenessStorage.resetAll, LivenessMap.resetAll, h.size]
  exact Both.foldlM_mem (fun region _ _ _ h' => h'.reset region) h

theorem uncommit (h : s.Stores l) (region : Nat) :
    Both Stores (s.uncommit region) (l.uncommit region) := by
  refine (h.slice region).bind fun state x _ hx => ?_
  obtain ⟨hr, rfl, rfl⟩ := hx
  refine .bind_same fun _ hfree => ?_
  have hfree : (l.sliceAt region).state = .initialized := by
    simpa using hfree
  simp only [hfree, LazyState.toUninitialized, beq_self_eq_true, unless_true, ok_bind, pure_eq]
  refine .ok (h.replace hr (by simp [LivenessStorage.setState])
    (fun r _ => h.entry_setState hr .uninitialized r) ?_
    (by simp) (by simp [LazyState.isInitialized])
    (by simp [Bitmap.word, Bitmap.empty, Word.limit]) (congrArg (· - 1) h.committed))
  intro r _ hne k hk
  exact if_neg (h.outside (Ne.symm hne) hk)

theorem isRegionMarked (h : s.Stores l) (region : Nat) :
    s.isRegionMarked region = l.isRegionMarked region :=
  ((h.slice region).bind fun _ _ _ hx => .ok (by rw [hx.2.1])).eq

theorem count_words (h : s.Stores l) (hr : region < l.slices.size)
    (hi : (l.sliceAt region).state.isInitialized = true) :
    (List.range s.wordsOf).foldlM (fun found k => do
      let word ← s.memory.read (s.storageOf region + k * 8)
      return found + Bitmap.population word) 0 =
      (.ok ((l.sliceAt region).bits.count l.sliceWords) : Checked Nat) := by
  obtain ⟨total, htotal, hcount⟩ := foldlM_range_of (n := s.wordsOf)
    (f := fun found k => do
      let word ← s.memory.read (s.storageOf region + k * 8)
      return found + Bitmap.population word)
    (fun n found => found = ((l.sliceAt region).bits.toList (64 * n)).length)
    (fun k found hk hfound => by
      have hread := PagedMemory.read_of (h.word region hr hi k (h.wordsOf_eq ▸ hk))
      rw [Nat.mul_comm] at hread
      exact ⟨_, by rw [hread]; rfl, by rw [hfound, Bitmap.length_toList_word]⟩)
    0 rfl
  rw [htotal, hcount, h.wordsOf_eq, Bitmap.count_eq]

theorem count (h : s.Stores l) (region : Nat) : s.count region = l.count region := by
  refine Both.eq ?_
  rw [LivenessStorage.count, LivenessStorage.isRegionMarked, bind_assoc]
  refine (h.slice region).bind fun state x _ hx => ?_
  obtain ⟨hr, rfl, rfl⟩ := hx
  rw [pure_eq, ok_bind]
  cases hm : (l.sliceAt region).state.isMarked with
  | false => exact .ok rfl
  | true =>
    rw [if_neg (by simp), if_neg (by simp), h.count_words hr (LazyState.isInitialized_of_isMarked hm)]
    exact .ok rfl

theorem perform (h : s.Stores l) (operation : LivenessOperation) :
    Both (fun r r' => r.1 = r'.1 ∧ r.2.Stores r'.2) (s.perform operation) (l.perform operation) := by
  cases operation with
  | mark a => exact (h.mark a).bind fun _ _ _ ⟨hb, h'⟩ => .ok ⟨congrArg Option.some hb, h'⟩
  | tryMark a => exact (h.tryMark a).bind fun _ _ _ ⟨hb, h'⟩ => .ok ⟨congrArg Option.some hb, h'⟩
  | clear a => exact (h.clear a).bind fun _ _ _ h' => .ok ⟨rfl, h'⟩
  | clearRange region => exact (h.clearRange region).bind fun _ _ _ h' => .ok ⟨rfl, h'⟩
  | reset region => exact (h.reset region).bind fun _ _ _ h' => .ok ⟨rfl, h'⟩
  | resetAll => exact h.resetAll.bind fun _ _ _ h' => .ok ⟨rfl, h'⟩
  | uncommit region => exact (h.uncommit region).bind fun _ _ _ h' => .ok ⟨rfl, h'⟩

end Stores

theorem room_of {k : Nat} (h : 9 ≤ k) (hk : LivenessMap.storageBytes k ≠ 0) :
    8 * (1 <<< k / 8 / 64) ≤ LivenessMap.storageBytes k := by
  have hfew : ∀ k, k < 70 → 9 ≤ k → 8 * (1 <<< k / 8 / 64) ≤ LivenessMap.storageBytes k := by
    decide +kernel
  by_cases hlt : k < 70
  · exact hfew k hlt h
  · have hwhole : (1 <<< k / 64) % Word.limit = 0 := by
      rw [Nat.one_shiftLeft, show k = (k - 70) + 64 + 6 by omega, Nat.pow_add _ _ 6,
        Nat.mul_div_cancel _ (by omega), Nat.pow_add]
      exact Nat.mul_mod_left _ _
    refine absurd ?_ hk
    rw [LivenessMap.storageBytes, Word.roundUp, Word.addWrapping, Nat.add_mod, hwhole]
    decide

theorem bytes_of {n : Nat} (h : Word.isPowerOfTwo n = true) : 1 <<< Nat.log2 n = n := by
  simp only [Word.isPowerOfTwo, Bool.and_eq_true, bne_iff_ne, beq_iff_eq] at h
  obtain ⟨k, rfl⟩ := (Nat.and_sub_one_eq_zero_iff_isPowerOfTwo h.1).mp h.2
  rw [Nat.log2_two_pow, Nat.one_shiftLeft]

theorem create_stores (system : Mapping.System) (start regions : Nat) {regionBytes : Nat}
    (h : 512 ≤ regionBytes) :
    Both (fun s l => s.Stores l ∧ l.start = start ∧ l.regionBytes = regionBytes ∧
        l.slices = Array.replicate regions {} ∧ l.committed = 0)
      (create system start regions regionBytes)
      (LivenessMap.create system start regions regionBytes) := by
  refine .bind_same fun _ hstorage => ?_
  obtain ⟨_, hpow, hrange⟩ := Checked.bind_eq_ok.mp hstorage
  obtain ⟨total, htotal, hreserve⟩ := Checked.bind_eq_ok.mp hrange
  obtain ⟨_, hsome, -⟩ := Checked.bind_eq_ok.mp hreserve
  have hpow := bytes_of (Fault.unless_eq_ok.mp hpow)
  have hlog : 9 ≤ Nat.log2 regionBytes := (Nat.le_log2 (by omega)).mpr h
  have hstored : LivenessMap.storageBytes (Nat.log2 regionBytes) ≠ 0 := by
    intro hnone
    rw [Word.mul_eq_ok, hnone, Nat.zero_mul] at htotal
    rw [← htotal.2] at hsome
    contradiction
  have hwhole : 1 <<< Nat.log2 regionBytes =
      512 * (1 <<< Nat.log2 regionBytes / 8 / 64) := by
    rw [Nat.div_div_eq_div_mul, Nat.mul_div_cancel']
    rw [Nat.one_shiftLeft]
    exact Nat.pow_dvd_pow 2 hlog
  have hslice : ∀ r, r < (Array.replicate regions ({} : LivenessSlice)).size →
      Table.entry (Array.replicate regions ({} : LivenessSlice)) r = {} :=
    fun r hr => Table.entry_replicate _ _ (by simpa using hr)
  refine .ok ⟨{
    start := rfl
    log := rfl
    size := by simp
    committed := rfl
    bytes := hwhole
    some := by
      change 0 < 1 <<< Nat.log2 regionBytes / 8 / 64
      omega
    room := room_of hlog hstored
    state := fun r hr => ?state
    ready := fun r hr => ?ready
    word := fun r hr hi => ?word
    bounded := fun r hr k => ?bounded }, rfl, hpow, rfl, rfl⟩
  case state =>
    rw [LivenessMap.sliceAt, hslice r hr]
    exact Table.entry_replicate _ _ (by simpa using hr)
  case ready =>
    rw [LivenessMap.sliceAt, hslice r hr]
    simp
  case word =>
    -- no slice of a new map has storage
    rw [LivenessMap.sliceAt, hslice r hr] at hi
    contradiction
  case bounded =>
    rw [LivenessMap.sliceAt, hslice r hr]
    simp [Bitmap.word, Bitmap.empty, Word.limit]

end LivenessStorage

end RegionHeap
