import RegionHeap.Proofs.Tidy

/-!
New heaps. A heap is made from any options and of any size for which the system grants the memory,
and from no other. Nothing lies in it, so that it is tidy.
-/
set_option autoImplicit false

namespace RegionHeap

namespace Address

/-- The mask of a power of two clears the bits below it. -/
theorem and_complement {n : Nat} (k : Nat) (hn : n < Word.limit) (hk : 1 <<< k < Word.limit) :
    n &&& Word.complement (1 <<< k - 1) = 1 <<< k * (n / 1 <<< k) := by
  have hlimit : Word.limit = 2 ^ 64 := rfl
  rw [Nat.one_shiftLeft] at *
  rw [hlimit] at hn hk
  have hmask : Word.complement (2 ^ k - 1) = 2 ^ 64 - ((2 ^ k - 1) + 1) := by
    rw [Word.complement, hlimit]
    omega
  have hlt : 2 ^ k - 1 < 2 ^ 64 := Nat.lt_of_le_of_lt (Nat.sub_le ..) hk
  refine Nat.eq_of_testBit_eq fun i => ?_
  rw [hmask, Nat.testBit_and, Nat.testBit_two_pow_sub_succ hlt, Nat.testBit_two_pow_sub_one,
    Nat.testBit_two_pow_mul, Nat.testBit_div_two_pow]
  by_cases hik : k ≤ i
  · have hi : i < 64 ∨ n.testBit i = false := by
      refine (Nat.lt_or_ge i 64).imp id fun hi => Nat.testBit_lt_two_pow ?_
      exact Nat.lt_of_lt_of_le hn (Nat.pow_le_pow_right (by decide) hi)
    rcases hi with hi | hi <;> simp [hi, hik, Nat.not_lt.mpr hik]
  · simp [hik, Nat.not_le.mp hik]

/-- The least multiple of the alignment that is no less than the address. -/
theorem alignUp_of {a k : Nat} (h : a + 1 <<< k < Word.limit) : ∃ s, alignUp a (1 <<< k) = .ok s ∧
    a ≤ s ∧ s < a + 1 <<< k ∧ s % 1 <<< k = 0 := by
  have hpos : 0 < 1 <<< k := by
    rw [Nat.one_shiftLeft]
    exact Nat.two_pow_pos k
  have hpow : Word.isPowerOfTwo (1 <<< k) = true := by
    simp only [Word.isPowerOfTwo, Bool.and_eq_true, bne_iff_ne, beq_iff_eq]
    exact ⟨Nat.ne_of_gt hpos,
      (Nat.and_sub_one_eq_zero_iff_isPowerOfTwo (Nat.ne_of_gt hpos)).mpr ⟨k, Nat.one_shiftLeft k⟩⟩
  have hadd : Word.add a (1 <<< k) = .ok (a + 1 <<< k) := Word.add_eq_ok.mpr ⟨h, rfl⟩
  have hmask := and_complement (n := a + 1 <<< k - 1) k (by omega) (by omega)
  have hdiv := Nat.div_add_mod (a + 1 <<< k - 1) (1 <<< k)
  have hmod := Nat.mod_lt (a + 1 <<< k - 1) hpos
  refine ⟨1 <<< k * ((a + 1 <<< k - 1) / 1 <<< k), ?_, by omega, by omega, Nat.mul_mod_right ..⟩
  rw [alignUp, Checked.unless_of hpow, Checked.ok_bind, hadd, Checked.ok_bind, hmask]
  rfl

end Address

namespace Mapping.System

variable {s : System} {o : Options} {count start : Nat}

theorem reserve_eq_ok {purpose : Purpose} {bytes a : Nat} :
    s.reserve purpose bytes = .ok a ↔ 0 < bytes ∧ s.map purpose bytes = .ok a := by
  simp [reserve, Checked.bind_eq_ok, Checked.mapError_eq_ok]

theorem commit_eq_ok {bytes : Nat} {u : Unit} :
    s.commit start bytes = .ok u ↔ s.unlock start bytes = .ok () :=
  Checked.mapError_eq_ok

/-- The system has the memory for a heap of so many regions and starts it at an address. -/
structure Grants (s : System) (o : Options) (count start : Nat) : Prop where
  heap : ∃ a, s.map .heap (count * o.regionSize + o.regionSize) = .ok a ∧
    Address.alignUp a o.regionSize = .ok start
  usable : s.unlock start (count * o.regionSize) = .ok ()
  bitmap : ∃ a, s.map (.sideBitmap "liveness")
    (LivenessMap.storageBytes (Nat.log2 o.regionSize) * count) = .ok a

end Mapping.System

namespace Options

theorem isRegionSize_eq {n : Nat} (h : isRegionSize n = true) :
    ∃ k, 16 ≤ k ∧ k ≤ 25 ∧ n = 1 <<< k := by
  simp only [isRegionSize, Bool.and_eq_true, decide_eq_true_eq, Word.isPowerOfTwo, bne_iff_ne,
    beq_iff_eq] at h
  obtain ⟨⟨⟨hz, hp⟩, hmin⟩, hmax⟩ := h
  obtain ⟨k, rfl⟩ := (Nat.and_sub_one_eq_zero_iff_isPowerOfTwo hz).mp hp
  unfold minRegionSize at hmin
  unfold maxRegionSize at hmax
  refine ⟨k, Nat.le_of_not_lt fun hlt => ?_, Nat.le_of_not_lt fun hlt => ?_,
    (Nat.one_shiftLeft k).symm⟩
  · have := Nat.pow_lt_pow_right (show 1 < 2 by omega) hlt
    omega
  · have := Nat.pow_lt_pow_right (show 1 < 2 by omega) hlt
    omega

variable {o : Options} {count start : Nat}

/-- Any system that grants a heap gives it a layout, with room for one more region behind it. -/
theorem Valid.layout (v : o.Valid) {s : Mapping.System} (hs : s.Lawful)
    (g : s.Grants o count start) :
    ∃ L : Layout, L.start = start ∧ L.bytes = o.regionSize ∧ L.count = count ∧
      start % 512 = 0 ∧ L.limit + L.bytes < Word.limit := by
  obtain ⟨a, hmap, halign⟩ := g.heap
  have hpos := hs.pos hmap
  have hlow := hs.low hmap
  obtain ⟨k, hk, hk', he⟩ := isRegionSize_eq v.regionSize
  have hsize : o.regionSize ≤ 1 <<< 25 := by
    rw [he, Nat.one_shiftLeft, Nat.one_shiftLeft]
    exact Nat.pow_le_pow_right (by decide) hk'
  obtain ⟨s, hs', hle, hlt, hmod⟩ := Address.alignUp_of (a := a) (k := k) (by
    rw [← he]
    unfold Word.limit
    omega)
  rw [← he] at hs' hlt hmod
  obtain rfl : s = start := Except.ok.inj (hs'.symm.trans halign)
  obtain ⟨j, rfl⟩ := Nat.exists_eq_add_of_le hk
  have hj : o.regionSize = 8 * (64 * (128 * 2 ^ j)) := by
    rw [he, Nat.one_shiftLeft, Nat.pow_add]
    omega
  have hjpos := Nat.two_pow_pos j
  have hcard : s % 512 = 0 := Nat.mod_eq_zero_of_dvd (Nat.dvd_trans ⟨128 * 2 ^ j, by omega⟩
    (Nat.dvd_of_mod_eq_zero hmod))
  have hbound : s + count * o.regionSize + o.regionSize < Word.limit := by
    unfold Word.limit
    omega
  refine ⟨⟨s, 64 * (128 * 2 ^ j), count, by omega, by omega, by omega, by omega, ?_⟩,
    rfl, hj.symm, rfl, hcard, ?_⟩
  · rw [← hj]
    omega
  · rw [hj] at hbound
    exact hbound

/-- The slots of the containers of so many bytes. -/
def slotSizing (o : Options) (bytes : Nat) : SlotSizing where
  slotBytes := Word.roundUp (FreeList.linkBytes + bytes) SlotSizing.slotAlignment
  initial := o.cardSetInitialSlots
  largest := max o.cardSetMaxSlots o.cardSetInitialSlots

theorem Valid.configuration (v : o.Valid) (rounds : Rounds) :
    CardSet.configuration rounds o = .ok {
      array := o.slotSizing Container.arrayBytes
      bitmap := o.slotSizing (max (o.regionSize >>> Address.logBytesInCard / 8) 8)
      transferThreshold := o.transferThreshold
      logCardsPerRegion := Nat.log2 o.regionSize - Address.logBytesInCard
      rounds } := by
  have hinit := v.cardSetInitialSlots
  have hslots : (decide (0 < o.cardSetInitialSlots) && decide (o.cardSetInitialSlots ≤
      max o.cardSetMaxSlots o.cardSetInitialSlots)) = true := by
    simp only [Bool.and_eq_true, decide_eq_true_eq]
    omega
  have hsizing : ∀ bytes, bytes < 1 <<< 32 → (do
      let node ← Word.add FreeList.linkBytes bytes
      SlotSizing.create node o.cardSetInitialSlots
        (max o.cardSetMaxSlots o.cardSetInitialSlots)) = (.ok (o.slotSizing bytes)) := by
    intro bytes hb
    have hadd : Word.add FreeList.linkBytes bytes = .ok (FreeList.linkBytes + bytes) := by
      rw [Word.add_eq_ok]
      unfold FreeList.linkBytes Word.limit
      omega
    rw [Checked.bind_of hadd, SlotSizing.create, Checked.unless_of hslots]
    rfl
  obtain ⟨k, -, hk, he⟩ := isRegionSize_eq v.regionSize
  rw [Nat.one_shiftLeft] at he
  have hpow := Nat.pow_le_pow_right (show 0 < 2 by omega) hk
  have h₁ := hsizing Container.arrayBytes (by decide)
  have h₂ := hsizing (max (o.regionSize >>> Address.logBytesInCard / 8) 8) (by
    have := Nat.div_le_self o.regionSize (2 ^ Address.logBytesInCard)
    rw [Nat.shiftRight_eq_div_pow]
    omega)
  rw [CardSet.configuration, CardConfig.create]
  exact (Checked.bind_of h₁ _).trans (Checked.bind_of h₂ _)

end Options

theorem BlockTable.create_of {b e : Nat} (h : b % 512 = 0) :
    BlockTable.create b e = .ok ⟨b, e, Array.replicate ((e - b) / 512) 0⟩ := by
  rw [create, Checked.unless_of (by rw [beq_iff_eq]; exact h)]
  rfl

theorem Region.create_of {L : Layout} {i : Nat} (config : CardConfig) (hi : i < L.count)
    (hs : L.bottom i % 512 = 0) : ∃ r, Region.create i (L.bottom i) L.bytes config = .ok r ∧
      r.Laid L i ∧ r.Blank ∧ r.pins = 0 := by
  have hadd : Word.add (L.bottom i) L.bytes = .ok (L.bottom i + L.bytes) := by
    rw [Word.add_eq_ok]
    exact ⟨Nat.lt_of_le_of_lt (Layout.bottom_add_le_limit hi) L.limit_lt, rfl⟩
  have hz : L.bottom i + L.bytes - L.bottom i = L.bytes := by omega
  refine ⟨_, (Checked.bind_of hadd _).trans (Checked.bind_of (BlockTable.create_of hs) _),
    ⟨rfl, rfl, rfl, rfl, rfl, by simp [hz], Nat.le_refl _, by simp, L.bottom_mod i⟩,
    ⟨rfl, rfl, rfl, rfl, by simp [BlockTable.reset]⟩, rfl⟩

theorem RegionTable.create_of (L : Layout) (config : CardConfig) (hs : L.start % 512 = 0) :
    ∃ t, RegionTable.create L.start L.count L.bytes config = .ok t ∧
      t.Laid L ∧ t.memory = .empty ∧ ∀ i, i < L.count →
        (t.region i).Blank ∧ (t.region i).pins = 0 := by
  have hcard : ∀ i, L.bottom i % 512 = 0 := by
    intro i
    have := L.cards
    have hm : i * L.bytes % 512 = 0 := by
      rw [Nat.mul_mod, show L.bytes % 512 = 0 by unfold Layout.bytes; omega]
      simp
    unfold Layout.bottom
    omega
  obtain ⟨rs, hrs, hlen, hall⟩ := Checked.mapM_exists
    (f := fun i => Region.create i (L.start + i * L.bytes) L.bytes config)
    fun i hi => Region.create_of config (List.mem_range.mp hi) (hcard i)
  rw [List.length_range] at hlen
  refine ⟨_, Checked.bind_of hrs _, ⟨hlen, fun i hi => ?_⟩, rfl, fun i hi => ?_⟩
  all_goals
    obtain ⟨r, hr, hlaid, hfree⟩ := hall i i (by simp [hi])
    rw [RegionTable.region, Table.entry, List.getElem?_toArray, hr]
  · exact hlaid
  · exact hfree

namespace LivenessMap

theorem storageBytes_of {k : Nat} (h : 16 ≤ k) (h' : k ≤ 25) :
    0 < storageBytes k ∧ storageBytes k ≤ 1 <<< k := by
  obtain rfl | rfl | rfl | rfl | rfl | rfl | rfl | rfl | rfl | rfl :
      k = 16 ∨ k = 17 ∨ k = 18 ∨ k = 19 ∨ k = 20 ∨ k = 21 ∨ k = 22 ∨ k = 23 ∨ k = 24 ∨ k = 25 := by
    omega
  all_goals decide

theorem create_of {L : Layout} {s : Mapping.System} {a : Nat}
    (hw : Options.isRegionSize L.bytes = true) (hc : 0 < L.count)
    (hs : L.count * L.bytes < Word.limit)
    (ha : s.map (.sideBitmap "liveness") (storageBytes (Nat.log2 L.bytes) * L.count) = .ok a) :
    ∃ l, LivenessMap.create s L.start L.count L.bytes = .ok l ∧ l.Laid L ∧
      ∀ i, i < L.count → (l.sliceAt i).state.isMarked = false := by
  have hpow : Word.isPowerOfTwo L.bytes = true := by
    unfold Options.isRegionSize at hw
    simp only [Bool.and_eq_true] at hw
    exact hw.1.1
  obtain ⟨k, hk, hk', he⟩ := Options.isRegionSize_eq hw
  obtain ⟨hpos, hle⟩ := storageBytes_of hk hk'
  have hlog : Nat.log2 L.bytes = k := by rw [he, Nat.one_shiftLeft, Nat.log2_two_pow]
  have htotal : storageBytes k * L.count ≤ L.count * L.bytes := by
    rw [Nat.mul_comm, he]
    exact Nat.mul_le_mul_left _ hle
  have hzero : 0 < storageBytes k * L.count := Nat.mul_pos hpos hc
  have hmul : Word.mul (storageBytes k) L.count = .ok (storageBytes k * L.count) := by
    rw [Word.mul_eq_ok]
    omega
  rw [hlog] at ha
  have hreserve : reserveStorage s L.count L.bytes = .ok a := by
    rw [reserveStorage, Checked.unless_of hpow, Checked.ok_bind, hlog]
    exact (Checked.bind_of hmul _).trans (Mapping.System.reserve_eq_ok.mpr ⟨hzero, ha⟩)
  have hslice : ∀ i, i < L.count →
      Table.entry (Array.replicate L.count ({} : LivenessSlice)) i = {} :=
    fun i hi => Table.entry_replicate _ _ hi
  refine ⟨⟨L.start, k, Array.replicate L.count {}, 0⟩, ?_, ⟨rfl, ?_, by simp, fun i hi => ?_,
    fun i hi => ?_⟩, fun i hi => ?_⟩
  · rw [create, hlog]
    exact Checked.bind_of hreserve _
  · exact he.symm
  · rw [sliceAt, hslice i hi]
    simp
  · rw [sliceAt, hslice i hi]
    simp
  · rw [sliceAt, hslice i hi]
    rfl

end LivenessMap

namespace Heap

theorem tidy_of_blank {h : Heap} {L : Layout} (v : h.options.Valid) (hs : h.start = L.start)
    (hbytes : h.regionBytes = L.bytes) (hg : 0 < h.gang.size) (l : h.Listed L)
    (hb : ∀ i, i < L.count → (h.region i).Blank)
    (hc : h.candidates.retained.groups ++ h.candidates.marking.groups = [])
    (hbehind : L.limit + L.bytes < Word.limit) : h.Tidy L := by
  have hnone : ∀ o, ¬h.IsObject o := by
    rintro o ⟨i, hi, ho⟩
    rw [regionCount, l.table.size] at hi
    rw [objectsIn, (hb i hi).kind] at ho
    simp [RegionKind.isOrdinary, RegionKind.isFree, RegionKind.isStartsHumongous] at ho
  refine ⟨⟨v, hs, hbytes, l.table, hg,
    fun i hi _ => (hb i hi).top.trans (l.table.region i hi).bottom,
    fun i hi hk => ?_, fun o ho => absurd ho (hnone o), fun i hi hk => ?_, fun i hi hk => ?_,
    fun i hi hk => ?_, fun o ho => absurd ho (hnone o), fun g hg => ?_⟩, l.liveness, l.reset,
    l.freeList, fun i hi _ => hb i hi, fun i hi hk => ?_, hbehind⟩
  case refine_5 =>
    rw [hc] at hg
    contradiction
  all_goals
    rw [(hb i hi).kind] at hk
    contradiction

variable {system : Mapping.System} {rounds : Rounds} {o : Options} {bytes : Nat} {p : Policy}

/-- A heap can be made whenever the system grants it. All its regions are blank. -/
theorem create_of (rounds : Rounds) (p : Policy) (hs : system.Lawful) (v : o.Valid) (hb : 0 < bytes)
    {start : Nat} (g : system.Grants o (Word.divCeil bytes o.regionSize) start) :
    ∃ (L : Layout) (h : Heap), create system rounds o bytes p = .ok h ∧ h.Tidy L ∧
      L.start = start ∧ L.bytes = o.regionSize ∧ L.count = Word.divCeil bytes o.regionSize ∧
      h.options = o ∧ h.roots = {} ∧ h.memory = .empty ∧
      ∀ i, i < L.count → (h.region i).Blank ∧ (h.region i).pins = 0 := by
  obtain ⟨L, hstart, hbytes, hcount, hcard, hbehind⟩ := v.layout hs g
  obtain ⟨⟨a, hmap, halign⟩, husable, b, hbitmap⟩ := g
  have hpos := L.bytes_ge
  rw [← hcount, ← hbytes] at hmap husable hbitmap
  have hc : 0 < L.count := by
    rw [hcount]
    exact Word.divCeil_pos hb (by omega)
  obtain ⟨config, hconfig⟩ : ∃ c, CardSet.configuration rounds o = .ok c :=
    ⟨_, v.configuration rounds⟩
  obtain ⟨t, ht, hlaid, hmem, hfree⟩ := RegionTable.create_of L config (hstart ▸ hcard)
  have hbound : L.count * L.bytes + L.bytes < Word.limit := by
    rw [Layout.limit, Layout.bottom] at hbehind
    omega
  obtain ⟨l, hl, hlive, hmarks⟩ :=
    LivenessMap.create_of (L := L) (hbytes ▸ v.regionSize) hc (by omega) hbitmap
  have hmul : Word.mul L.count L.bytes = .ok (L.count * L.bytes) :=
    Word.mul_eq_ok.mpr ⟨by omega, rfl⟩
  have hadd : Word.add (L.count * L.bytes) L.bytes = .ok (L.count * L.bytes + L.bytes) :=
    Word.add_eq_ok.mpr ⟨hbound, rfl⟩
  have hreserve : system.reserve .heap (L.count * L.bytes + L.bytes) = .ok a :=
    Mapping.System.reserve_eq_ok.mpr ⟨by omega, hmap⟩
  have hcommit : system.commit start (L.count * L.bytes) = .ok () :=
    Mapping.System.commit_eq_ok.mpr husable
  have hgang : Gang.create o.threads = .ok ⟨o.threads, o.threads⟩ := by
    rw [Gang.create, Checked.unless_of (by rw [decide_eq_true_eq]; exact v.threads)]
    rfl
  have hlist : List.range L.count = (List.range L.count).filter fun i => (t.region i).kind.isFree :=
    (List.filter_eq_self.mpr fun i hi => by
      rw [(hfree i (List.mem_range.mp hi)).1.kind]
      rfl).symm
  refine ⟨L, {
    options := o
    start := start
    table := t
    liveness := l
    candidates := .initial L.count
    policy := p
    gang := ⟨o.threads, o.threads⟩
    freeList := ⟨List.range L.count⟩ }, ?_,
    tidy_of_blank v hstart.symm hbytes.symm v.threads ⟨hlaid, hlive, hmarks, congrArg _ hlist⟩
      (fun i hi => (hfree i hi).1) rfl hbehind, hstart, hbytes, hcount, rfl, rfl, hmem, hfree⟩
  rw [hstart] at ht hl
  rw [← hbytes] at halign
  rw [create, ← hcount, ← hbytes, Checked.unless_of (by rw [decide_eq_true_eq]; exact hc)]
  refine (Checked.bind_of hmul _).trans ((Checked.bind_of hadd _).trans ?_)
  refine (Checked.bind_of hreserve _).trans ((Checked.bind_of halign _).trans ?_)
  refine (Checked.bind_of hcommit _).trans ((Checked.bind_of hconfig _).trans ?_)
  exact (Checked.bind_of ht _).trans ((Checked.bind_of hl _).trans (Checked.bind_of hgang _))

/-- A heap is made only if the system grants it. -/
theorem grants_of_create {h : Heap} (hc : create system rounds o bytes p = .ok h) :
    0 < bytes ∧ system.Grants o (Word.divCeil bytes o.regionSize) h.start := by
  rw [create] at hc
  obtain ⟨_, hcount, hc⟩ := Checked.bind_eq_ok.mp hc
  obtain ⟨size, hsize, hc⟩ := Checked.bind_eq_ok.mp hc
  obtain ⟨sum, hsum, hc⟩ := Checked.bind_eq_ok.mp hc
  obtain ⟨a, hreserve, hc⟩ := Checked.bind_eq_ok.mp hc
  obtain ⟨start, halign, hc⟩ := Checked.bind_eq_ok.mp hc
  obtain ⟨_, hcommit, hc⟩ := Checked.bind_eq_ok.mp hc
  obtain ⟨_, -, hc⟩ := Checked.bind_eq_ok.mp hc
  obtain ⟨_, -, hc⟩ := Checked.bind_eq_ok.mp hc
  obtain ⟨_, hliveness, hc⟩ := Checked.bind_eq_ok.mp hc
  obtain ⟨_, -, hc⟩ := Checked.bind_eq_ok.mp hc
  obtain rfl := Except.ok.inj hc
  obtain ⟨b, hstorage, -⟩ := Checked.bind_eq_ok.mp hliveness
  obtain ⟨_, -, hstorage⟩ := Checked.bind_eq_ok.mp hstorage
  obtain ⟨total, htotal, hbitmap⟩ := Checked.bind_eq_ok.mp hstorage
  obtain ⟨-, rfl⟩ := Word.mul_eq_ok.mp hsize
  obtain ⟨-, rfl⟩ := Word.add_eq_ok.mp hsum
  obtain ⟨-, rfl⟩ := Word.mul_eq_ok.mp htotal
  refine ⟨Nat.pos_of_ne_zero fun hz => ?_, ⟨a, (Mapping.System.reserve_eq_ok.mp hreserve).2, halign⟩,
    Mapping.System.commit_eq_ok.mp hcommit, b, (Mapping.System.reserve_eq_ok.mp hbitmap).2⟩
  subst hz
  simp [Word.divCeil] at hcount

theorem tidy_of_create {h : Heap} (hs : system.Lawful) (v : o.Valid)
    (hc : create system rounds o bytes p = .ok h) : ∃ L, h.Tidy L := by
  obtain ⟨hb, g⟩ := grants_of_create hc
  obtain ⟨L, h', hc', t, -⟩ := create_of rounds p hs v hb g
  obtain rfl : h = h' := Except.ok.inj (hc.symm.trans hc')
  exact ⟨L, t⟩

/-- Gives every range of up to a terabyte, and nothing above. -/
def sampleSystem : Mapping.System where
  map _ bytes := if bytes ≤ 1 <<< 40 then .ok 0x7ffff7a1d000 else .error Mapping.noMemory
  unlock _ _ := .ok ()

theorem sampleSystem_lawful : sampleSystem.Lawful := by
  have hmap : ∀ {purpose bytes a}, sampleSystem.map purpose bytes = .ok a →
      bytes ≤ 1 <<< 40 ∧ a = 0x7ffff7a1d000 := fun {_ bytes a} h => by
    by_cases hb : bytes ≤ 1 <<< 40
    · exact ⟨hb, (Except.ok.inj ((if_pos hb).symm.trans h)).symm⟩
    · exact absurd ((if_neg hb).symm.trans h) (by simp)
  refine ⟨fun h => ?_, fun h => ?_⟩ <;> obtain ⟨hb, rfl⟩ := hmap h
  · decide
  · omega

def sampleRounds : Rounds := { period := 128, delay := 2 }

end Heap

end RegionHeap
