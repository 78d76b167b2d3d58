import RegionHeap.Proofs.Sites
import RegionHeap.Proofs.WellFormed

/-!
Setting up the regions of a humongous object. The first of the free regions that it takes starts
the object and the others continue it; nothing else changes but the filler behind the object. The
block table of the first region knows the object and that of the last one the filler, but the later
regions know nothing of the object.
-/
set_option autoImplicit false

namespace RegionHeap

/-- The regions of an object are set up below an index; those from there on are still free. -/
structure Placing (L : Layout) (t₀ : RegionTable) (first n j : Nat) (blocks : Nat → BlockTable)
    (t : RegionTable) : Prop where
  sited : t.Sited L
  memory : t.memory = t₀.memory
  shared : t.shared = t₀.shared
  config : t.config = t₀.config
  outside : ∀ k, ¬(first ≤ k ∧ k < first + n) → t.region k = t₀.region k
  starts : first < j → (t.region first).kind = .startsHumongous ∧
    (t.region first).humongousStart = some first
  later : ∀ k, first < k → k < j → (t.region k).kind = .continuesHumongous ∧
    (t.region k).humongousStart = some first
  free : ∀ k, j ≤ k → k < first + n → (t.region k).Vacant
  blocks : ∀ k, first ≤ k → k < first + n → (t.region k).blocks = blocks k
  reassigned : ∀ k, first ≤ k → k < first + n → (t₀.region k).Reassigned (t.region k)

namespace Placing

variable {L : Layout} {t₀ t : RegionTable} {first n i j j' : Nat} {r : Region}
  {blocks blocks' : Nat → BlockTable}

theorem start (ht : t.Sited L)
    (hfree : ∀ k, first ≤ k → k < first + n → (t.region k).Vacant) :
    Placing L t first n first (fun k => (t.region k).blocks) t where
  sited := ht
  memory := rfl
  shared := rfl
  config := rfl
  outside _ _ := rfl
  starts h := absurd h (Nat.lt_irrefl _)
  later k hfrom hto := absurd hto (by omega)
  free := hfree
  blocks _ _ _ := rfl
  reassigned _ _ _ := ⟨rfl, rfl, rfl⟩

theorem role (p : Placing L t₀ first n j blocks t) (hfrom : first ≤ i) (hto : i < j) :
    (t.region i).kind = (if i = first then .startsHumongous else .continuesHumongous) ∧
      (t.region i).humongousStart = some first := by
  rcases Nat.eq_or_lt_of_le hfrom with rfl | h
  · rw [if_pos rfl]
    exact p.starts hto
  · rw [if_neg (by omega)]
    exact p.later i h hto

/-- A region that is set up already, or the next one, is replaced by one with its role. -/
theorem put (p : Placing L t₀ first n j blocks t) (hl : first + n ≤ L.count)
    (hi : first ≤ i ∧ i < first + n) (hj : i ≤ j) (hj' : max j (i + 1) = j') (hr : r.Sited L i)
    (hk : r.kind = if i = first then .startsHumongous else .continuesHumongous)
    (hs : r.humongousStart = some first)
    (hb : ∀ k, blocks' k = if i = k then r.blocks else blocks k)
    (ha : (t.region i).Reassigned r) : Placing L t₀ first n j' blocks' (t.put i r) := by
  have hput := p.sited.region_put_of (show i < L.count by omega) r
  refine {
    sited := p.sited.put (by omega) hr
    memory := p.memory
    shared := p.shared
    config := p.config
    outside := fun k hk' => ?outside
    starts := fun hlt => ?starts
    later := fun k hfrom hto => ?later
    free := fun k hfrom hto => ?free
    blocks := fun k hfrom hto => ?blocks
    reassigned := fun k hfrom hto => ?reassigned }
  case outside =>
    rw [hput, if_neg (by omega)]
    exact p.outside k hk'
  case starts =>
    rw [hput]
    split
    · next e => exact ⟨hk.trans (if_pos e), hs⟩
    · exact p.starts (by omega)
  case later =>
    rw [hput]
    split
    · exact ⟨hk.trans (if_neg (by omega)), hs⟩
    · exact p.later k hfrom (by omega)
  case free =>
    rw [hput, if_neg (by omega)]
    exact p.free k (by omega) hto
  case blocks =>
    rw [hput, hb]
    split
    · rfl
    · exact p.blocks k hfrom hto
  case reassigned =>
    rw [hput]
    split
    · next e =>
      subst e
      exact (p.reassigned i hfrom hto).trans ha
    · exact p.reassigned k hfrom hto

theorem again (p : Placing L t₀ first n j blocks t) (hl : first + n ≤ L.count)
    (hj : j ≤ first + n) (hi : first ≤ i ∧ i < j) (hr : r.Sited L i)
    (hk : r.kind = (t.region i).kind) (hs : r.humongousStart = (t.region i).humongousStart)
    (hb : ∀ k, blocks' k = if i = k then r.blocks else blocks k)
    (ha : (t.region i).Reassigned r) : Placing L t₀ first n j blocks' (t.put i r) := by
  obtain ⟨hkind, hstart⟩ := p.role hi.1 hi.2
  exact p.put hl (by omega) (by omega) (by omega) hr (hk.trans hkind) (hs.trans hstart) hb ha

theorem top (p : Placing L t₀ first n (first + n) blocks t) (hl : first + n ≤ L.count)
    (hi : first ≤ i ∧ i < first + n) {top : Nat}
    (hr : ({ t.region i with top := top } : Region).Whole) :
    Placing L t₀ first n (first + n) blocks (t.put i { t.region i with top := top }) := by
  have s := p.sited.region i (by omega)
  refine p.again hl (Nat.le_refl _) hi ⟨hr, s.index, s.bottom, s.limit⟩ rfl rfl (fun k => ?_)
    ⟨rfl, rfl, rfl⟩
  split
  · next e =>
    subst e
    exact (p.blocks i hi.1 hi.2).symm
  · rfl

theorem next (p : Placing L t₀ first n j blocks t) (hl : first + n ≤ L.count) (hj : first < j)
    (hlt : j < first + n) (hr : r.Sited L j) (hk : r.kind = .continuesHumongous)
    (hs : r.humongousStart = some first) (hb : r.blocks = (t.region j).blocks)
    (ha : (t.region j).Reassigned r) : Placing L t₀ first n (j + 1) blocks (t.put j r) := by
  refine p.put hl (by omega) (Nat.le_refl j) (by omega) hr (hk.trans (if_neg (by omega)).symm) hs
    (fun k => ?_) ha
  split
  · next e =>
    subst e
    rw [hb]
    exact (p.blocks j (by omega) hlt).symm
  · rfl

theorem begin (ht : t.Sited L) (hl : first + n ≤ L.count) (hn : 0 < n)
    (hfree : ∀ k, first ≤ k → k < first + n → (t.region k).Vacant)
    (hr : r.Sited L first) (hk : r.kind = .startsHumongous) (hs : r.humongousStart = some first)
    (ha : (t.region first).Reassigned r) :
    Placing L t first n (first + 1)
      (fun k => if first = k then r.blocks else (t.region k).blocks) (t.put first r) :=
  (start ht hfree).put hl (by omega) (Nat.le_refl first) (by omega) hr
    (hk.trans (if_pos rfl).symm) hs (fun _ => rfl) ha

theorem continue_of (p : Placing L t₀ first n (first + 1) blocks t) (hl : first + n ≤ L.count)
    (hn : 0 < n) : ∃ t', (List.range' (first + 1) (n - 1)).foldlM (fun (t : RegionTable) i => do
        let head ← t.get first
        t.update i fun r => r.continueHumongous head) t = .ok t' ∧
      Placing L t₀ first n (first + n) blocks t' := by
  obtain ⟨t', ht, p'⟩ := Checked.foldlM_range'_of (s := first + 1) (n := n - 1)
    (f := fun (t : RegionTable) i => do
      let head ← t.get first
      t.update i fun r => r.continueHumongous head)
    (fun j t => Placing L t₀ first n j blocks t)
    (fun j t hfrom hto p => by
      have hjl : j < L.count := by omega
      have hget := p.sited.get_of (show first < L.count by omega)
      have hlj := p.sited.region j hjl
      have hindex : (t.region first).index = first := (p.sited.region first (by omega)).index
      have hc := (p.free j (Nat.le_refl _) (by omega)).continueHumongous_of (p.starts (by omega)).1
      refine ⟨_, ?_, p.next hl (by omega) (by omega) (hlj.withKind .continuesHumongous
        (some (t.region first).index)) rfl (by rw [hindex]) rfl ⟨rfl, rfl, rfl⟩⟩
      rw [Checked.bind_of hget]
      exact p.sited.update_of hjl hc)
    t p
  exact ⟨t', ht, by rwa [show first + 1 + (n - 1) = first + n by omega] at p'⟩

theorem recordTail_of (p : Placing L t₀ first n (first + n) blocks t) (hl : first + n ≤ L.count)
    (hn : 0 < n) {stop fill : Nat} (hfit : stop + 8 * fill ≤ L.bottom (first + n)) :
    ∃ blocks' t', (if 1 < n ∧ 0 < fill then t.update (first + n - 1) fun r =>
        r.recordBlock stop (stop + 8 * fill) else pure t) = .ok t' ∧
      Placing L t₀ first n (first + n) blocks' t' ∧ blocks' first = blocks first ∧
      (∀ k, k + 1 < first + n → blocks' k = blocks k) ∧
      (1 < n → ∀ c, L.bottom (first + n - 1) + c * 512 < stop + 8 * fill →
        Table.entry (blocks' (first + n - 1)).starts c =
          if stop ≤ L.bottom (first + n - 1) + c * 512 then stop
          else Table.entry (blocks (first + n - 1)).starts c) := by
  have hlast : first + n - 1 < L.count := by omega
  have htail := p.sited.region (first + n - 1) hlast
  have hlimit := L.bottom_of_pos (i := first + n) (by omega)
  by_cases hc : 1 < n ∧ 0 < fill
  · obtain ⟨b, hb, hlb, hentry⟩ := htail.recordBlock_of (show stop < stop + 8 * fill by omega)
    refine ⟨fun k => if first + n - 1 = k then b else blocks k, _,
      by rw [if_pos hc]; exact p.sited.update_of hlast hb,
      p.again hl (Nat.le_refl _) (by omega) ⟨hlb, htail.index, htail.bottom, htail.limit⟩ rfl rfl
        (fun k => rfl) ⟨rfl, rfl, rfl⟩, if_neg (by omega), fun k hk => if_neg (by omega),
      fun _ c hlt => ?_⟩
    rw [htail.bottom] at hentry
    dsimp only
    rw [if_pos rfl, hentry c (by rw [htail.limit]; omega), p.blocks _ (by omega) (by omega)]
    by_cases hle : stop ≤ L.bottom (first + n - 1) + c * 512
    · rw [if_pos ⟨hle, hlt⟩, if_pos hle]
    · rw [if_neg fun h => hle h.1, if_neg hle]
  · exact ⟨blocks, t, by rw [if_neg hc]; rfl, p, rfl, fun _ _ => rfl,
      fun hmany c hlt => by rw [if_neg (by omega)]⟩

theorem raise_of (p : Placing L t₀ first n (first + n) blocks t) (hl : first + n ≤ L.count)
    (hn : 0 < n) : ∃ t', (List.range' first (n - 1)).foldlM (fun (t : RegionTable) i =>
        t.update i fun r => r.setTop r.limit) t = .ok t' ∧
      Placing L t₀ first n (first + n) blocks t' ∧
      ∀ k, first ≤ k → k < first + (n - 1) → (t'.region k).top = L.bottom (k + 1) := by
  obtain ⟨t', ht, p'⟩ := Checked.foldlM_range'_of (s := first) (n := n - 1)
    (f := fun (t : RegionTable) i => t.update i fun r => r.setTop r.limit)
    (fun j t => Placing L t₀ first n (first + n) blocks t ∧
      ∀ k, first ≤ k → k < j → (t.region k).top = L.bottom (k + 1))
    (fun j t hfrom hto ⟨p, full⟩ => by
      have hjl : j < L.count := by omega
      have hlj := p.sited.region j hjl
      have hlim := hlj.limit
      obtain ⟨htop, hw⟩ := hlj.setTop_of (Nat.le_trans hlj.bottom_le hlj.top_le) (Nat.le_refl _)
      refine ⟨_, p.sited.update_of (f := fun r => r.setTop r.limit) hjl htop,
        p.top hl ⟨hfrom, by omega⟩ hw, fun k hfrom' hto' => ?_⟩
      rw [p.sited.region_put_of hjl]
      split
      · next e =>
        subst e
        rw [L.bottom_succ]
        exact hlj.limit
      · exact full k hfrom' (by omega))
    t ⟨p, fun k hfrom hto => by omega⟩
  exact ⟨t', ht, p'⟩

theorem settle_of (p : Placing L t₀ first n (first + n) blocks t) (hl : first + n ≤ L.count)
    (hn : 0 < n) (full : ∀ k, first ≤ k → k < first + (n - 1) → (t.region k).top = L.bottom (k + 1))
    (unused : Nat) (hroom : L.bottom (first + n - 1) + 8 * unused ≤ L.bottom (first + n)) :
    ∃ t', (t.update (first + n - 1) fun r => r.setTop (r.limit - 8 * unused)) = .ok t' ∧
      Placing L t₀ first n (first + n) blocks t' ∧
      (∀ k, first ≤ k → k + 1 < first + n → (t'.region k).top = L.bottom (k + 1)) ∧
      (t'.region (first + n - 1)).top = L.bottom (first + n) - 8 * unused := by
  have hlast : first + n - 1 < L.count := by omega
  have htail := p.sited.region (first + n - 1) hlast
  have hlimit : (t.region (first + n - 1)).limit = L.bottom (first + n) := by
    rw [htail.limit, L.bottom_of_pos (i := first + n) (by omega)]
  have hbottom := htail.bottom
  obtain ⟨htop, hw⟩ := htail.setTop_of
    (show _ ≤ (t.region (first + n - 1)).limit - 8 * unused by omega) (Nat.sub_le _ _)
  have hput := p.sited.region_put_of hlast { t.region (first + n - 1) with
    top := (t.region (first + n - 1)).limit - 8 * unused }
  refine ⟨_, p.sited.update_of hlast (f := fun r => r.setTop (r.limit - 8 * unused)) htop,
    p.top hl (i := first + n - 1) (by omega) hw,
    fun k hfrom hto => ?_, ?_⟩
  · rw [hput, if_neg (by omega)]
    exact full k hfrom (by omega)
  · rw [hput, if_pos rfl, ← hlimit]

end Placing

theorem Object.size_filler {m : Memory} {o words : Nat} (h : words < Object.sizeLimit)
    (hk : Object.klass m o = words ||| Object.fillerBit) : Object.size m o = words := by
  have h' : words < 2 ^ 32 := h
  rw [Object.size, hk, show Object.sizeLimit = 2 ^ 32 from rfl, Nat.or_mod_two_pow,
    Nat.mod_eq_of_lt h', show Object.fillerBit % 2 ^ 32 = 0 by decide, Nat.or_zero]

/-- The words from an address up to another one are a filler. -/
structure Object.Fills (m : Memory) (a b : Nat) : Prop where
  isFiller : isFiller m a = true
  limit : limit m a = b

theorem Object.Fills.congr {m m' : Memory} {a b : Nat} (f : Fills m a b)
    (h : klass m' a = klass m a) : Fills m' a b :=
  ⟨by rw [Object.isFiller, h]; exact f.isFiller, (limit_congr h).trans f.limit⟩

theorem Object.fills_of {m : Memory} {a words : Nat} (h : words < sizeLimit)
    (hk : klass m a = words ||| fillerBit) : Fills m a (a + 8 * words) := by
  refine ⟨?_, by rw [limit, size_filler h hk]⟩
  rw [isFiller, hk, Nat.testBit_or, show fillerBit.testBit 63 = true by decide, Bool.or_true]

theorem RegionTable.fill_of (t : RegionTable) (a : Nat) {words : Nat} (h : 2 ≤ words) :
    ∃ m, t.fill a words = .ok { t with memory := m } ∧
      (∀ b, b < a ∨ a + 16 ≤ b → m.read b = t.memory.read b) ∧
      (words < Object.sizeLimit → Object.Fills m a (a + 8 * words)) := by
  refine ⟨(t.memory.write a 0).write (a + 8) (words ||| Object.fillerBit), ?_, fun b hb => ?_,
    fun hw => ?_⟩
  · have hmin : decide (Object.minFillWords ≤ words) = true := decide_eq_true h
    rw [fill, Object.fill, Checked.unless_of hmin]
    rfl
  · rw [Memory.read_write_of_ne _ _ (by omega), Memory.read_write_of_ne _ _ (by omega)]
  · exact Object.fills_of hw (Memory.read_write_self ..)

theorem RegionTable.fillGap_of (t : RegionTable) {L : Layout} (stop : Nat) {gap fill : Nat}
    (hgap : 8 * gap ≤ L.bytes) (hfill : fill = 0 ∧ gap ≤ 1 ∨ fill = gap ∧ 2 ≤ gap) :
    ∃ m, (if fill = 0 then pure t else t.fill stop fill) = .ok { t with memory := m } ∧
      (∀ a, a < stop ∨ stop + 8 * gap ≤ a → m.read a = t.memory.read a) ∧
      (L.words < Object.sizeLimit → 2 ≤ gap → Object.Fills m stop (stop + 8 * gap)) ∧
      (gap ≤ 1 → m = t.memory) := by
  by_cases hz : fill = 0
  · exact ⟨t.memory, by rw [if_pos hz]; rfl, fun _ _ => rfl, fun _ _ => by omega, fun _ => rfl⟩
  · obtain ⟨m, hm, hread, hsize⟩ := RegionTable.fill_of t stop (show 2 ≤ fill by omega)
    refine ⟨m, by rw [if_neg hz, hm], fun a ha => hread a (by omega), fun hw _ => ?_,
      fun _ => by omega⟩
    have := L.bytes_eq
    obtain rfl : fill = gap := by omega
    exact hsize (by omega)

/-- How far the regions of a humongous object that ends at an address are in use, and what their
block tables know below that. -/
structure RegionTable.Seated (t : RegionTable) (L : Layout) (first n stop : Nat) : Prop where
  full : ∀ k, first ≤ k → k + 1 < first + n → (t.region k).top = L.bottom (k + 1)
  last : (t.region (first + n - 1)).top =
    if L.bottom (first + n) < stop + 16 then stop else L.bottom (first + n)
  known : ∀ k, first ≤ k → k < first + n → ∀ c, L.bottom k + c * 512 < (t.region k).top →
    Table.entry (t.region k).blocks.starts c =
      if stop ≤ L.bottom k + c * 512 then stop else if k = first then L.bottom first else 0

theorem RegionTable.Seated.covered {t : RegionTable} {L : Layout} {first n stop k : Nat}
    (s : t.Seated L first n stop) (hfit : stop ≤ L.bottom (first + n)) (hfrom : first ≤ k)
    (hto : k < first + n) : min stop (L.bottom (k + 1)) ≤ (t.region k).top := by
  by_cases hk : k + 1 < first + n
  · rw [s.full k hfrom hk]
    omega
  · obtain rfl : k = first + n - 1 := by omega
    rw [s.last, show first + n - 1 + 1 = first + n by omega]
    split <;> omega

theorem RegionTable.Seated.congr {t t' : RegionTable} {L : Layout} {first n stop : Nat}
    (s : t.Seated L first n stop) (hn : 0 < n)
    (h : ∀ k, first ≤ k → k < first + n → (t'.region k).top = (t.region k).top ∧
      (t'.region k).blocks = (t.region k).blocks) : t'.Seated L first n stop := by
  refine ⟨fun k hfrom hto => ?_, ?_, fun k hfrom hto c hc => ?_⟩
  · rw [(h k hfrom (by omega)).1, s.full k hfrom hto]
  · rw [(h _ (by omega) (by omega)).1, s.last]
  · rw [(h k hfrom hto).1] at hc
    rw [(h k hfrom hto).2, s.known k hfrom hto c hc]

/-- The regions of an object are in use, and their tables know of the object in the first one and of
the filler in the last one. -/
theorem Placing.seated_of {L : Layout} {t₀ t : RegionTable} {first n stop gap fill : Nat}
    {blocks : Nat → BlockTable} (p : Placing L t₀ first n (first + n) blocks t)
    (hl : first + n ≤ L.count) (hn : 0 < n) (hneed : L.bottom (first + n - 1) < stop)
    (hgap : L.bottom (first + n) = stop + 8 * gap)
    (hfill : fill = 0 ∧ gap ≤ 1 ∨ fill = gap ∧ 2 ≤ gap)
    (hfull : ∀ k, first ≤ k → k + 1 < first + n → (t.region k).top = L.bottom (k + 1))
    (htail : (t.region (first + n - 1)).top = stop + 8 * fill)
    (hhead : ∀ c, L.bottom first + c * 512 < (t.region first).limit →
      L.bottom first + c * 512 < stop + 8 * fill →
      Table.entry (blocks first).starts c =
        if stop ≤ L.bottom first + c * 512 then stop else L.bottom first)
    (hnone : ∀ k, first < k → k + 1 < first + n → ∀ c, Table.entry (blocks k).starts c = 0)
    (hlast : 1 < n → ∀ c, L.bottom (first + n - 1) + c * 512 < stop + 8 * fill →
      Table.entry (blocks (first + n - 1)).starts c =
        if stop ≤ L.bottom (first + n - 1) + c * 512 then stop else 0) :
    t.Seated L first n stop := by
  refine ⟨hfull, ?_, fun k hfrom hto c hc => ?_⟩
  · rw [htail]
    split <;> omega
  · rw [p.blocks k hfrom hto]
    by_cases hk : k = first
    · subst hk
      rw [if_pos rfl]
      have hreach : (t.region k).top ≤ stop + 8 * fill := by
        by_cases hone : n = 1
        · subst hone
          exact Nat.le_of_eq htail
        · rw [hfull k (Nat.le_refl _) (by omega)]
          have := L.bottom_mono (show k + 1 ≤ k + n - 1 by omega)
          omega
      have := (p.sited.region k (by omega)).top_le
      exact hhead c (by omega) (by omega)
    · rw [if_neg hk]
      by_cases hend : k + 1 < first + n
      · rw [hnone k (by omega) hend, if_neg]
        rw [hfull k hfrom hend] at hc
        have := L.bottom_mono (show k + 1 ≤ first + n - 1 by omega)
        omega
      · obtain rfl : k = first + n - 1 := by omega
        exact hlast (by omega) c (by omega)

/-- An object that ends at a given place was put into free regions. -/
structure Placed (L : Layout) (t : RegionTable) (first n stop : Nat) (t' : RegionTable) : Prop where
  placing : ∃ blocks, Placing L { t with memory := t'.memory } first n (first + n) blocks t'
  full : ∀ k, first ≤ k → k + 1 < first + n → (t'.region k).top = L.bottom (k + 1)
  last : (t'.region (first + n - 1)).top =
    if L.bottom (first + n) < stop + 16 then stop else L.bottom (first + n)
  seated : (∀ k, first ≤ k → k < first + n → (t.region k).Blank) → t'.Seated L first n stop
  memory : ∀ a, a < stop ∨ L.bottom (first + n) ≤ a → t'.memory.read a = t.memory.read a
  filler : L.words < Object.sizeLimit → stop + 16 ≤ L.bottom (first + n) →
    Object.Fills t'.memory stop (L.bottom (first + n))
  unfilled : L.bottom (first + n) < stop + 16 → t'.memory = t.memory

theorem RegionTable.placeHumongous_eq {L : Layout} {t : RegionTable}
    {first n words stop gap fill : Nat} (ht : t.Sited L) (hn : 0 < n) (hl : first + n ≤ L.count)
    (hstop : L.bottom first + 8 * words = stop) (hneed : L.bottom (first + n - 1) < stop)
    (hgap : L.bottom (first + n) = stop + 8 * gap)
    (hfill : (if Object.minFillWords ≤ gap then gap else 0) = fill) :
    t.placeHumongous first n (L.bottom first) words = (do
      let t ← if fill = 0 then pure t else t.fill stop fill
      let t ← t.update first fun r => r.startHumongous stop fill
      let t ← (List.range' (first + 1) (n - 1)).foldlM (fun t i => do
        let head ← t.get first
        t.update i fun r => r.continueHumongous head) t
      let t ← if 1 < n ∧ 0 < fill then
          t.update (first + n - 1) fun r => r.recordBlock stop (stop + 8 * fill)
        else pure t
      let t ← (List.range' first (n - 1)).foldlM (fun t i => t.update i fun r => r.setTop r.limit) t
      t.update (first + n - 1) fun r => r.setTop (r.limit - 8 * (gap - fill))) := by
  have hfirst : first < L.count := by omega
  have hlast : first + n - 1 < L.count := by omega
  have hlf := ht.region first hfirst
  have htail := ht.region (first + n - 1) hlast
  have hlimit : (t.region (first + n - 1)).limit = stop + 8 * gap := by
    rw [htail.limit, ← L.bottom_of_pos (by omega), hgap]
  have hbound : L.bottom (first + n) < Word.limit :=
    Nat.lt_of_le_of_lt (Layout.bottom_mono hl) L.limit_lt
  have hobject : (L.bottom first == (t.region first).bottom) = true := by
    rw [hlf.bottom]
    exact beq_self_eq_true _
  have hadd : Address.addWords (L.bottom first) words = .ok stop :=
    hstop ▸ Address.addWords_of (by omega)
  have hcheck : (decide (stop ≤ (t.region (first + n - 1)).limit) &&
      decide ((t.region (first + n - 1)).bottom < stop)) = true := by
    rw [hlimit, htail.bottom]
    simp only [Bool.and_eq_true, decide_eq_true_eq]
    omega
  have hwords : ((t.region (first + n - 1)).limit - stop) / 8 = gap := by
    rw [hlimit]
    omega
  rw [placeHumongous, Checked.bind_of (ht.get_of hfirst)]
  dsimp only
  rw [Checked.bind_of (ht.get_of hlast), Checked.unless_of hobject, Checked.ok_bind,
    Checked.bind_of hadd, Checked.unless_of hcheck, Checked.ok_bind, hwords, hfill]

/-- Placing a humongous object into free regions that it needs all of. -/
theorem RegionTable.placeHumongous_of {L : Layout} {t : RegionTable} {first n words : Nat}
    (ht : t.Sited L) (hn : 0 < n) (hl : first + n ≤ L.count)
    (hfree : ∀ k, first ≤ k → k < first + n → (t.region k).Vacant)
    (hfit : L.bottom first + 8 * words ≤ L.bottom (first + n))
    (hneed : L.bottom (first + n - 1) < L.bottom first + 8 * words) :
    ∃ t', t.placeHumongous first n (L.bottom first) words = .ok t' ∧
      Placed L t first n (L.bottom first + 8 * words) t' := by
  have hfirst : first < L.count := by omega
  have hlimit := L.bottom_of_pos (i := first + n) (by omega)
  have hbound : L.bottom (first + n) < Word.limit :=
    Nat.lt_of_le_of_lt (Layout.bottom_mono hl) L.limit_lt
  have hmod := L.bottom_mod first
  have hmod' := L.bottom_mod (first + n)
  have hlf := ht.region first hfirst
  have hlen := L.bottom_mono (show first ≤ first + n - 1 by omega)
  obtain ⟨stop, hstop⟩ : ∃ stop, L.bottom first + 8 * words = stop := ⟨_, rfl⟩
  rw [hstop] at hfit hneed ⊢
  obtain ⟨gap, hgap⟩ : ∃ gap, L.bottom (first + n) = stop + 8 * gap :=
    ⟨(L.bottom (first + n) - stop) / 8, by omega⟩
  obtain ⟨fill, hfill, hcases⟩ : ∃ fill, (if Object.minFillWords ≤ gap then gap else 0) = fill ∧
      (fill = 0 ∧ gap ≤ 1 ∨ fill = gap ∧ 2 ≤ gap) := by
    refine ⟨_, rfl, ?_⟩
    unfold Object.minFillWords
    split <;> omega
  -- one step after the other
  obtain ⟨m, hm, hread, hfiller, hnone⟩ := t.fillGap_of (L := L) stop (by omega) hcases
  have ht₁ : ({ t with memory := m } : RegionTable).Sited L := ht.withMemory m
  obtain ⟨b, hstart, hwhole, hentry⟩ := (hfree first (Nat.le_refl _) (by omega)).startHumongous_of
    hlf.toWhole (show (t.region first).bottom < stop by rw [hlf.bottom]; omega)
    (show stop + 8 * fill < Word.limit by omega)
  have p₁ := Placing.begin ht₁ hl hn hfree ⟨hwhole, hlf.index, hlf.bottom, hlf.limit⟩ rfl
    (by rw [hlf.index]) ⟨rfl, rfl, rfl⟩
  obtain ⟨t₂, h₂, p₂⟩ := p₁.continue_of hl hn
  obtain ⟨blocks, t₃, h₃, p₃, hfirst₃, hlater₃, hlast₃⟩ := p₂.recordTail_of hl hn
    (show stop + 8 * fill ≤ L.bottom (first + n) by omega)
  rw [if_pos rfl] at hfirst₃
  obtain ⟨t₄, h₄, p₄, full⟩ := p₃.raise_of hl hn
  obtain ⟨t₅, h₅, p₅, hfull, htop⟩ := p₄.settle_of hl hn full (gap - fill) (by omega)
  have hmem : t₅.memory = m := p₅.memory
  refine ⟨t₅, ?_, ⟨blocks, hmem ▸ p₅⟩, hfull, by rw [htop]; split <;> omega, fun hblank => ?_,
    by rw [hmem, hgap]; exact hread, fun hw hroom => ?_, fun hno => ?_⟩
  · have hupdate₁ := ht₁.update_of hfirst (f := fun r => r.startHumongous stop fill) hstart
    rw [placeHumongous_eq ht hn hl hstop hneed hgap hfill]
    dsimp only
    rw [Checked.ite_bind, Checked.bind_of hm, Checked.bind_of hupdate₁, Checked.bind_of h₂,
      Checked.ite_bind, Checked.bind_of h₃, Checked.bind_of h₄]
    exact h₅
  · refine p₅.seated_of hl hn hneed hgap hcases hfull (by omega) (fun c hfits hcovered => ?_)
      (fun k hfrom hlt c => ?_) fun hone c hcovered => ?_
    · rw [(p₅.sited.region first hfirst).limit, ← hlf.limit] at hfits
      rw [hfirst₃]
      rw [hlf.bottom] at hentry
      exact hentry c hfits hcovered
    · rw [hlater₃ k hlt, if_neg (by omega)]
      exact (hblank k (by omega) (by omega)).entry_eq c
    · rw [hlast₃ hone c hcovered, if_neg (show ¬first = first + n - 1 by omega)]
      exact congrArg _ ((hblank _ (by omega) (by omega)).entry_eq c)
  · rw [hmem, hgap]
    exact hfiller hw (by omega)
  · rw [hmem]
    exact hnone (by omega)

namespace Placed

variable {L : Layout} {t t' : RegionTable} {first n stop k : Nat}

theorem sited (p : Placed L t first n stop t') : t'.Sited L := p.placing.elim fun _ q => q.sited

theorem shared (p : Placed L t first n stop t') : t'.shared = t.shared :=
  p.placing.elim fun _ q => q.shared

theorem outside (p : Placed L t first n stop t') (hk : ¬(first ≤ k ∧ k < first + n)) :
    t'.region k = t.region k :=
  p.placing.elim fun _ q => q.outside k hk

theorem starts (p : Placed L t first n stop t') (hn : 0 < n) :
    (t'.region first).kind = .startsHumongous ∧ (t'.region first).humongousStart = some first :=
  p.placing.elim fun _ q => q.starts (by omega)

theorem later (p : Placed L t first n stop t') (hlt : first < k) (hto : k < first + n) :
    (t'.region k).kind = .continuesHumongous ∧ (t'.region k).humongousStart = some first :=
  p.placing.elim fun _ q => q.later k hlt hto

theorem laid (p : Placed L t first n stop t') (ht : t.Laid L) (ha : stop % 8 = 0) : t'.Laid L := by
  refine ⟨p.sited.size, fun k hk => (p.sited.region k hk).laid ?_⟩
  by_cases hin : first ≤ k ∧ k < first + n
  · by_cases hlast : k + 1 < first + n
    · rw [p.full k hin.1 hlast]
      exact L.bottom_mod _
    · obtain rfl : k = first + n - 1 := by omega
      rw [p.last]
      split
      · exact ha
      · exact L.bottom_mod _
  · rw [p.outside hin]
    exact (ht.region k hk).aligned

end Placed

end RegionHeap
