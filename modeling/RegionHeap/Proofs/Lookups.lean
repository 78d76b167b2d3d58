import RegionHeap.Proofs.History

/-!
Looking up what covers an address. In a region that is filled with objects the lookup finds the
object. Of a humongous object only the first region knows where it begins; the later ones know at
most where the filler behind it does, so that a lookup there reads the words of the object as if
they were headers.
-/
set_option autoImplicit false

namespace RegionHeap.Heap

variable {h : Heap} {L : Layout} {i k s a : Nat}

namespace Tidy

variable (t : h.Tidy L)

include t

theorem blockStart_eq (hi : i < L.count) (ha : a < (h.region i).top) :
    h.table.blockStart i a = (h.region i).blocks.blockStart h.memory a := by
  have hget : h.table.get i = .ok (h.region i) := t.table.get_of hi
  rw [RegionTable.blockStart, Checked.bind_of hget, Region.blockStart,
    Checked.unless_of (decide_eq_true ha)]
  rfl

theorem blockStart_of_ordinary (hi : i < L.count) (hk : (h.region i).kind.isOrdinary)
    (hb : L.bottom i ≤ a) (ha : a < (h.region i).top) :
    ∃ o ∈ h.objectsIn i, o ≤ a ∧ a < Object.limit h.memory o ∧ h.table.blockStart i a = .ok o := by
  have hl := t.laid hi
  have hc := t.chain hi hk
  obtain ⟨o, ho, hfrom, hto⟩ := hc.exists_covering hb ha
  rw [← hl.blocksBottom] at hb hc
  refine ⟨o, ho, hfrom, hto, (t.blockStart_eq hi ha).trans ?_⟩
  refine BlockTable.blockStart_of (.of_laid hl) hc (t.blocks i hi hk) hb ha ?_ ho hfrom hto
  rw [hl.blocksLimit]
  have := hl.top_le
  omega

/-- The walk from a humongous object, or from the filler behind it. -/
theorem covering_of_humongous (hs : s < L.count) (hk : (h.region s).kind.isStartsHumongous)
    {x : Nat} (hx : x = L.bottom s ∨ x = Object.limit h.memory (L.bottom s)) (hle : x ≤ a)
    (ha : a < (h.region (s + h.humongousSpan (h.region s) - 1)).top ∨
      a < Object.limit h.memory (L.bottom s)) :
    Object.covering h.memory x a = .ok (if a < Object.limit h.memory (L.bottom s) then L.bottom s
      else Object.limit h.memory (L.bottom s)) := by
  have hsize := t.size_ge (t.humongous_isObject hs hk)
  obtain ⟨seat, hfiller⟩ := t.seated s hs hk
  have hlast : (h.region (s + h.humongousSpan (h.region s) - 1)).top = _ := seat.last
  have hpos : 0 < Object.size h.memory (L.bottom s) := by omega
  have hlt := Object.lt_limit hpos
  obtain ⟨stop, hstop⟩ : ∃ stop, Object.limit h.memory (L.bottom s) = stop := ⟨_, rfl⟩
  rw [hstop] at hx hfiller hlt ha hlast ⊢
  by_cases hin : a < stop
  · have hchain : Object.Chain h.memory (L.bottom s) [L.bottom s] stop :=
      hstop ▸ .cons hpos (.nil _)
    obtain rfl : x = L.bottom s := by omega
    rw [if_pos hin]
    exact hchain.covering_eq (by simp) (by simp) hle hle (hstop ▸ hin)
  · rw [if_neg hin]
    -- behind the object only a filler is in use
    have hroom : stop + 16 ≤ L.bottom (s + h.humongousSpan (h.region s)) := by
      refine Nat.le_of_not_lt fun hno => ?_
      rw [if_pos hno] at hlast
      omega
    rw [if_neg (by omega)] at hlast
    have hend := hfiller hroom
    have hfill : 0 < Object.size h.memory stop := by
      unfold Object.limit at hend
      omega
    have hchain : Object.Chain h.memory (L.bottom s) [L.bottom s, stop]
        (L.bottom (s + h.humongousSpan (h.region s))) :=
      .cons hpos (hstop.symm ▸ .cons hfill (hend ▸ .nil _))
    refine hchain.covering_eq (by simp [hx]) (by simp) hle (by omega) ?_
    rw [hend]
    omega

theorem blockStart_of_humongous (hs : s < L.count) (hk : (h.region s).kind.isStartsHumongous)
    (hfrom : s ≤ k) (hto : k < s + h.humongousSpan (h.region s)) (hb : L.bottom k ≤ a)
    (ha : a < (h.region k).top) :
    h.table.blockStart k a =
      if k = s ∨ Object.limit h.memory (L.bottom s) ≤ L.bottom k + (a - L.bottom k) / 512 * 512 then
        .ok (if a < Object.limit h.memory (L.bottom s) then L.bottom s
          else Object.limit h.memory (L.bottom s))
      else Object.covering h.memory (L.bottom k) a := by
  have hspans := t.humongous s hs hk
  have hkl : k < L.count := Nat.lt_of_lt_of_le hto hspans.within
  have hl := t.laid hkl
  obtain ⟨seat, -⟩ := t.seated s hs hk
  have htop := hl.top_le
  have hsucc := L.bottom_succ k
  have hstop := t.span_lt_limit hs hk
  have hpos := L.bottom_pos k
  have hlt := Object.lt_limit
    (Nat.lt_of_lt_of_le Nat.two_pos (t.size_ge (t.humongous_isObject hs hk)))
  obtain ⟨-, -, hentry⟩ := BlockTable.entry_of (.of_laid hl) (hl.blocksBottom.symm ▸ hb)
    (show a < (h.region k).blocks.limit by rw [hl.blocksLimit]; omega)
  rw [hl.blocksBottom] at hentry
  have hknown : Table.entry (h.region k).blocks.starts ((a - L.bottom k) / 512) = _ :=
    seat.known k hfrom hto ((a - L.bottom k) / 512) (show _ < (h.region k).top by omega)
  rw [hknown] at hentry
  -- the last region is the only one with addresses behind the object
  have hreach : a < (h.region (s + h.humongousSpan (h.region s) - 1)).top ∨
      a < Object.limit h.memory (L.bottom s) := by
    rcases Nat.lt_or_ge (k + 1) (s + h.humongousSpan (h.region s)) with hmore | hlast
    · have := L.bottom_mono (show k + 1 ≤ s + h.humongousSpan (h.region s) - 1 by omega)
      exact .inr (by omega)
    · rw [show s + h.humongousSpan (h.region s) - 1 = k by omega]
      exact .inl ha
  rw [t.blockStart_eq hkl ha, BlockTable.blockStart]
  by_cases hbehind : Object.limit h.memory (L.bottom s) ≤ L.bottom k + (a - L.bottom k) / 512 * 512
  · rw [if_pos hbehind, if_neg (by omega)] at hentry
    rw [if_pos (.inr hbehind), Checked.bind_of hentry,
      Checked.unless_of (decide_eq_true (by omega)),
      Checked.ok_bind]
    exact t.covering_of_humongous hs hk (.inr rfl) (by omega) hreach
  · rw [if_neg hbehind] at hentry
    by_cases hfirst : k = s
    · subst hfirst
      rw [if_pos rfl, if_neg (by omega)] at hentry
      rw [if_pos (.inl rfl), Checked.bind_of hentry, Checked.unless_of (decide_eq_true hb),
        Checked.ok_bind]
      exact t.covering_of_humongous hs hk (.inl rfl) hb hreach
    · rw [if_neg hfirst, if_pos rfl] at hentry
      rw [if_neg (by simp [hfirst, hbehind]), Checked.bind_of hentry,
        Checked.unless_of (decide_eq_true hb)]
      rfl

end Tidy

/-- In a heap that was operated on and collected, every region that is filled with objects is filled
without a gap, and a lookup of any address in it finds the object that covers it. -/
theorem Made.blockStart_finds_object (m : h.Made) (hi : i < h.regionCount)
    (hk : (h.region i).kind.isOrdinary) :
    (h.region i).isDense h.memory = true ∧
      ∀ a, (h.region i).bottom ≤ a → a < (h.region i).top →
        ∃ o ∈ (h.region i).objects h.memory, o ≤ a ∧ a < Object.limit h.memory o ∧
          h.table.blockStart i a = .ok o := by
  obtain ⟨L, t⟩ := m.tidy
  rw [t.regionCount] at hi
  refine ⟨t.dense i hi hk, fun a hb ha => ?_⟩
  rw [(t.laid hi).bottom] at hb
  obtain ⟨o, ho, hfound⟩ := t.blockStart_of_ordinary hi hk hb ha
  rw [Built.objectsIn_ordinary hk] at ho
  exact ⟨o, ho, hfound⟩

theorem blockStart_in_sample : ∃ h, sample = .ok h ∧ h.Made ∧ (h.region 0).kind.isOrdinary = true ∧
    ∃ o ∈ (h.region 0).objects h.memory, o ≤ sampleWord 0 5 ∧
      sampleWord 0 5 < Object.limit h.memory o ∧ h.table.blockStart 0 (sampleWord 0 5) = .ok o := by
  obtain ⟨h, hs, m⟩ := sample_made
  have hi := of_sample (f := fun h => decide (0 < h.regionCount)) (v := true) hs (by decide +kernel)
  have hk := of_sample (f := fun h => (h.region 0).kind.isOrdinary) (v := true) hs
    (by decide +kernel)
  have hin := of_sample (f := fun h => decide ((h.region 0).bottom ≤ sampleWord 0 5 ∧
    sampleWord 0 5 < (h.region 0).top)) (v := true) hs (by decide +kernel)
  obtain ⟨hb, ha⟩ := of_decide_eq_true hin
  exact ⟨h, hs, m, hk, (m.blockStart_finds_object (of_decide_eq_true hi) hk).2 _ hb ha⟩

/-- In the regions of a humongous object a lookup finds the object or the filler behind it if the
region is the first one, or if the object ends before the card of the address begins. Any other
lookup reads what lies at the bottom of the region as a header, and is refused if that is zero. -/
theorem Made.blockStart_humongous (m : h.Made) (hs : s < h.regionCount)
    (hk : (h.region s).kind.isStartsHumongous) (hfrom : s ≤ k)
    (hto : k < s + h.humongousSpan (h.region s)) (hb : (h.region k).bottom ≤ a)
    (ha : a < (h.region k).top) :
    let stop := Object.limit h.memory (h.region s).bottom
    let card := (h.region k).blocks.cardStart ((a - (h.region k).bottom) / Address.bytesInCard)
    (k = s ∨ stop ≤ card → h.table.blockStart k a =
      .ok (if a < stop then (h.region s).bottom else stop)) ∧
    (¬(k = s ∨ stop ≤ card) →
      h.table.blockStart k a = Object.covering h.memory (h.region k).bottom a ∧
      (Object.size h.memory (h.region k).bottom = 0 →
        h.table.blockStart k a = .error (.emptyBlock (h.region k).bottom))) := by
  obtain ⟨L, t⟩ := m.tidy
  rw [t.regionCount] at hs
  have hl := t.laid (Nat.lt_of_lt_of_le hto (t.humongous s hs hk).within)
  rw [(t.laid hs).bottom]
  rw [hl.bottom] at hb ⊢
  have hfound := t.blockStart_of_humongous hs hk hfrom hto hb ha
  rw [BlockTable.cardStart, hl.blocksBottom]
  refine ⟨fun hc => hfound.trans (if_pos hc), fun hc => ?_⟩
  have hwalk := hfound.trans (if_neg hc)
  refine ⟨hwalk, fun hz => hwalk.trans ?_⟩
  rw [Object.covering, Object.coveringFrom, hz]
  rfl

theorem blockStart_humongous_in_sample : ∃ h, sample = .ok h ∧ h.Made ∧
    h.table.blockStart 5 (sampleWord 5 1) =
      .ok (if sampleWord 5 1 < Object.limit h.memory (h.region 5).bottom then (h.region 5).bottom
        else Object.limit h.memory (h.region 5).bottom) := by
  obtain ⟨h, hs, m⟩ := sample_made
  have hi := of_sample (f := fun h => decide (5 < h.regionCount)) (v := true) hs (by decide +kernel)
  have hk := of_sample (f := fun h => (h.region 5).kind.isStartsHumongous) (v := true) hs
    (by decide +kernel)
  have hin := of_sample (f := fun h => decide (5 < 5 + h.humongousSpan (h.region 5) ∧
    (h.region 5).bottom ≤ sampleWord 5 1 ∧ sampleWord 5 1 < (h.region 5).top)) (v := true) hs
    (by decide +kernel)
  obtain ⟨hspan, hb, ha⟩ := of_decide_eq_true hin
  exact ⟨h, hs, m, (m.blockStart_humongous (of_decide_eq_true hi) hk (Nat.le_refl 5) hspan hb ha).1
    (.inl rfl)⟩

end RegionHeap.Heap
