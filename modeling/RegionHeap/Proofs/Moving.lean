import RegionHeap.Proofs.Compacting
import RegionHeap.Proofs.Placing

/-!
Moving humongous objects. They move in ascending order; the regions that one takes are cleared
first, as are those that it leaves, and hold nothing that is still needed.
-/
set_option autoImplicit false

namespace RegionHeap.Collector

variable {c f : Collector} {h : Heap} {L : Layout} {fill : Nat → List (Nat × Nat)} {m₃ : Memory}
  {done rest : List HumongousMove} {x : Collector} {m : HumongousMove} {i o a k : Nat}

/-- An address in the regions that the object takes. -/
def Covers (L : Layout) (m : HumongousMove) (a : Nat) : Prop :=
  L.bottom m.target ≤ a ∧ a < L.bottom (m.target + m.count)

namespace Planned

variable (p : c.Planned h L f fill)

include p

theorem source_of (hm : m ∈ f.moves) : m.source < L.count ∧
    (h.region m.source).kind.isStartsHumongous = true ∧
      m.count = h.humongousSpan (h.region m.source) :=
  ⟨(p.moves.source m hm).1, (p.moves.source m hm).2.1.1, (p.moves.source m hm).2.2⟩

theorem traced_of_move (w : h.Consistent L) (hm : m ∈ f.moves) :
    h.Traced c.scope.clearSoft (L.bottom m.source) := by
  obtain ⟨hs, hmove, -⟩ := p.moves.source m hm
  obtain ⟨o, ho⟩ := List.exists_mem_of_ne_nil _ hmove.2.1
  obtain ⟨hobj, ht⟩ := Heap.mem_liveIn.mp ho
  rw [w.objectsIn_humongous hs hmove.1, List.mem_singleton] at hobj
  exact hobj ▸ ht

theorem within_of_move (w : h.Consistent L) (hm : m ∈ f.moves) :
    0 < m.count ∧ m.source + m.count ≤ L.count ∧
      Object.limit h.memory (L.bottom m.source) ≤ L.bottom (m.source + m.count) ∧
      L.bottom (m.source + m.count - 1) < Object.limit h.memory (L.bottom m.source) := by
  obtain ⟨hs, hk, hn⟩ := p.source_of hm
  rw [hn]
  exact ⟨w.span_pos hs hk, (w.humongous m.source hs hk).within, w.limit_le_span hs,
    w.span_lt_limit hs hk⟩

theorem fits_of_move (w : h.Consistent L) (hm : m ∈ f.moves) :
    L.bottom m.target + 8 * Object.size h.memory (L.bottom m.source) ≤
        L.bottom (m.target + m.count) ∧
      L.bottom (m.target + m.count - 1) <
        L.bottom m.target + 8 * Object.size h.memory (L.bottom m.source) := by
  obtain ⟨hcount, -, hto, hreach⟩ := p.within_of_move w hm
  unfold Object.limit at hto hreach
  rw [Nat.add_sub_assoc (n := m.source) (show 1 ≤ m.count from hcount), L.bottom_add] at hreach
  rw [Nat.add_sub_assoc (n := m.target) (show 1 ≤ m.count from hcount), L.bottom_add, L.bottom_add]
  rw [L.bottom_add] at hto
  omega

/-- A humongous object takes a region that objects slide through only if nothing slides into it. -/
theorem fill_of_takes (w : h.Consistent L) (hm : m ∈ f.moves) (hk : k ∈ f.lists)
    (ht : m.Takes k) : fill k = [] := by
  have hstay : ∀ v ∈ f.moves, ¬v.Leaves k := fun v hv hl => by
    have hf := (w.fate_of_leaves c.scope.threshold p.moves hv hl).2
    rw [((p.mem k).mp hk).2] at hf
    contradiction
  obtain ⟨before, after, hsplit⟩ := List.append_of_mem hm
  rcases p.moves.vacant before m after hsplit k ht with (hf | ⟨-, he⟩) | hl | ⟨v, hv, hl⟩
  · rw [((p.mem k).mp hk).2] at hf
    contradiction
  · exact he
  · exact absurd hl (hstay m hm)
  · exact absurd hl (hstay v (hsplit ▸ List.mem_append_left _ hv))

/-- Sliding objects go into regions that nothing humongous takes. -/
theorem spot_not_covered (w : h.Consistent L) (hm : m ∈ f.moves)
    (hs : h.Slides c.scope.clearSoft c.scope.threshold o) (ha : h.Spot f.place o a) :
    ¬Covers L m a := by
  intro hc
  obtain ⟨k, hk, hq, hfrom, hto⟩ := p.spot_of_slides w hs
  have htakes : m.Takes k := Layout.between hc.1 hc.2 (Nat.le_trans hfrom ha.1) (by
    have := ha.2
    omega)
  rw [p.fill_of_takes w hm hk htakes] at hq
  contradiction

theorem spot_not_source (w : h.Consistent L) (hm : m ∈ f.moves)
    (hs : h.Slides c.scope.clearSoft c.scope.threshold o) (hfrom : L.bottom m.source ≤ a)
    (hto : a < L.bottom (m.source + m.count)) : ¬h.Spot f.place o a := by
  intro ha
  obtain ⟨k, hk, -, hbottom, hend⟩ := p.spot_of_slides w hs
  have hleaves : m.Leaves k := Layout.between hfrom hto (Nat.le_trans hbottom ha.1) (by
    have := ha.2
    omega)
  have hfate := ((p.mem k).mp hk).2
  rw [(w.fate_of_leaves c.scope.threshold p.moves hm hleaves).2] at hfate
  contradiction

/-- A move is done with regions below those that later moves leave. -/
theorem below_of (w : h.Consistent L) (hsplit : f.moves = done ++ m :: rest) {m' : HumongousMove}
    (hm' : m' ∈ done) : m'.source + m'.count ≤ m.source ∧ m'.target + m'.count ≤ m.source ∧
      (∀ k, m'.Takes k → ¬m.Takes k) := by
  have hm : m ∈ f.moves := by rw [hsplit]; simp
  have hmem : m' ∈ f.moves := by rw [hsplit]; exact List.mem_append_left _ hm'
  have hasc := p.moves.ascending
  have hap := p.moves.apart
  rw [hsplit, List.pairwise_append] at hasc hap
  obtain ⟨hs, hk, hn⟩ := p.source_of hm
  obtain ⟨hs', hk', hn'⟩ := p.source_of hmem
  have := w.span_le hs' hs hk' hk (hasc.2.2 m' hm' m (by simp))
  have := p.moves.down m' hmem
  exact ⟨by omega, by omega, hap.2.2 m' hm' m (by simp)⟩

end Planned

/-- A region once all objects have slid. -/
def slid (f : Collector) (k : Nat) : Region :=
  if k ∈ f.lists then (f.inPlace k).compactedTo (Table.entry f.tops k) else f.inPlace k

/-- The regions that a humongous object takes are set up for it. -/
structure Arrived (h : Heap) (L : Layout) (m : HumongousMove) (t : RegionTable) : Prop where
  starts : (t.region m.target).kind = .startsHumongous ∧
    (t.region m.target).humongousStart = some m.target
  later : ∀ k, m.target < k → k < m.target + m.count →
    (t.region k).kind = .continuesHumongous ∧ (t.region k).humongousStart = some m.target
  seated : t.Seated L m.target m.count
    (L.bottom m.target + 8 * Object.size h.memory (L.bottom m.source))

theorem Arrived.covered {t : RegionTable} (v : Arrived h L m t)
    (hfit : L.bottom m.target + 8 * Object.size h.memory (L.bottom m.source) ≤
      L.bottom (m.target + m.count)) (hk : m.Takes k) :
    min (L.bottom m.target + 8 * Object.size h.memory (L.bottom m.source))
      (L.bottom (k + 1)) ≤ (t.region k).top :=
  v.seated.covered hfit hk.1 hk.2

theorem Arrived.humongous {t : RegionTable} (v : Arrived h L m t) (hk : m.Takes k) :
    (t.region k).kind.isHumongous = true ∧ (t.region k).humongousStart = some m.target := by
  by_cases e : k = m.target
  · rw [e, v.starts.1, v.starts.2]
    exact ⟨rfl, rfl⟩
  · have hlater := v.later k (by have := hk.1; omega) hk.2
    rw [hlater.1, hlater.2]
    exact ⟨rfl, rfl⟩

/-- These humongous objects have moved. -/
structure Moving (c : Collector) (h : Heap) (L : Layout) (f : Collector) (m₃ : Memory)
    (done : List HumongousMove) (x : Collector) : Prop where
  same : x = (f.withAdjusted m₃).withHeap x.heap.table x.heap.liveness
  table : x.heap.table.Laid L
  liveness : x.heap.liveness.Laid L
  taken : ∀ m ∈ done, Arrived h L m x.heap.table
  left : ∀ k, k < L.count → (∃ m ∈ done, m.Leaves k) → (∀ m ∈ done, ¬m.Takes k) →
    (x.heap.region k).Blank
  stay : ∀ k, k < L.count → (∀ m ∈ done, ¬m.Leaves k ∧ ¬m.Takes k) →
    x.heap.region k = f.slid k
  memory : Copied h f.place m₃
    (fun o => c.Gone h L f.lists o ∨ ∃ m ∈ done, o = L.bottom m.source)
    (fun a => (∃ o, c.Gone h L f.lists o ∧ h.Spot f.place o a) ∨ ∃ m ∈ done, Covers L m a) x.memory
  filler : ∀ m ∈ done, L.bottom m.target + 8 * Object.size h.memory (L.bottom m.source) + 16 ≤
      L.bottom (m.target + m.count) →
    Object.Fills x.memory (L.bottom m.target + 8 * Object.size h.memory (L.bottom m.source))
      (L.bottom (m.target + m.count))

theorem Compacting.moving (k : c.Compacting h L f m₃ f.inPlace f.lists x) :
    c.Moving h L f m₃ [] x :=
  ⟨k.same, k.table, k.liveness, by simp, fun _ _ h' => by simp at h', fun i hi _ => k.region i hi,
    k.memory.congr (fun _ ho => ho.resolve_right (by simp)) fun _ h' => .inl h', by simp⟩

theorem clearRegions_of {t : RegionTable} (ht : t.Laid L) {ks : List Nat}
    (hin : ∀ k ∈ ks, k < L.count) :
    ∃ t', ks.foldlM (fun (t : RegionTable) i => t.update i fun r => .ok r.clear) t = .ok t' ∧
      t'.Laid L ∧ t'.memory = t.memory ∧ (∀ k, k ∉ ks → t'.region k = t.region k) ∧
      ∀ k ∈ ks, (t'.region k).Blank := by
  refine Checked.foldlM_split (fun done t' => t'.Laid L ∧ t'.memory = t.memory ∧
    (∀ k, k ∉ done → t'.region k = t.region k) ∧
    ∀ k ∈ done, (t'.region k).Blank)
    (fun done i rest t' hsplit ⟨hl, hm, hout, hin'⟩ => ?_) t ⟨ht, rfl, fun _ _ => rfl, by simp⟩
  have hi := hin i (by rw [hsplit]; simp)
  have hput := hl.region_put_of hi (t'.region i).clear
  refine ⟨_, hl.update_of hi (f := fun r => .ok r.clear) rfl,
    hl.put hi (hl.region i hi).clear, hm, fun k hk => ?_, fun k hk => ?_⟩
  · rw [hput, if_neg fun e : i = k => hk (by simp [e])]
    exact hout k fun hd => hk (by simp [hd])
  · rw [hput]
    split
    · exact (t'.region i).blank_clear
    · next e =>
      have hkd : k ∈ done := by simpa [Ne.symm e] using hk
      exact hin' k hkd

theorem Gone.slides (w : h.Consistent L) (p : c.Planned h L f fill)
    (hg : c.Gone h L f.lists o) : h.Slides c.scope.clearSoft c.scope.threshold o :=
  p.slides_of w hg.2 (w.mem_liveIn_regionOf hg.1)

theorem covers_of_spot (w : h.Consistent L) (p : c.Planned h L f fill) (hm : m ∈ f.moves)
    (hs : h.Spot f.place (L.bottom m.source) a) : Covers L m a := by
  have hfit := (p.fits_of_move w hm).1
  unfold Heap.Spot at hs
  rw [p.place_of_move hm] at hs
  exact ⟨hs.1, by omega⟩

theorem covers_apart (w : h.Consistent L) (p : c.Planned h L f fill)
    (hsplit : f.moves = done ++ m :: rest) {m' : HumongousMove} (hm' : m' ∈ done)
    (hc : Covers L m' a) : ¬Covers L m a := by
  intro hc'
  have hstart : L.start ≤ a := Nat.le_trans (L.start_le_bottom _) hc.1
  obtain ⟨hfrom, hto⟩ := Layout.bounds_of_regionOf hstart rfl
  exact (p.below_of w hsplit hm').2.2 _ (Layout.between hc.1 hc.2 hfrom hto)
    (Layout.between hc'.1 hc'.2 hfrom hto)

/-- What moving one humongous object does to a collector. -/
structure Moved (h : Heap) (L : Layout) (m : HumongousMove) (x x' : Collector) : Prop where
  same : x' = x.withHeap x'.heap.table x'.heap.liveness
  table : x'.heap.table.Laid L
  liveness : x'.heap.liveness.Laid L
  arrived : Arrived h L m x'.heap.table
  left : ∀ k, m.Leaves k → ¬m.Takes k → (x'.heap.region k).Blank
  stay : ∀ k, ¬m.Leaves k → ¬m.Takes k → x'.heap.region k = x.heap.region k
  /-- Behind the object a filler is written. -/
  memory : ∀ a, ¬(L.bottom m.target + 8 * Object.size h.memory (L.bottom m.source) ≤ a ∧
      a < L.bottom (m.target + m.count)) →
    x'.memory.read a = (Object.unforward (x.memory.move (L.bottom m.source) (L.bottom m.target)
      (Object.size h.memory (L.bottom m.source))) (L.bottom m.target)).read a
  filler : L.bottom m.target + 8 * Object.size h.memory (L.bottom m.source) + 16 ≤
      L.bottom (m.target + m.count) →
    Object.Fills x'.memory (L.bottom m.target + 8 * Object.size h.memory (L.bottom m.source))
      (L.bottom (m.target + m.count))

theorem moveHumongous_eq (hx : x.heap.table.Laid L) (hs : m.source < L.count)
    (ht : m.target < L.count) (hread : x.memory.read (L.bottom m.source) = L.bottom m.target)
    {words : Nat} (hwords : Object.size x.memory (L.bottom m.source) = words)
    {l : LivenessMap} (hclear : x.liveness.clear (L.bottom m.source) = .ok l) :
    moveHumongous x m = (do
      let t ← (List.range' m.source m.count ++ List.range' m.target m.count).foldlM
        (fun t i => t.update i fun r => .ok r.clear)
        { x.heap.table with memory := Object.unforward (x.memory.move (L.bottom m.source)
          (L.bottom m.target) words) (L.bottom m.target) }
      return x.withHeap (← t.placeHumongous m.target m.count (L.bottom m.target) words) l) := by
  have hforward : (Object.forwardee? x.memory (L.bottom m.source) ==
      some (L.bottom m.target)) = true := by
    have := L.bottom_pos m.target
    rw [Object.forwardee?, hread]
    simp
    omega
  have hsource : x.region m.source = .ok (x.heap.table.region m.source) := hx.get_of hs
  have htarget : x.region m.target = .ok (x.heap.table.region m.target) := hx.get_of ht
  rw [moveHumongous, Checked.bind_of hsource]
  dsimp only
  rw [Checked.bind_of htarget, (hx.region m.source hs).bottom, (hx.region m.target ht).bottom,
    hwords, Checked.unless_of hforward, Checked.ok_bind, Checked.bind_of hclear]
  rfl

/-- An object that is as it was, and of which the forwarding word tells where to, moves. -/
theorem moveHumongous_of (w : h.Consistent L) (p : c.Planned h L f fill) (hm : m ∈ f.moves)
    (hx : x.heap.table.Laid L) (hl : x.heap.liveness.Laid L)
    (hread : x.memory.read (L.bottom m.source) = L.bottom m.target)
    (hwords : Object.size x.memory (L.bottom m.source) =
      Object.size h.memory (L.bottom m.source)) :
    ∃ x', moveHumongous x m = .ok x' ∧ Moved h L m x x' := by
  have hs := (p.source_of hm).1
  obtain ⟨hn, hwithin, -, -⟩ := p.within_of_move w hm
  obtain ⟨hfit, hneed⟩ := p.fits_of_move w hm
  have hdown := p.moves.down m hm
  obtain ⟨l, hclear, hlaid, -⟩ := LivenessMap.clear_of hl (Layout.isWord_bottom hs)
  obtain ⟨m₄, hm₄⟩ : ∃ m₄, Object.unforward (x.memory.move (L.bottom m.source)
    (L.bottom m.target) (Object.size h.memory (L.bottom m.source))) (L.bottom m.target) = m₄ :=
    ⟨_, rfl⟩
  -- the regions are cleared, and those that the object takes are set up
  obtain ⟨t₂, h₂, hl₂, hmem₂, hout₂, hin₂⟩ := clearRegions_of (hx.withMemory m₄)
    (show ∀ j ∈ List.range' m.source m.count ++ List.range' m.target m.count, j < L.count by
      intro j hj
      rw [List.mem_append, List.mem_range'_1, List.mem_range'_1] at hj
      omega)
  have hblank : ∀ j, m.target ≤ j → j < m.target + m.count → (t₂.region j).Blank :=
    fun j hfrom hto => hin₂ j (by simp [hfrom, hto])
  obtain ⟨t₃, h₃, placed⟩ := RegionTable.placeHumongous_of hl₂.sited hn
    (show m.target + m.count ≤ L.count by omega) (fun j hfrom hto => (hblank j hfrom hto).vacant) hfit
    hneed
  have hstart := L.bottom_mod m.target
  refine ⟨x.withHeap t₃ l, ?_, rfl, placed.laid hl₂ (by omega), hlaid,
    ⟨placed.starts hn, fun j hlt hto => placed.later hlt hto, placed.seated hblank⟩,
    fun j hj hnot => ?_, fun j hleft htaken => ?_, fun a ha => ?_, fun hroom => ?_⟩
  · rw [moveHumongous_eq hx hs (by omega) hread hwords hclear, hm₄, Checked.bind_of h₂,
      Checked.bind_of h₃]
    rfl
  · show (t₃.region j).Blank
    rw [placed.outside hnot]
    exact hin₂ j (List.mem_append_left _ (List.mem_range'_1.mpr hj))
  · show t₃.region j = _
    rw [placed.outside htaken]
    exact hout₂ j (by
      rw [List.mem_append, List.mem_range'_1, List.mem_range'_1]
      exact fun h' => h'.elim hleft htaken)
  · show t₃.memory.read a = _
    rw [placed.memory a (by omega), hmem₂, hm₄]
  · exact placed.filler w.words_lt hroom

theorem Moved.other {x' : Collector} (v : Moved h L m x x')
    (hfit : L.bottom m.target + 8 * Object.size h.memory (L.bottom m.source) ≤
      L.bottom (m.target + m.count)) (hsize : 0 < Object.size h.memory (L.bottom m.source))
    (ha : ¬Covers L m a) : x'.memory.read a = x.memory.read a := by
  unfold Covers at ha
  rw [v.memory a (by omega), Object.unforward, Memory.read_write_of_ne _ _ (by omega),
    Memory.read_move_of_outside _ _ (by omega)]

namespace Moving

theorem apart (w : h.Consistent L) (p : c.Planned h L f fill)
    (hsplit : f.moves = done ++ m :: rest)
    (ho : c.Gone h L f.lists o ∨ ∃ m ∈ done, o = L.bottom m.source) (hs : h.Spot f.place o a) :
    ¬Covers L m a := by
  have hm : m ∈ f.moves := by rw [hsplit]; simp
  rcases ho with ho | ⟨m', hm', rfl⟩
  · exact p.spot_not_covered w hm (ho.slides w p) hs
  · have hmem : m' ∈ f.moves := by rw [hsplit]; exact List.mem_append_left _ hm'
    exact covers_apart w p hsplit hm' (covers_of_spot w p hmem hs)

theorem whole (w : h.Consistent L) (p : c.Planned h L f fill)
    (hsplit : f.moves = done ++ m :: rest) (hfrom : L.bottom m.source ≤ a)
    (hto : a < L.bottom m.source + 8 * Object.size h.memory (L.bottom m.source)) :
    ¬((∃ o, c.Gone h L f.lists o ∧ h.Spot f.place o a) ∨ ∃ m ∈ done, Covers L m a) := by
  have hm : m ∈ f.moves := by rw [hsplit]; simp
  have hlimit := (p.within_of_move w hm).2.2.1
  unfold Object.limit at hlimit
  rintro (⟨o, ho, hs⟩ | ⟨m', hm', hc⟩)
  · exact p.spot_not_source w hm (ho.slides w p) hfrom (by omega) hs
  · have := L.bottom_mono (p.below_of w hsplit hm').2.1
    have := hc.2
    omega

theorem intact (w : h.Consistent L) (p : c.Planned h L f fill)
    (ha : Adjusted h f.memory (h.Traced c.scope.clearSoft) m₃)
    (hsplit : f.moves = done ++ m :: rest) (k : c.Moving h L f m₃ done x) :
    x.memory.read (L.bottom m.source) = L.bottom m.target ∧
      Object.size x.memory (L.bottom m.source) = Object.size h.memory (L.bottom m.source) := by
  have hm : m ∈ f.moves := by rw [hsplit]; simp
  have hobj := w.traced_isObject (p.traced_of_move w hm)
  have hsize := w.size_ge hobj
  have hheader := ha.header w (fun _ => w.traced_isObject) hobj
  have hklass : Object.klass x.memory (L.bottom m.source) =
      Object.klass h.memory (L.bottom m.source) :=
    (k.memory.other _ (whole w p hsplit (by omega) (by omega))).trans
      (hheader.2.trans (p.read_of_not_object w (w.klass_not_object hobj)))
  exact ⟨(k.memory.other _ (whole w p hsplit (Nat.le_refl _) (by omega))).trans
    (hheader.1.trans (p.sent m hm)), Object.size_congr hklass⟩

variable {x' : Collector}

theorem arrived (w : h.Consistent L) (p : c.Planned h L f fill)
    (hsplit : f.moves = done ++ m :: rest) (k : c.Moving h L f m₃ done x)
    (v : Moved h L m x x') {m' : HumongousMove} (hm' : m' ∈ done ++ [m]) :
    Arrived h L m' x'.heap.table := by
  rcases List.mem_append.mp hm' with hm' | hm'
  · have hmem : m' ∈ f.moves := by rw [hsplit]; exact List.mem_append_left _ hm'
    have hn := (p.within_of_move w hmem).1
    have hb := p.below_of w hsplit hm'
    have hsame : ∀ j, m'.Takes j → x'.heap.table.region j = x.heap.table.region j := fun j hj =>
      v.stay j (fun hl => by have := hj.2; have := hl.1; omega) (hb.2.2 j hj)
    have u := k.taken m' hm'
    refine ⟨?_, fun j hfrom hto => ?_, u.seated.congr hn fun j hfrom hto => ?_⟩
    · exact hsame _ ⟨Nat.le_refl _, by omega⟩ ▸ u.starts
    · exact hsame j ⟨by omega, hto⟩ ▸ u.later j hfrom hto
    · rw [hsame j ⟨hfrom, hto⟩]
      exact ⟨rfl, rfl⟩
  · obtain rfl : m' = m := by simpa using hm'
    exact v.arrived

theorem copied (w : h.Consistent L) (p : c.Planned h L f fill)
    (hsplit : f.moves = done ++ m :: rest) (k : c.Moving h L f m₃ done x)
    (v : Moved h L m x x') :
    Copied h f.place m₃
      (fun o => c.Gone h L f.lists o ∨ ∃ m' ∈ done ++ [m], o = L.bottom m'.source)
      (fun a => (∃ o, c.Gone h L f.lists o ∧ h.Spot f.place o a) ∨
        ∃ m' ∈ done ++ [m], Covers L m' a) x'.memory := by
  have hm : m ∈ f.moves := by rw [hsplit]; simp
  have hplace := p.place_of_move hm
  have hpos : ∀ m' ∈ f.moves, 0 < Object.size h.memory (L.bottom m'.source) := fun m' hmem =>
    Nat.lt_of_lt_of_le Nat.two_pos (w.size_ge (w.traced_isObject (p.traced_of_move w hmem)))
  have hz : ∀ o, (c.Gone h L f.lists o ∨ ∃ m' ∈ done, o = L.bottom m'.source) →
      0 < Object.size h.memory o := by
    rintro o (ho | ⟨m', hm', rfl⟩)
    · exact Nat.lt_of_lt_of_le Nat.two_pos (w.size_ge (ho.slides w p).isObject)
    · exact hpos m' (by rw [hsplit]; exact List.mem_append_left _ hm')
  have hmoved := k.memory.move hz (hpos m hm) (fun a hfrom hto => whole w p hsplit hfrom hto)
    fun o ho a hfrom hto => apart w p hsplit ho hfrom (covers_of_spot w p hm hto)
  rw [hplace] at hmoved
  -- after the object its filler is written, over nothing that is at its place
  have hfilled := hmoved.write x'.memory _ v.memory
    (by
      rintro o (ho | rfl)
      · exact hz o ho
      · exact hpos m hm)
    (by
      rintro o (ho | rfl) a hspot ⟨hfrom, hto⟩
      · exact apart w p hsplit ho hspot ⟨by omega, hto⟩
      · unfold Heap.Spot at hspot
        rw [hplace] at hspot
        omega)
  refine hfilled.congr ?_ ?_
  · rintro o (ho | ⟨m', hm', rfl⟩)
    · exact .inl (.inl ho)
    · rcases List.mem_append.mp hm' with hm' | hm'
      · exact .inl (.inr ⟨m', hm', rfl⟩)
      · obtain rfl : m' = m := by simpa using hm'
        exact .inr rfl
  · rintro a (((ha | ⟨m', hm', ha⟩) | ha) | ha)
    · exact .inl ha
    · exact .inr ⟨m', List.mem_append_left _ hm', ha⟩
    · exact .inr ⟨m, by simp, covers_of_spot w p hm ha⟩
    · exact .inr ⟨m, by simp, by omega, ha.2⟩

theorem filled (w : h.Consistent L) (p : c.Planned h L f fill)
    (hsplit : f.moves = done ++ m :: rest) (k : c.Moving h L f m₃ done x)
    (v : Moved h L m x x') {m' : HumongousMove} (hm' : m' ∈ done ++ [m])
    (hroom : L.bottom m'.target + 8 * Object.size h.memory (L.bottom m'.source) + 16 ≤
      L.bottom (m'.target + m'.count)) :
    Object.Fills x'.memory (L.bottom m'.target + 8 * Object.size h.memory (L.bottom m'.source))
      (L.bottom (m'.target + m'.count)) := by
  have hm : m ∈ f.moves := by rw [hsplit]; simp
  rcases List.mem_append.mp hm' with hm' | hm'
  · have hsize := w.size_ge (w.traced_isObject (p.traced_of_move w hm))
    refine (k.filler m' hm' hroom).congr ?_
    exact v.other (p.fits_of_move w hm).1 (by omega)
      (covers_apart w p hsplit hm' ⟨by omega, by omega⟩)
  · obtain rfl : m' = m := by simpa using hm'
    exact v.filler hroom

theorem step (w : h.Consistent L) (p : c.Planned h L f fill)
    (ha : Adjusted h f.memory (h.Traced c.scope.clearSoft) m₃)
    (hsplit : f.moves = done ++ m :: rest) (k : c.Moving h L f m₃ done x) :
    ∃ x', moveHumongous x m = .ok x' ∧ c.Moving h L f m₃ (done ++ [m]) x' := by
  obtain ⟨hread, hwords⟩ := k.intact w p ha hsplit
  obtain ⟨x', hrun, v⟩ :=
    moveHumongous_of w p (by rw [hsplit]; simp) k.table k.liveness hread hwords
  refine ⟨x', hrun, ?_, v.table, v.liveness, fun m' hm' => k.arrived w p hsplit v hm',
    fun j hj hleft htaken => ?_, fun j hj hleft => ?_, k.copied w p hsplit v,
    fun m' hm' => k.filled w p hsplit v hm'⟩
  · rw [v.same, k.same]
    rfl
  · have hnot := htaken m (by simp)
    by_cases hl : m.Leaves j
    · exact v.left j hl hnot
    · rw [v.stay j hl hnot]
      obtain ⟨m', hm', hl'⟩ := hleft
      rcases List.mem_append.mp hm' with hm' | hm'
      · exact k.left j hj ⟨m', hm', hl'⟩ fun v hv => htaken v (by simp [hv])
      · obtain rfl : m' = m := by simpa using hm'
        exact absurd hl' hl
  · have hm' := hleft m (by simp)
    rw [v.stay j hm'.1 hm'.2]
    exact k.stay j hj fun v hv => hleft v (by simp [hv])

end Moving

theorem moveAll_of (w : h.Consistent L) (p : c.Planned h L f fill)
    (ha : Adjusted h f.memory (h.Traced c.scope.clearSoft) m₃) (k : c.Moving h L f m₃ [] x) :
    ∃ x', f.moves.foldlM moveHumongous x = .ok x' ∧ c.Moving h L f m₃ f.moves x' :=
  Checked.foldlM_split (fun done x => c.Moving h L f m₃ done x)
    (fun _ _ _ _ hsplit k => k.step w p ha hsplit) x k

/-- Compacting copies every live object to its place. -/
theorem compact_of (w : h.Consistent L) (p : c.Planned h L f fill)
    (ha : Adjusted h f.memory (h.Traced c.scope.clearSoft) m₃) :
    ∃ x, (f.withAdjusted m₃).compact = .ok x ∧ c.Moving h L f m₃ f.moves x := by
  obtain ⟨x₁, h₁, k₁⟩ := slideAll_of w p (headed_of_adjusted w ha)
  obtain ⟨x, h₂, k₂⟩ := moveAll_of w p ha k₁.moving
  refine ⟨x, ?_, k₂⟩
  have hmoves : x₁.moves = f.moves := by
    rw [k₁.same]
    rfl
  obtain ⟨y₁, hy₁, h₁⟩ := Checked.bind_eq_ok.mp h₁
  obtain ⟨y₂, hy₂, h₁⟩ := Checked.bind_eq_ok.mp h₁
  rw [compact, Checked.bind_of hy₁, Checked.bind_of hy₂, Checked.bind_of h₁, hmoves]
  exact h₂

end RegionHeap.Collector
