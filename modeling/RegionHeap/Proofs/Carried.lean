import RegionHeap.Proofs.Collecting

/-!
What becomes of the objects. Those that slide, those that move with their regions and those whose
regions keep them are the objects afterwards. Each is what it was, apart from its references.
-/
set_option autoImplicit false

namespace RegionHeap

theorem Heap.Consistent.inside_not_object {h : Heap} {L : Layout} {o n : Nat} (w : h.Consistent L)
    (ho : h.IsObject o) (hn : 0 < n) (hlt : n < Object.size h.memory o) :
    ¬h.IsObject (o + 8 * n) := by
  intro hp
  have := w.apart ho hp (by omega)
  unfold Object.limit at this
  omega

namespace Collector

variable {c f : Collector} {h h' : Heap} {L : Layout} {fill : Nat → List (Nat × Nat)}
  {m₃ : Memory} {x : Collector} {o p q a i n : Nat}

/-- An object that is still there afterwards. -/
inductive Carried (c : Collector) (h : Heap) (L : Layout) (f : Collector) (o : Nat) : Prop where
  | slid : h.Slides c.scope.clearSoft c.scope.threshold o → Carried c h L f o
  | moved (m : HumongousMove) : m ∈ f.moves → o = L.bottom m.source → Carried c h L f o
  | kept (i : Nat) : i < L.count → c.Keeps h f i → o ∈ h.objectsIn i → Carried c h L f o

namespace Collected

variable (k : c.Collected h L f fill m₃ x h')

include k

theorem region (i : Nat) : h'.region i = x.heap.region i := by
  rw [k.heap]
  rfl

theorem memory : h'.memory = x.memory := by
  rw [k.heap]
  rfl

theorem regionCount : h'.regionCount = L.count := by
  rw [k.heap]
  exact k.moving.table.size

theorem ended (hi : i < L.count) : Ended c h L f fill i (h'.region i) := by
  rw [k.region]
  exact k.moving.ended k.consistent k.planned hi

theorem isObject_of_carried (ho : c.Carried h L f o) : h.IsObject o := by
  cases ho with
  | slid hs => exact hs.isObject
  | moved m hm e =>
    exact e ▸ k.consistent.traced_isObject (k.planned.traced_of_move k.consistent hm)
  | kept i hi _ ho => exact k.consistent.isObject hi ho

theorem fixed_of_kept (hi : i < L.count) (hk : c.Keeps h f i) (ho : o ∈ h.objectsIn i) :
    f.place o = o ∧ f.memory.read o = 0 := by
  have w := k.consistent
  refine k.planned.place_of_fixed w (w.isObject hi ho) ?_ fun m hm e => ?_
  · rintro ⟨j, hj, hf, hlive⟩
    rw [w.regionCount] at hj
    have hr := (w.liveIn_inside hj hlive).2.1
    rw [(w.object_of hi ho).2.1] at hr
    exact hk.unlisted ((k.planned.mem i).mpr ⟨hi, hr ▸ hf⟩)
  · have hr := (w.object_of hi ho).2.1
    rw [e, L.regionOf_bottom] at hr
    have := (k.planned.within_of_move w hm).1
    exact hk.stays m hm ⟨by omega, by omega⟩

theorem copied_of (ho : h.Slides c.scope.clearSoft c.scope.threshold o ∨
    ∃ m ∈ f.moves, o = L.bottom m.source) :
    c.Gone h L f.lists o ∨ ∃ m ∈ f.moves, o = L.bottom m.source := by
  refine ho.imp_left fun hs => ?_
  obtain ⟨i, hi, hf, hlive⟩ := hs
  rw [k.consistent.regionCount] at hi
  exact ⟨(Heap.mem_liveIn.mp hlive).2, by
    rw [(k.consistent.liveIn_inside hi hlive).2.1]
    exact (k.planned.mem i).mpr ⟨hi, hf⟩⟩

theorem header_of (ho : c.Carried h L f o) : h'.memory.read (f.place o) = 0 := by
  rw [k.memory]
  cases ho with
  | slid hs => exact k.moving.memory.header o (k.copied_of (.inl hs))
  | moved m hm e => exact k.moving.memory.header o (.inr ⟨m, hm, e⟩)
  | kept i hi hk ho =>
    have w := k.consistent
    obtain ⟨hplace, hread⟩ := k.fixed_of_kept hi hk ho
    have hobj := w.object_of hi ho
    obtain ⟨hfrom, hto⟩ := Layout.bounds_of_regionOf hobj.1.start_le hobj.2.1
    rw [hplace, k.moving.read_of_kept w k.planned hk hfrom hto,
      (k.adjusted.header w (fun _ => w.traced_isObject) (w.isObject hi ho)).1, hread]

theorem keeps_iff {j : Nat} (hi : i < L.count) (hk : (h.region i).kind.isStartsHumongous = true)
    (hj : i ≤ j ∧ j < i + h.humongousSpan (h.region i)) : c.Keeps h f j ↔ c.Keeps h f i := by
  have w := k.consistent
  have hjl : j < L.count := Nat.lt_of_lt_of_le hj.2 (w.humongous i hi hk).within
  have howner := (w.owner_eq_iff hjl hi hk).mpr hj
  have hfate : h.fate c.scope.clearSoft c.scope.threshold j =
      h.fate c.scope.clearSoft c.scope.threshold i := by
    rw [Heap.fate, Heap.fate, howner, Heap.owner_of_starts hk]
  have hlisted : j ∈ f.lists ↔ i ∈ f.lists := by
    rw [k.planned.mem, k.planned.mem, hfate]
    exact and_congr_left fun _ => iff_of_true hjl hi
  have hleaves : ∀ m ∈ f.moves, m.Leaves j ↔ m.Leaves i := fun m hm => by
    obtain ⟨hs, hks, hn⟩ := k.planned.source_of hm
    show m.source ≤ j ∧ j < m.source + m.count ↔ m.source ≤ i ∧ i < m.source + m.count
    rw [hn, ← w.owner_eq_iff hjl hs hks, ← w.owner_eq_iff hi hs hks, howner,
      Heap.owner_of_starts hk]
  constructor
  · exact fun e => ⟨hfate ▸ e.used, fun hl => e.unlisted (hlisted.mpr hl),
      fun m hm hl => e.stays m hm ((hleaves m hm).mpr hl)⟩
  · exact fun e => ⟨hfate ▸ e.used, fun hl => e.unlisted (hlisted.mp hl),
      fun m hm hl => e.stays m hm ((hleaves m hm).mp hl)⟩

theorem keeps_of_word (hi : i < L.count) (hk : c.Keeps h f i) (ho : o ∈ h.objectsIn i)
    (hfrom : o ≤ a) (hto : a < Object.limit h.memory o) :
    ∃ j, c.Keeps h f j ∧ L.bottom j ≤ a ∧ a < L.bottom j + L.bytes := by
  have w := k.consistent
  rcases Heap.Built.cases_of_mem ho with hord | hstarts
  · obtain ⟨hbottom, hlimit', htop⟩ := w.within_of hi hord ho
    exact ⟨i, hk, by omega, by omega⟩
  · obtain rfl : o = L.bottom i := by simpa [w.objectsIn_humongous hi hstarts] using ho
    have hlimit := w.limit_le_span hi
    have hstart := L.start_le_bottom i
    obtain ⟨hbottom, hlimit'⟩ := Layout.bounds_of_regionOf (show L.start ≤ a by omega) rfl
    have hb := Layout.between (L := L) (i := i) (n := h.humongousSpan (h.region i)) hfrom (by omega)
      hbottom hlimit'
    exact ⟨L.regionOf a, (k.keeps_iff hi hstarts hb).mpr hk, hbottom, hlimit'⟩

theorem word_of (ho : c.Carried h L f o) (hn : 0 < n) (hlt : n < Object.size h.memory o) :
    h'.memory.read (f.place o + 8 * n) = m₃.read (o + 8 * n) := by
  rw [k.memory]
  cases ho with
  | slid hs => exact k.moving.memory.moved o (k.copied_of (.inl hs)) n hn hlt
  | moved m hm e => exact k.moving.memory.moved o (.inr ⟨m, hm, e⟩) n hn hlt
  | kept i hi hk ho =>
    obtain ⟨j, hj, hfrom, hto⟩ := k.keeps_of_word hi hk ho (a := o + 8 * n) (by omega) (by
      unfold Object.limit
      omega)
    rw [(k.fixed_of_kept hi hk ho).1, k.moving.read_of_kept k.consistent k.planned hj hfrom hto]

theorem read_of_plain (ha : ¬h.IsObject a)
    (hs : ∀ o, h.Traced c.scope.clearSoft o → a ∉ Object.slots h.memory o) :
    m₃.read a = h.memory.read a :=
  (k.adjusted.other a hs).trans (k.planned.read_of_not_object k.consistent ha)

theorem klass_of (ho : c.Carried h L f o) :
    Object.klass h'.memory (f.place o) = Object.klass h.memory o := by
  have w := k.consistent
  have hobj := k.isObject_of_carried ho
  have hsize := w.size_ge hobj
  refine (k.word_of ho (n := 1) (by omega) (by omega)).trans ?_
  exact ((k.adjusted.header w (fun _ => w.traced_isObject) hobj).2).trans
    (k.planned.read_of_not_object w (w.klass_not_object hobj))

/-- Live objects are still there, and so are those of closed archives. -/
theorem carried_of_alive (ho : h.Alive c.scope.clearSoft o) : c.Carried h L f o := by
  have w := k.consistent
  rcases ho with ht | ⟨hobj, harch⟩
  · have hlive := w.mem_liveIn_regionOf ht
    have hword := (w.mem_objectsIn (w.traced_isObject ht)).1
    have hi := hword.regionOf_lt
    by_cases hfree : h.fate c.scope.clearSoft c.scope.threshold (L.regionOf o) = .free
    · have hpass : (h.fate c.scope.clearSoft c.scope.threshold (L.regionOf o)).isMarkedThrough =
          false := by
        rw [hfree]
        rfl
      have hnil := w.liveIn_eq_nil_of_fate hi hpass
      rw [hnil] at hlive
      simp at hlive
    · by_cases hlist : L.regionOf o ∈ f.lists
      · exact .slid (k.planned.slides_of w hlist hlive)
      · by_cases hleft : ∃ m ∈ f.moves, m.Leaves (L.regionOf o)
        · obtain ⟨m, hm, hl⟩ := hleft
          obtain ⟨hs, hks, hn⟩ := k.planned.source_of hm
          have howner := (w.owner_eq_iff hi hs hks).mpr (hn ▸ hl)
          have hobj := (Heap.mem_liveIn.mp hlive).1
          -- the regions behind the first of a humongous object begin no object
          have hstarts : (h.region (L.regionOf o)).kind.isContinuesHumongous = false := by
            rcases Heap.Built.cases_of_mem hobj with hk | hk
            · exact (RegionKind.not_of_ordinary hk).2.2.2
            · rw [Heap.kind_eq_starts hk]
              rfl
          rw [Heap.owner_of_not_continues hstarts] at howner
          rw [howner, w.objectsIn_humongous hs hks, List.mem_singleton] at hobj
          exact .moved m hm hobj
        · exact .kept _ hi ⟨hfree, hlist, fun m hm hl => hleft ⟨m, hm, hl⟩⟩
            (Heap.mem_liveIn.mp hlive).1
  · obtain ⟨hword, hmem⟩ := w.mem_objectsIn hobj
    have hi := hword.regionOf_lt
    have hfate : h.fate c.scope.clearSoft c.scope.threshold (L.regionOf o) = .skipMarking :=
      (w.fate_eq_skipMarking hi).mpr ((w.inClosedArchive_iff hword).mp harch)
    refine .kept _ hi ⟨by rw [hfate]; simp, fun hl => ?_, fun m hm hl => ?_⟩ hmem
    · have := ((k.planned.mem _).mp hl).2
      rw [hfate] at this
      contradiction
    · have := (w.fate_of_leaves c.scope.threshold k.planned.moves hm hl).2
      rw [hfate] at this
      contradiction

theorem objectsIn_filled (hi : i ∈ f.lists) (hkind : (h'.region i).kind = .old)
    (htop : (h'.region i).top = Table.entry f.tops i) : h'.objectsIn i = (fill i).map Prod.snd := by
  have hl : (h'.region i).Laid L i := by
    rw [k.region]
    exact k.moving.table.region i ((k.planned.mem i).mp hi).1
  rw [Heap.Built.objectsIn_ordinary (by rw [hkind]; rfl), hl.bottom, htop, k.memory]
  exact (k.moving.chain_of_filled k.consistent k.planned k.adjusted hi).walk_eq

theorem objectsIn_kept (hi : i < L.count) (hk : c.Keeps h f i)
    (r : Kept (h.region i) (h'.region i)) : h'.objectsIn i = h.objectsIn i := by
  have hl : (h'.region i).Laid L i := by
    rw [k.region]
    exact k.moving.table.region i hi
  have hkind := r.kinds
  have hb : (h'.region i).bottom = (h.region i).bottom :=
    hl.bottom.trans (k.consistent.laid hi).bottom.symm
  by_cases hord : (h.region i).kind.isOrdinary = true
  · have hchain := k.moving.chain_of_kept k.consistent k.planned k.adjusted hi hord hk
    rw [Heap.Built.objectsIn_ordinary (hkind.1.trans hord), hl.bottom, r.top, k.memory]
    exact hchain.walk_eq
  · rw [Heap.objectsIn, Heap.objectsIn, hkind.1, hkind.2.2.1, if_neg hord, if_neg hord, hb]

theorem objectsIn_taken {m : HumongousMove} (hm : m ∈ f.moves) (hi : m.Takes i) :
    h'.objectsIn i = if i = m.target then [L.bottom m.target] else [] := by
  have v := k.moving.taken m hm
  have hn := k.planned.within_of_move k.consistent hm
  have hdown := k.planned.moves.down m hm
  by_cases e : i = m.target
  · subst e
    have hk : (h'.region m.target).kind = .startsHumongous := by
      rw [k.region]
      exact v.starts.1
    have hb : (h'.region m.target).bottom = L.bottom m.target := by
      rw [k.region]
      exact (k.moving.table.region m.target (by omega)).bottom
    rw [if_pos rfl, Heap.objectsIn, hk, hb]
    rfl
  · have hk : (h'.region i).kind = .continuesHumongous := by
      rw [k.region]
      exact (v.later i (by have := hi.1; omega) hi.2).1
    rw [if_neg e, Heap.objectsIn, hk]
    rfl

theorem filled_of (hi : i ∈ f.lists) (hne : fill i ≠ []) : (h'.region i).kind = .old ∧
    (h'.region i).top = Table.entry f.tops i ∧
      (h'.region i).blocks = (f.heap.region i).blocks := by
  obtain ⟨hil, hfate⟩ := (k.planned.mem i).mp hi
  have hleft : ∀ m ∈ f.moves, ¬m.Leaves i := fun m hm hl => by
    have := (k.consistent.fate_of_leaves c.scope.threshold k.planned.moves hm hl).2
    rw [hfate] at this
    contradiction
  cases k.ended hil with
  | taken m hm ht _ _ =>
    obtain ⟨before, after, hsplit⟩ := List.append_of_mem hm
    rcases k.planned.moves.vacant before m after hsplit i ht with (hf | ⟨-, he⟩) | hl | ⟨v, hv, hl⟩
    · rw [hf] at hfate
      contradiction
    · exact absurd he hne
    · exact absurd hl (hleft m hm)
    · exact absurd hl (hleft v (hsplit ▸ List.mem_append_left _ hv))
  | empty hwhy _ _ =>
    rcases hwhy with hf | ⟨m, hm, hl⟩ | ⟨-, he⟩
    · rw [hf] at hfate
      contradiction
    · exact absurd hl (hleft m hm)
    · exact absurd he hne
  | filled _ _ hordinary hlaid hempty => exact ⟨hordinary, hlaid, hempty⟩
  | kept keeps _ => exact absurd hi keeps.unlisted

theorem kept_of (hi : i < L.count) (hk : c.Keeps h f i) : Kept (h.region i) (h'.region i) := by
  cases k.ended hi with
  | taken m hm ht _ _ => exact absurd ht (k.planned.not_takes hk hm)
  | empty hwhy _ _ =>
    rcases hwhy with hf | ⟨m, hm, hl⟩ | ⟨hl, -⟩
    · exact absurd hf hk.used
    · exact absurd hl (hk.stays m hm)
    · exact absurd hl hk.unlisted
  | filled hl _ _ _ _ => exact absurd hl hk.unlisted
  | kept _ r => exact r

theorem isObject_place (ho : c.Carried h L f o) : h'.IsObject (f.place o) := by
  have w := k.consistent
  have p := k.planned
  have hc := k.regionCount
  cases ho with
  | slid hs =>
    obtain ⟨i, hi, hq⟩ := p.slide_of w hs
    obtain ⟨hordinary, hlaid, -⟩ := k.filled_of hi (List.ne_nil_of_mem hq)
    refine ⟨i, by rw [hc]; exact ((p.mem i).mp hi).1, ?_⟩
    rw [k.objectsIn_filled hi hordinary hlaid]
    exact List.mem_map_of_mem hq
  | moved m hm e =>
    have hn := p.within_of_move w hm
    have hdown := p.moves.down m hm
    refine ⟨m.target, by rw [hc]; omega, ?_⟩
    rw [k.objectsIn_taken hm ⟨Nat.le_refl _, by omega⟩, if_pos rfl, e, p.place_of_move hm]
    simp
  | kept i hi hk ho =>
    refine ⟨i, by rw [hc]; exact hi, ?_⟩
    rw [k.objectsIn_kept hi hk (k.kept_of hi hk), (k.fixed_of_kept hi hk ho).1]
    exact ho

/-- There are no other objects. -/
theorem carried_of_isObject (hp : h'.IsObject p) : ∃ o, c.Carried h L f o ∧ f.place o = p := by
  obtain ⟨i, hi, ho⟩ := hp
  rw [k.regionCount] at hi
  cases k.ended hi with
  | taken m hm ht _ _ =>
    rw [k.objectsIn_taken hm ht] at ho
    split at ho
    · obtain rfl : p = L.bottom m.target := by simpa using ho
      exact ⟨_, .moved m hm rfl, k.planned.place_of_move hm⟩
    · simp at ho
  | empty _ hkind _ =>
    rw [Heap.objectsIn, hkind] at ho
    simp [RegionKind.isOrdinary, RegionKind.isFree, RegionKind.isStartsHumongous] at ho
  | filled hl _ hordinary hlaid _ =>
    rw [k.objectsIn_filled hl hordinary hlaid] at ho
    obtain ⟨q, hq, rfl⟩ := List.mem_map.mp ho
    exact ⟨q.1, .slid (k.planned.only i hl q hq).2,
      (k.planned.destination_of k.consistent hl hq).1⟩
  | kept hk r =>
    rw [k.objectsIn_kept hi hk r] at ho
    exact ⟨p, .kept i hi hk ho, (k.fixed_of_kept hi hk ho).1⟩

theorem keeps_of_spot (hi : i < L.count) (hk : c.Keeps h f i) (ho : o ∈ h.objectsIn i)
    (ha : h.Spot f.place o a) : (o ≤ a ∧ a < Object.limit h.memory o) ∧
      ∃ j, c.Keeps h f j ∧ L.bottom j ≤ a ∧ a < L.bottom j + L.bytes := by
  unfold Heap.Spot at ha
  rw [(k.fixed_of_kept hi hk ho).1] at ha
  exact ⟨ha, k.keeps_of_word hi hk ho ha.1 ha.2⟩

theorem spot_not_kept (hs : h.Slides c.scope.clearSoft c.scope.threshold o)
    (ha : h.Spot f.place o a) (hk : c.Keeps h f i) (hfrom : L.bottom i ≤ a)
    (hto : a < L.bottom i + L.bytes) : False := by
  obtain ⟨j, hj, -, hbottom, hend⟩ := k.planned.spot_of_slides k.consistent hs
  have hr := Layout.regionOf_eq hfrom hto
  rw [Layout.regionOf_eq (i := j) (Nat.le_trans hbottom ha.1) (by have := ha.2; omega)] at hr
  exact hk.unlisted (hr ▸ hj)

theorem covers_not_kept {m : HumongousMove} (hm : m ∈ f.moves) (ha : Covers L m a)
    (hk : c.Keeps h f i) (hfrom : L.bottom i ≤ a) (hto : a < L.bottom i + L.bytes) : False :=
  k.planned.not_takes hk hm (Layout.between ha.1 ha.2 hfrom hto)

theorem slid_apart (hs : h.Slides c.scope.clearSoft c.scope.threshold o) (hq : c.Carried h L f q)
    (hne : o ≠ q) (ha : h.Spot f.place o a) : ¬h.Spot f.place q a := by
  have w := k.consistent
  intro haq
  cases hq with
  | slid hq =>
    have := k.planned.spots_apart w hs hq hne
    unfold Heap.Spot at ha haq
    omega
  | moved m hm e =>
    subst e
    exact k.planned.spot_not_covered w hm hs ha (covers_of_spot w k.planned hm haq)
  | kept i hi hk hq =>
    obtain ⟨-, j, hj, hfrom, hto⟩ := k.keeps_of_spot hi hk hq haq
    exact k.spot_not_kept hs ha hj hfrom hto

theorem moved_apart {m : HumongousMove} (hm : m ∈ f.moves) (hq : c.Carried h L f q)
    (hne : L.bottom m.source ≠ q) (ha : h.Spot f.place (L.bottom m.source) a) :
    ¬h.Spot f.place q a := by
  have w := k.consistent
  have hc := covers_of_spot w k.planned hm ha
  intro haq
  cases hq with
  | slid hq => exact k.planned.spot_not_covered w hm hq haq hc
  | moved m' hm' e =>
    subst e
    have hc' := covers_of_spot w k.planned hm' haq
    have hstart : L.start ≤ a := Nat.le_trans (L.start_le_bottom _) hc.1
    obtain ⟨hfrom, hto⟩ := Layout.bounds_of_regionOf hstart rfl
    rw [k.planned.moves.takes_unique hm hm' (Layout.between hc.1 hc.2 hfrom hto)
      (Layout.between hc'.1 hc'.2 hfrom hto)] at hne
    exact hne rfl
  | kept i hi hk hq =>
    obtain ⟨-, j, hj, hfrom, hto⟩ := k.keeps_of_spot hi hk hq haq
    exact k.covers_not_kept hm hc hj hfrom hto

/-- Objects do not overlap afterwards. -/
theorem apart (ho : c.Carried h L f o) (hq : c.Carried h L f q) (hne : o ≠ q)
    (ha : h.Spot f.place o a) : ¬h.Spot f.place q a := by
  have w := k.consistent
  cases ho with
  | slid ho => exact k.slid_apart ho hq hne ha
  | moved m hm e =>
    subst e
    exact k.moved_apart hm hq hne ha
  | kept i hi hk ho =>
    intro haq
    obtain ⟨hin, j, hj, hfrom, hto⟩ := k.keeps_of_spot hi hk ho ha
    cases hq with
    | slid hq => exact k.spot_not_kept hq haq hj hfrom hto
    | moved m hm e =>
      subst e
      exact k.covers_not_kept hm (covers_of_spot w k.planned hm haq) hj hfrom hto
    | kept i' hi' hk' hq =>
      obtain ⟨hin', -⟩ := k.keeps_of_spot hi' hk' hq haq
      rcases Nat.lt_or_gt_of_ne hne with hlt | hlt
      · have := w.apart (w.isObject hi ho) (w.isObject hi' hq) hlt
        omega
      · have := w.apart (w.isObject hi' hq) (w.isObject hi ho) hlt
        omega

theorem place_injective (ho : c.Carried h L f o) (hq : c.Carried h L f q)
    (he : f.place o = f.place q) : o = q := by
  by_cases hne : o = q
  · exact hne
  · have hsize := k.consistent.size_ge (k.isObject_of_carried ho)
    have hsize' := k.consistent.size_ge (k.isObject_of_carried hq)
    exact absurd ⟨Nat.le_of_eq he.symm, by omega⟩
      (k.apart ho hq hne (a := f.place o) ⟨Nat.le_refl _, by omega⟩)

end Collected

end Collector

end RegionHeap
