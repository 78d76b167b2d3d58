import RegionHeap.Proofs.HumongousMoves
import RegionHeap.Proofs.RunSearch
import RegionHeap.Proofs.SerialPlan

/-!
The plan for humongous objects. They are handled in ascending order; each that moves takes a run
of regions that begins before its own first region, and what it leaves may be taken by later ones.
-/
set_option autoImplicit false

namespace RegionHeap

/-- A humongous object is forwarded to the lowest run before its own regions, or it stays. Either
way the regions it ends up in are taken out of the list. -/
theorem CompactionPoint.forwardHumongous_of {L : Layout} {t : RegionTable} (ht : t.Laid L)
    {p : CompactionPoint} {i n : Nat} (hi : i < L.count)
    (hk : (t.region i).kind.isStartsHumongous = true) (hn : 0 < n)
    (ha : p.regions.Pairwise (· < ·)) (hin : ∀ x ∈ p.regions, x < L.count)
    (hown : ∀ x, i ≤ x → x < i + n → x ∈ p.regions) :
    ∃ target p' t', p.forwardHumongous t i n = .ok (target, p', t') ∧
      p'.regions.Pairwise (· < ·) ∧
      (∀ x, x ∈ p'.regions ↔ x ∈ p.regions ∧ ¬(target.getD i ≤ x ∧ x < target.getD i + n)) ∧
      (∀ u, u < target.getD i → Lacks p.regions u n) ∧
      (target = none ∧ t' = t ∨ ∃ j, target = some j ∧ j < i ∧
        (∀ x, j ≤ x → x < j + n → x ∈ p.regions) ∧
        t' = { t with memory := Object.forwardTo t.memory (L.bottom i) (L.bottom j) }) := by
  obtain ⟨before, after, own⟩ := exists_isRun ha hn hown
  have hcount : L.count < Word.limit := by
    have := L.count_lt
    omega
  have hl : RegionList p.regions := ⟨ha, fun x hx => Nat.lt_trans (hin x hx) hcount,
    Nat.lt_of_le_of_lt (length_le_of_ascending ha hin) hcount⟩
  obtain ⟨found, hf, hlowest⟩ := runBefore_of ha hn own hl.words hl.length
  obtain ⟨target, p', hp, htarget, d⟩ :=
    forwardHumongous_eq hl hn own (fun x hx => ht.size ▸ hin x hx) hk hf hlowest
  refine ⟨target, p', _, hp, d.ascending, fun x => d.mem_iff, ?_⟩
  cases found with
  | none =>
    subst htarget
    exact ⟨hlowest.none rfl, .inl ⟨rfl, rfl⟩⟩
  | some start =>
    obtain ⟨j, before', after', hj, rfl, r, hlacks⟩ := hlowest.some start rfl
    obtain rfl : target = some j := htarget.trans (r.get hn)
    refine ⟨hlacks, .inr ⟨j, rfl, hj, fun x hfrom hto => r.mem_of hfrom hto, ?_⟩⟩
    simp only [RegionTable.sent, (ht.region i hi).bottom,
      (ht.region j (Nat.lt_trans hj hi)).bottom]

theorem CompactionPoint.untouched_sublist (p : CompactionPoint) :
    p.untouched.Sublist p.regions := by
  unfold untouched
  split
  · exact List.drop_sublist _ _
  · exact List.Sublist.refl _

namespace Heap.Consistent

variable {h : Heap} {L : Layout} {clearSoft : Bool} {threshold i j k : Nat}

theorem fate_of_movable (w : h.Consistent L) (hi : i < L.count) (hm : h.movable clearSoft i)
    (hk : i ≤ k ∧ k < i + h.humongousSpan (h.region i)) :
    h.fate clearSoft threshold k = .skipCompacting := by
  have hkl : k < L.count := Nat.lt_of_lt_of_le hk.2 (w.humongous i hi hm.1).within
  rw [fate_of_owner hm.1 ((w.owner_eq_iff hkl hi hm.1).mpr hk), if_pos (.inl hm.2.1)]

theorem fate_of_leaves (w : h.Consistent L) (threshold : Nat) {empty : Nat → Prop}
    {moves : List HumongousMove} (v : Moves h L clearSoft empty moves) {m : HumongousMove}
    (hm : m ∈ moves) (hk : m.Leaves k) :
    k < L.count ∧ h.fate clearSoft threshold k = .skipCompacting := by
  obtain ⟨hs, hmove, hcount⟩ := v.source m hm
  rw [HumongousMove.Leaves, hcount] at hk
  exact ⟨Nat.lt_of_lt_of_le hk.2 (w.humongous m.source hs hmove.1).within,
    w.fate_of_movable hs hmove hk⟩

theorem span_le (w : h.Consistent L) (hi : i < L.count) (hj : j < L.count)
    (hki : (h.region i).kind.isStartsHumongous) (hkj : (h.region j).kind.isStartsHumongous)
    (hlt : i < j) : i + h.humongousSpan (h.region i) ≤ j := by
  by_cases hle : i + h.humongousSpan (h.region i) ≤ j
  · exact hle
  · have := (w.owner_eq_iff hj hi hki).mpr ⟨Nat.le_of_lt hlt, by omega⟩
    rw [owner_of_starts hkj] at this
    omega

end Heap.Consistent

namespace Collector

variable {c d e f : Collector} {h : Heap} {L : Layout} {fill : Nat → List (Nat × Nat)}

theorem SlidePlan.ready (s : c.Sorted h L d) (o : c.SlidePlan h L d e fill) : e.Ready L := by
  have r := s.ready
  have hsame := o.same
  have hworkers : d.workers = c.workers := by rw [s.same]; rfl
  rw [hsame]
  exact ⟨r.heap.withTable o.plan.laid, r.attrs, r.live, o.plan.tops, o.size.trans hworkers.symm,
    r.workers, r.gang⟩

theorem SlidePlan.attrs (o : c.SlidePlan h L d e fill) : e.attrs = d.attrs := by
  rw [o.same]
  rfl

theorem SlidePlan.span (w : h.Consistent L) (m : c.Marked h L) (s : c.Sorted h L d)
    (o : c.SlidePlan h L d e fill) {i : Nat} (hi : i < L.count)
    (hk : (h.region i).kind.isStartsHumongous) :
    e.heap.humongousSpan (e.heap.region i) = h.humongousSpan (h.region i) := by
  have hopt : e.heap.options = h.options := by
    rw [o.same]
    show d.heap.options = _
    rw [s.same]
    exact m.options
  have hb : (e.heap.region i).bottom = L.bottom i := (o.plan.laid.region i hi).bottom
  have hobj : h.IsObject (L.bottom i) :=
    w.isObject hi (by rw [w.objectsIn_humongous hi hk]; simp)
  have hsize : Object.size e.heap.memory (L.bottom i) = Object.size h.memory (L.bottom i) :=
    o.plan.size w hobj
  unfold Heap.humongousSpan Heap.regionsFor Heap.regionWords
  rw [hb, (w.laid hi).bottom, hsize, hopt]

theorem SlidePlan.starts (w : h.Consistent L) (s : c.Sorted h L d) (o : c.SlidePlan h L d e fill)
    {i : Nat} (hi : i < L.count) (hm : h.movable c.scope.clearSoft i) :
    (e.heap.table.region i).kind.isStartsHumongous = true := by
  have hf : h.fate c.scope.clearSoft c.scope.threshold i = .skipCompacting :=
    w.fate_of_movable hi hm ⟨Nat.le_refl _, by have := w.span_pos hi hm.1; omega⟩
  have hk := ((o.plan.region i hi).trans (s.region i hi).1).kind
  rw [Heap.sorted, if_neg (by rw [hf]; simp)] at hk
  rw [show (e.heap.table.region i).kind = _ from hk]
  exact hm.1

/-- What planning for humongous objects changes. -/
def withMoves (c : Collector) (m : Memory) (attrs : AttrTable) (moves : List HumongousMove) :
    Collector :=
  { c.setMemory m with attrs := attrs, moves := moves }

/-- The moves are planned: objects that move know their place, and their regions are to be left. -/
structure MovesPlanned (c : Collector) (h : Heap) (L : Layout) (e f : Collector) : Prop where
  same : f = e.withMoves f.memory f.attrs f.moves
  size : f.attrs.size = L.count
  moves : Moves h L c.scope.clearSoft (fun k =>
    h.fate c.scope.clearSoft c.scope.threshold k = .free ∨ k ∈ e.serial.untouched) f.moves
  left : ∀ m ∈ f.moves, ∀ k, m.Leaves k → f.attrs.attr k = .compacting
  stay : ∀ k, (∀ m ∈ f.moves, ¬m.Leaves k) → f.attrs.attr k = e.attrs.attr k
  sent : ∀ m ∈ f.moves, f.memory.read (L.bottom m.source) = L.bottom m.target
  memory : ∀ a, (∀ m ∈ f.moves, a ≠ L.bottom m.source) → f.memory.read a = e.memory.read a

/-- The regions that will be empty. -/
noncomputable def vacancies (c : Collector) (h : Heap) (L : Layout) (e : Collector) : List Nat :=
  e.serial.untouched ++ (List.range L.count).filter fun k =>
    h.fate c.scope.clearSoft c.scope.threshold k == .free

theorem SlidePlan.mem_vacancies (o : c.SlidePlan h L d e fill) {k : Nat}
    (hk : k ∈ c.vacancies h L e) : k < L.count ∧
      (h.fate c.scope.clearSoft c.scope.threshold k = .free ∨ k ∈ e.serial.untouched) ∧
      h.fate c.scope.clearSoft c.scope.threshold k ≠ .skipCompacting := by
  rcases List.mem_append.mp hk with hk | hk
  · have h' := (o.mem k).mp (List.mem_append_right _ (e.serial.untouched_sublist.subset hk))
    exact ⟨h'.1, .inr hk, by rw [h'.2]; simp⟩
  · obtain ⟨hlt, hfree⟩ := List.mem_filter.mp hk
    have hfree := eq_of_beq hfree
    exact ⟨List.mem_range.mp hlt, .inl hfree, by rw [hfree]; simp⟩

/-- A region that will be empty, or that one of the objects that are left to plan for is in. -/
def Spare (c : Collector) (h : Heap) (L : Layout) (e : Collector) (rest : List Nat) (k : Nat) :
    Prop :=
  k ∈ c.vacancies h L e ∨ ∃ i ∈ rest, i ≤ k ∧ k < i + h.humongousSpan (h.region i)

theorem Spare.cons {i k : Nat} {rest : List Nat} (v : c.Spare h L e rest k) :
    c.Spare h L e (i :: rest) k :=
  v.imp_right fun ⟨i', hi', hk⟩ => ⟨i', List.mem_cons_of_mem _ hi', hk⟩

/-- The moves planned so far, and the regions that may still be taken. -/
structure MovesPlanning (c : Collector) (h : Heap) (L : Layout) (e : Collector)
    (starts rest : List Nat) (f : Collector) (p : CompactionPoint) : Prop
    extends c.MovesPlanned h L e f where
  ascending : p.regions.Pairwise (· < ·)
  inside : ∀ k ∈ p.regions, k < L.count
  /-- The regions of the objects that are left to plan for are in the list. -/
  own : ∀ i ∈ rest, ∀ k, i ≤ k → k < i + h.humongousSpan (h.region i) → k ∈ p.regions
  vacant : ∀ k ∈ p.regions, (h.fate c.scope.clearSoft c.scope.threshold k = .free ∨
    k ∈ e.serial.untouched) ∨ (∃ m ∈ f.moves, m.Leaves k) ∨
      ∃ i ∈ rest, i ≤ k ∧ k < i + h.humongousSpan (h.region i)
  apart : ∀ k ∈ p.regions, ∀ m ∈ f.moves, ¬m.Takes k
  order : ∀ m ∈ f.moves, ∀ i ∈ rest, m.source < i
  /-- Whatever may become empty is in the list. -/
  listed : ∀ k, HumongousMove.Vacated (c.Spare h L e rest) f.moves k → k ∈ p.regions
  lowest : ∀ i ∈ starts, i ∉ rest → ∀ j, HumongousMove.Lands f.moves i j →
    HumongousMove.Lowest (c.Spare h L e rest) f.moves j (h.humongousSpan (h.region i))

/-- One more object is known to move. -/
theorem MovesPlanned.snoc {mem : Memory} {attrs attrs' : AttrTable} {moves : List HumongousMove}
    {v : HumongousMove} (g : c.MovesPlanned h L e (e.withMoves mem attrs moves))
    (hmoves : Moves h L c.scope.clearSoft (fun k =>
      h.fate c.scope.clearSoft c.scope.threshold k = .free ∨ k ∈ e.serial.untouched)
      (moves ++ [v]))
    (hbefore : ∀ v' ∈ moves, v'.source < v.source) (hz : attrs'.size = L.count)
    (hattr : ∀ k, attrs'.attr k =
      if v.source ≤ k ∧ k < v.source + v.count then .compacting else attrs.attr k) :
    c.MovesPlanned h L e (e.withMoves
      (Object.forwardTo mem (L.bottom v.source) (L.bottom v.target)) attrs' (moves ++ [v])) := by
  have hlast : v ∈ moves ++ [v] := List.mem_append_right _ (List.mem_singleton.mpr rfl)
  refine ⟨rfl, hz, hmoves, fun v' hv k hk => ?_, fun k hk => ?_, fun v' hv => ?_, fun a ha => ?_⟩
  · refine (hattr k).trans ?_
    rcases List.mem_append.mp hv with hv | hv
    · split
      · rfl
      · exact g.left v' hv k hk
    · obtain rfl := List.mem_singleton.mp hv
      exact if_pos hk
  · exact (hattr k).trans ((if_neg (hk v hlast)).trans
      (g.stay k fun v' hv => hk v' (List.mem_append_left _ hv)))
  · show (Memory.write mem (L.bottom v.source) (L.bottom v.target)).read _ = _
    rcases List.mem_append.mp hv with hv | hv
    · have := Layout.bottom_add_le (L := L) (hbefore v' hv)
      have := L.bytes_ge
      rw [Memory.read_write_of_ne _ _ (by omega)]
      exact g.sent v' hv
    · obtain rfl := List.mem_singleton.mp hv
      exact Memory.read_write_self ..
  · show (Memory.write mem (L.bottom v.source) (L.bottom v.target)).read _ = _
    rw [Memory.read_write_of_ne _ _ (Ne.symm (ha v hlast))]
    exact g.memory a fun v' hv => ha v' (List.mem_append_left _ hv)

theorem SlidePlan.count_of (w : h.Consistent L) (m : c.Marked h L) (s : c.Sorted h L d)
    (o : c.SlidePlan h L d e fill) {i : Nat} (hi : i < L.count)
    (hm : h.movable c.scope.clearSoft i) :
    (do return e.heap.humongousSpan (← e.region i) : Checked Nat) =
      .ok (h.humongousSpan (h.region i)) := by
  rw [Checked.bind_of ((o.ready s).region_of hi), o.span w m s hi hm.1]
  rfl

/-- Plans for one humongous object: it moves, or it stays. -/
def planNext (e : Collector) : Collector × CompactionPoint → Nat →
    Checked (Collector × CompactionPoint) := fun (c, p) start => do
  let count ← (do return e.heap.humongousSpan (← e.region start) : Checked Nat)
  let (target, p, table) ← CompactionPoint.forwardHumongous p c.heap.table start count
  let c := c.setTable table
  match target with
  | none => return (c, p)
  | some target =>
    let c ← c.setAttrs start count .compacting
    return ({ c with moves := c.moves ++ [⟨start, target, count⟩] }, p)

section Next

variable {i j : Nat} {starts rest : List Nat} {p p' : CompactionPoint} (w : h.Consistent L)
  (g : c.MovesPlanning h L e starts (i :: rest) f p) (hasc : (i :: rest).Pairwise (· < ·))
  (hmove : ∀ i' ∈ i :: rest, i' < L.count ∧ h.movable c.scope.clearSoft i')

include w hasc hmove

theorem span_le_of_next {i' : Nat} (hi' : i' ∈ rest) : i + h.humongousSpan (h.region i) ≤ i' :=
  w.span_le (hmove i (by simp)).1 (hmove i' (by simp [hi'])).1 (hmove i (by simp)).2.1
    (hmove i' (by simp [hi'])).2.1 ((List.pairwise_cons.mp hasc).1 i' hi')

include g

theorem MovesPlanning.vacant_next {k : Nat} (hk : k ∈ p.regions)
    (hlt : k < i + h.humongousSpan (h.region i)) :
    (h.fate c.scope.clearSoft c.scope.threshold k = .free ∨ k ∈ e.serial.untouched) ∨
      i ≤ k ∨ ∃ v ∈ f.moves, v.Leaves k := by
  rcases g.vacant k hk with hv | hv | ⟨i', hi', hv⟩
  · exact .inl hv
  · exact .inr (.inr hv)
  · rcases List.mem_cons.mp hi' with rfl | hi'
    · exact .inr (.inl hv.1)
    · have := span_le_of_next w hasc hmove hi'
      omega

theorem MovesPlanning.own_rest (hle : j ≤ i) (hmem : ∀ k, k ∈ p'.regions ↔
      k ∈ p.regions ∧ ¬(j ≤ k ∧ k < j + h.humongousSpan (h.region i))) :
    ∀ i' ∈ rest, ∀ k, i' ≤ k → k < i' + h.humongousSpan (h.region i') → k ∈ p'.regions := by
  intro i' hi' k hfrom hto
  have := span_le_of_next w hasc hmove hi'
  exact (hmem k).mpr ⟨g.own i' (by simp [hi']) k hfrom hto, by omega⟩

theorem MovesPlanning.not_own {k : Nat} (v : HumongousMove.Vacated (c.Spare h L e rest) f.moves k)
    (hvacant : ∀ k ∈ c.vacancies h L e,
      h.fate c.scope.clearSoft c.scope.threshold k ≠ .skipCompacting) :
    ¬(i ≤ k ∧ k < i + h.humongousSpan (h.region i)) := by
  intro hk
  obtain ⟨hi, hm⟩ := hmove i (by simp)
  rcases v.vacant with (hv | ⟨i', hi', hk'⟩) | ⟨v', hv, hl⟩
  · exact hvacant k hv (w.fate_of_movable hi hm hk)
  · have := span_le_of_next w hasc hmove hi'
    omega
  · -- an object that moved is not the next one
    obtain ⟨hs, hms, hn⟩ := g.moves.source v' hv
    have := w.span_le hs hi hms.1 hm.1 (g.order v' hv i (by simp))
    have := hl.2
    omega

theorem MovesPlanning.stays (hasc' : p'.regions.Pairwise (· < ·)) (hmem : ∀ k, k ∈ p'.regions ↔
      k ∈ p.regions ∧ ¬(i ≤ k ∧ k < i + h.humongousSpan (h.region i)))
    (hlacks : ∀ u, u < i → Lacks p.regions u (h.humongousSpan (h.region i)))
    (hvacant : ∀ k ∈ c.vacancies h L e,
      h.fate c.scope.clearSoft c.scope.threshold k ≠ .skipCompacting) :
    c.MovesPlanning h L e starts rest f p' := by
  refine {
    toMovesPlanned := g.toMovesPlanned
    ascending := hasc'
    inside := fun k hk => g.inside k ((hmem k).mp hk).1
    own := g.own_rest w hasc hmove (Nat.le_refl _) hmem
    vacant := fun k hk => ?vacant
    apart := fun k hk => g.apart k ((hmem k).mp hk).1
    order := fun v hv i' hi' => g.order v hv i' (by simp [hi'])
    listed := fun k hv => (hmem k).mpr
      ⟨g.listed k (hv.mono Spare.cons), g.not_own w hasc hmove hv hvacant⟩
    lowest := fun i' hi' hno j hj => ?lowest }
  case vacant =>
    obtain ⟨hk, hout⟩ := (hmem k).mp hk
    rcases g.vacant k hk with hv | hv | ⟨i', hi', hv⟩
    · exact .inl hv
    · exact .inr (.inl hv)
    · rcases List.mem_cons.mp hi' with rfl | hi'
      · exact absurd hv hout
      · exact .inr (.inr ⟨i', hi', hv⟩)
  case lowest =>
    by_cases e' : i' = i
    · subst e'
      obtain rfl := hj.eq_self fun v hv => g.order v hv i' (by simp)
      exact .of_lacks hlacks (fun k hfrom hto => g.own j (by simp) k hfrom hto)
        fun k hv => g.listed k (hv.mono Spare.cons)
    · exact (g.lowest i' hi' (by simp [e', hno]) j hj).of_vacated fun k hv => hv.mono Spare.cons

theorem MovesPlanning.goes (hji : j < i)
    (hin : ∀ k, j ≤ k → k < j + h.humongousSpan (h.region i) → k ∈ p.regions)
    (hasc' : p'.regions.Pairwise (· < ·)) (hmem : ∀ k, k ∈ p'.regions ↔
      k ∈ p.regions ∧ ¬(j ≤ k ∧ k < j + h.humongousSpan (h.region i)))
    (hlacks : ∀ u, u < j → Lacks p.regions u (h.humongousSpan (h.region i)))
    {attrs' : AttrTable} (hz : attrs'.size = L.count) (hattr : ∀ k, attrs'.attr k =
      if i ≤ k ∧ k < i + h.humongousSpan (h.region i) then .compacting else f.attrs.attr k) :
    c.MovesPlanning h L e starts rest (e.withMoves
      (Object.forwardTo f.memory (L.bottom i) (L.bottom j)) attrs'
      (f.moves ++ [⟨i, j, h.humongousSpan (h.region i)⟩])) p' := by
  obtain ⟨hi, hm⟩ := hmove i (by simp)
  have hbefore : ∀ v ∈ f.moves, v.source < i := fun v hv => g.order v hv i (by simp)
  have hvacant : ∀ k, (⟨i, j, h.humongousSpan (h.region i)⟩ : HumongousMove).Takes k →
      (h.fate c.scope.clearSoft c.scope.threshold k = .free ∨ k ∈ e.serial.untouched) ∨
      (⟨i, j, h.humongousSpan (h.region i)⟩ : HumongousMove).Leaves k ∨
        ∃ v ∈ f.moves, v.Leaves k := by
    intro k hk
    have hbelow : k < i + h.humongousSpan (h.region i) :=
      Nat.lt_of_lt_of_le hk.2 (Nat.add_le_add_right (Nat.le_of_lt hji) _)
    exact (g.vacant_next w hasc hmove (hin k hk.1 hk.2) hbelow).imp id
      (Or.imp (fun hlisted => ⟨hlisted, hbelow⟩) id)
  have hmoves := g.moves.snoc (m := ⟨i, j, h.humongousSpan (h.region i)⟩) ⟨hi, hm, rfl⟩ hji
    hvacant hbefore fun v hv k hk hk' => g.apart k (hin k hk'.1 hk'.2) v hv hk
  -- what the object leaves was spare already while it was still to be planned for
  have hspare : ∀ k, HumongousMove.Vacated (c.Spare h L e rest)
      (f.moves ++ [⟨i, j, h.humongousSpan (h.region i)⟩]) k →
      HumongousMove.Vacated (c.Spare h L e (i :: rest)) f.moves k :=
    fun k hv => hv.of_snoc (fun hl => .inr ⟨i, by simp, hl⟩) Spare.cons
  have hplanned : c.MovesPlanned h L e (e.withMoves f.memory f.attrs f.moves) := by
    rw [← g.same]
    exact g.toMovesPlanned
  have hlast : (⟨i, j, h.humongousSpan (h.region i)⟩ : HumongousMove) ∈
      f.moves ++ [⟨i, j, h.humongousSpan (h.region i)⟩] :=
    List.mem_append_right _ (List.mem_singleton.mpr rfl)
  refine {
    toMovesPlanned := hplanned.snoc hmoves hbefore hz hattr
    ascending := hasc'
    inside := fun k hk => g.inside k ((hmem k).mp hk).1
    own := g.own_rest w hasc hmove (Nat.le_of_lt hji) hmem
    vacant := fun k hk => ?vacant
    apart := fun k hk v hv => ?apart
    order := fun v hv i' hi' => ?order
    listed := fun k hv => (hmem k).mpr ⟨g.listed k (hspare k hv), hv.untaken _ hlast⟩
    lowest := fun i' hi' hno j' hj' => ?lowest }
  case vacant =>
    rcases g.vacant k ((hmem k).mp hk).1 with hv | ⟨v, hv, hk'⟩ | ⟨i', hi', hv⟩
    · exact .inl hv
    · exact .inr (.inl ⟨v, List.mem_append_left _ hv, hk'⟩)
    · rcases List.mem_cons.mp hi' with rfl | hi'
      · exact .inr (.inl ⟨_, hlast, hv⟩)
      · exact .inr (.inr ⟨i', hi', hv⟩)
  case apart =>
    obtain ⟨hk, hout⟩ := (hmem k).mp hk
    rcases List.mem_append.mp hv with hv | hv
    · exact g.apart k hk v hv
    · obtain rfl := List.mem_singleton.mp hv
      exact hout
  case order =>
    rcases List.mem_append.mp hv with hv | hv
    · exact g.order v hv i' (by simp [hi'])
    · obtain rfl := List.mem_singleton.mp hv
      exact (List.pairwise_cons.mp hasc).1 i' hi'
  case lowest =>
    -- the search found no lower run for the object; runs that earlier objects lacked are no better
    -- now
    by_cases e' : i' = i
    · subst e'
      obtain rfl : j' = j := hj'.eq_target hbefore
      exact .of_lacks hlacks hin fun k hv => g.listed k (hspare k hv)
    · exact (g.lowest i' hi' (by simp [e', hno]) j' (hj'.of_snoc fun heq => e' heq.symm)).of_vacated
        hspare

theorem MovesPlanning.step (m : c.Marked h L) (s : c.Sorted h L d) (o : c.SlidePlan h L d e fill) :
    ∃ f' p', e.planNext (f, p) i = .ok (f', p') ∧
      c.MovesPlanning h L e starts rest f' p' := by
  obtain ⟨hi, hm⟩ := hmove i (by simp)
  have hwithin := (w.humongous i hi hm.1).within
  have hready := o.ready s
  obtain ⟨mem, attrs, moves, rfl⟩ : ∃ mem attrs moves, f = e.withMoves mem attrs moves :=
    ⟨_, _, _, g.same⟩
  have hlaid : (e.withMoves mem attrs moves).heap.table.Laid L := o.plan.laid.withMemory mem
  obtain ⟨target, p', t', hf, hasc', hmem, hlacks, hcases⟩ :=
    CompactionPoint.forwardHumongous_of hlaid hi (o.starts w s hi hm) (w.span_pos hi hm.1)
      g.ascending g.inside (g.own i (by simp))
  rw [planNext, Checked.bind_of (o.count_of w m s hi hm), Checked.bind_of hf]
  rcases hcases with ⟨rfl, rfl⟩ | ⟨j, rfl, hji, hin, rfl⟩
  · exact ⟨_, p', rfl, g.stays w hasc hmove hasc' hmem hlacks fun k hk =>
      (o.mem_vacancies hk).2.2⟩
  · have hready' : ((e.withMoves mem attrs moves).setTable {
        (e.withMoves mem attrs moves).heap.table with
          memory := Object.forwardTo mem (L.bottom i) (L.bottom j) }).Ready L :=
      ⟨hready.heap.withTable (o.plan.laid.withMemory _), g.size, hready.live, hready.tops,
        hready.points, hready.workers, hready.gang⟩
    obtain ⟨attrs', hset, hz, hattr⟩ := setAttrs_of hready' hwithin .compacting
    exact ⟨_, p', (Checked.bind_of hset _).trans rfl,
      g.goes w hasc hmove hji hin hasc' hmem hlacks hz hattr⟩

end Next

/-- Objects are planned for in ascending order, so that each goes only below its own place. -/
theorem MovesPlanning.run {starts : List Nat} {p : CompactionPoint} (w : h.Consistent L)
    (g : c.MovesPlanning h L e starts starts f p) (hasc : starts.Pairwise (· < ·))
    (hmove : ∀ i ∈ starts, i < L.count ∧ h.movable c.scope.clearSoft i) (m : c.Marked h L)
    (s : c.Sorted h L d) (o : c.SlidePlan h L d e fill) :
    ∃ f' p', starts.foldlM e.planNext (f, p) = .ok (f', p') ∧
      c.MovesPlanning h L e starts [] f' p' := by
  obtain ⟨⟨f', p'⟩, hf, -, -, g'⟩ := Checked.foldlM_of (f := e.planNext)
    (fun rest x => rest.Pairwise (· < ·) ∧
      (∀ i ∈ rest, i < L.count ∧ h.movable c.scope.clearSoft i) ∧
      c.MovesPlanning h L e starts rest x.1 x.2)
    (fun i rest x ⟨hasc, hmove, g⟩ => by
      obtain ⟨f', p', hf, g'⟩ := g.step w hasc hmove m s o
      exact ⟨(f', p'), hf, (List.pairwise_cons.mp hasc).2,
        fun j hj => hmove j (List.mem_cons_of_mem _ hj), g'⟩)
    starts (f, p) ⟨hasc, hmove, g⟩
  exact ⟨f', p', hf, g'⟩

theorem SlidePlan.moves (m : c.Marked h L) (s : c.Sorted h L d) (o : c.SlidePlan h L d e fill) :
    e.moves = [] := by
  rw [o.same]
  show d.moves = []
  rw [s.same]
  exact m.moves

theorem SlidePlan.still (m : c.Marked h L) (s : c.Sorted h L d) (o : c.SlidePlan h L d e fill) :
    c.MovesPlanned h L e e := by
  have hmoves := o.moves m s
  refine ⟨rfl, (o.ready s).attrs, by rw [hmoves]; exact .nil, ?_, fun _ _ => rfl, ?_,
    fun _ _ => rfl⟩
  · rw [hmoves]
    simp
  · rw [hmoves]
    simp

theorem SlidePlan.nodup_vacancies (o : c.SlidePlan h L d e fill) :
    (c.vacancies h L e).Nodup := by
  refine List.nodup_append.mpr ⟨(o.serialAscending.imp Nat.ne_of_lt).sublist
    e.serial.untouched_sublist, (List.nodup_range.filter _), fun k hk k' hk' e' => ?_⟩
  subst e'
  have hfate := (o.mem k).mp (List.mem_append_right _ (e.serial.untouched_sublist.subset hk))
  have hfree := eq_of_beq (List.mem_filter.mp hk').2
  rw [hfate.2] at hfree
  contradiction

theorem ascending_spans (w : h.Consistent L) {clearSoft : Bool} {starts : List Nat}
    (hasc : starts.Pairwise (· < ·))
    (hmove : ∀ i ∈ starts, i < L.count ∧ h.movable clearSoft i) :
    (starts.map fun i => List.range' i (h.humongousSpan (h.region i))).flatten.Pairwise
      (· < ·) := by
  rw [List.pairwise_flatten]
  refine ⟨fun l hl => ?_, List.pairwise_map.mpr (hasc.imp_of_mem fun hi hj hlt x hx y hy => ?_)⟩
  · obtain ⟨i, -, rfl⟩ := List.mem_map.mp hl
    exact List.pairwise_lt_range'
  · rw [List.mem_range'_1] at hx hy
    have := w.span_le (hmove _ hi).1 (hmove _ hj).1 (hmove _ hi).2.1 (hmove _ hj).2.1 hlt
    omega

theorem SlidePlan.planning (w : h.Consistent L) (m : c.Marked h L) (s : c.Sorted h L d)
    (o : c.SlidePlan h L d e fill) {starts : List Nat} (hasc : starts.Pairwise (· < ·))
    (hmove : ∀ i ∈ starts, i < L.count ∧ h.movable c.scope.clearSoft i) :
    ∃ p, CompactionPoint.sort { regions := c.vacancies h L e ++
        (starts.map fun i => List.range' i (h.humongousSpan (h.region i))).flatten } = .ok p ∧
      c.MovesPlanning h L e starts starts e p := by
  have hmem : ∀ k, k ∈ (starts.map fun i => List.range' i (h.humongousSpan (h.region i))).flatten ↔
      ∃ i ∈ starts, i ≤ k ∧ k < i + h.humongousSpan (h.region i) := by
    intro k
    rw [← List.flatMap_def, List.mem_flatMap]
    simp only [List.mem_range'_1]
  -- a region that will be empty is not one of an object that may move
  have hnodup : (c.vacancies h L e ++
      (starts.map fun i => List.range' i (h.humongousSpan (h.region i))).flatten).Nodup := by
    refine List.nodup_append.mpr ⟨o.nodup_vacancies,
      (ascending_spans w hasc hmove).imp Nat.ne_of_lt, fun k hk k' hk' e' => ?_⟩
    subst e'
    obtain ⟨i, hi, hik⟩ := (hmem k).mp hk'
    exact (o.mem_vacancies hk).2.2 (w.fate_of_movable (hmove i hi).1 (hmove i hi).2 hik)
  have hmoves := o.moves m s
  refine ⟨_, rfl, {
    toMovesPlanned := o.still m s
    ascending := ascending_mergeSort hnodup
    inside := fun k hk => ?inside
    own := fun i hi k hfrom hto =>
      List.mem_mergeSort.mpr (List.mem_append_right _ ((hmem k).mpr ⟨i, hi, hfrom, hto⟩))
    vacant := fun k hk => ?vacant
    apart := by simp [hmoves]
    order := by simp [hmoves]
    listed := fun k hv => ?listed
    lowest := fun i hi hno => absurd hi hno }⟩
  case inside =>
    rcases List.mem_append.mp (List.mem_mergeSort.mp hk) with hk | hk
    · exact (o.mem_vacancies hk).1
    · obtain ⟨i, hi, hik⟩ := (hmem k).mp hk
      exact Nat.lt_of_lt_of_le hik.2 (w.humongous i (hmove i hi).1 (hmove i hi).2.1).within
  case vacant =>
    rcases List.mem_append.mp (List.mem_mergeSort.mp hk) with hk | hk
    · exact .inl (o.mem_vacancies hk).2.1
    · exact .inr (.inr ((hmem k).mp hk))
  case listed =>
    refine List.mem_mergeSort.mpr (List.mem_append.mpr ?_)
    rcases hv.vacant with (hv | hv) | ⟨v, hv, -⟩
    · exact .inl hv
    · exact .inr ((hmem k).mpr hv)
    · rw [hmoves] at hv
      simp at hv

/-- An object that all regions which will be empty lie behind stays, and has no room below. -/
theorem MovesPlanned.lowest_of_le (w : h.Consistent L) (g : c.MovesPlanned h L e f) {low : Nat}
    (hlow : ∀ k ∈ c.vacancies h L e, low ≤ k) (hl : low ≤ L.count) {i j : Nat} (hi : i < L.count)
    (hm : h.movable c.scope.clearSoft i) (hle : i ≤ low) (hj : HumongousMove.Lands f.moves i j) :
    HumongousMove.Lowest (· ∈ c.vacancies h L e) f.moves j (h.humongousSpan (h.region i)) := by
  have hempty : ∀ k, (h.fate c.scope.clearSoft c.scope.threshold k = .free ∨
      k ∈ e.serial.untouched) → low ≤ k := by
    intro k hk
    by_cases hkl : k < L.count
    · refine hlow k (List.mem_append.mpr ?_)
      rcases hk with hk | hk
      · exact .inr (List.mem_filter.mpr ⟨List.mem_range.mpr hkl, beq_iff_eq.mpr hk⟩)
      · exact .inl hk
    · omega
  have htarget := g.moves.le_target hempty fun v hv => by
    obtain ⟨hs, hms, hn⟩ := g.moves.source v hv
    exact hn ▸ w.span_pos hs hms.1
  have hdown : j ≤ i := by
    rcases hj with ⟨v, hv, rfl, rfl⟩ | ⟨-, rfl⟩
    · exact Nat.le_of_lt (g.moves.down v hv)
    · exact Nat.le_refl _
  intro t ht
  have hpos := w.span_pos hi hm.1
  refine ⟨t, Nat.le_refl _, by omega, by omega, fun hv => ?_⟩
  rcases hv.vacant with hv | ⟨v, hv, hl⟩
  · have := hlow t hv
    omega
  · -- whatever moves comes from behind the first region that will be empty
    have := htarget v hv
    have := g.moves.down v hv
    have := hl.1
    omega

theorem SlidePlan.free_eq (s : c.Sorted h L d) (o : c.SlidePlan h L d e fill) :
    (e.heap.table.indices.filterM fun i => do
      return (← e.attrs.get i) == .free : Checked (List Nat)) =
      .ok ((List.range L.count).filter fun k =>
        h.fate c.scope.clearSoft c.scope.threshold k == .free) := by
  have hready := o.ready s
  rw [hready.indices]
  refine Checked.filterM_of fun k hk => ?_
  have hk := List.mem_range.mp hk
  rw [Checked.bind_of (hready.attr_of hk), o.attrs, s.attr k hk]
  rfl

theorem SlidePlan.spans_eq (w : h.Consistent L) (m : c.Marked h L) (s : c.Sorted h L d)
    (o : c.SlidePlan h L d e fill) {starts : List Nat}
    (hmove : ∀ i ∈ starts, i < L.count ∧ h.movable c.scope.clearSoft i) :
    (starts.mapM fun i => do
      return List.range' i (← (do return e.heap.humongousSpan (← e.region i) : Checked Nat)) :
        Checked (List (List Nat))) =
      .ok (starts.map fun i => List.range' i (h.humongousSpan (h.region i))) :=
  Checked.mapM_of fun i hi => by
    rw [Checked.bind_of (o.count_of w m s (hmove i hi).1 (hmove i hi).2)]
    rfl

theorem planHumongous_of (w : h.Consistent L) (m : c.Marked h L) (s : c.Sorted h L d)
    (o : c.SlidePlan h L d e fill) :
    ∃ f, e.planHumongous = .ok f ∧ c.MovesPlanned h L e f ∧
      AllLowest h L c.scope.clearSoft (· ∈ c.vacancies h L e) f.moves := by
  have hstarts : e.humongousStarts = d.humongousStarts := by
    rw [o.same]
    rfl
  rw [planHumongous, Checked.bind_of (o.free_eq s)]
  show ∃ f, (match (c.vacancies h L e).min? with
    | none => _
    | some lowest => _) = Except.ok f ∧ _
  cases hmin : (c.vacancies h L e).min? with
  | none =>
    -- no region will be empty, so that nothing can move
    have hnil : c.vacancies h L e = [] := List.min?_eq_none_iff.mp hmin
    exact ⟨e, rfl, o.still m s, fun i hi hm j hj => (o.still m s).lowest_of_le w
      (by simp [hnil]) (Nat.le_refl _) hi hm (Nat.le_of_lt hi) hj⟩
  | some lowest =>
    have hasc := s.starts.1.filter fun i => decide (lowest < i)
    have hmove : ∀ i ∈ d.humongousStarts.filter (fun i => decide (lowest < i)),
        i < L.count ∧ h.movable c.scope.clearSoft i :=
      fun i hi => ((s.starts.2 i).mp (List.mem_filter.mp hi).1).2
    obtain ⟨p, hsort, g⟩ := o.planning w m s hasc hmove
    obtain ⟨f, p', hf, g'⟩ := g.run w hasc hmove m s o
    refine ⟨f, ?_, g'.toMovesPlanned, fun i hi hm j hj => ?_⟩
    · rw [hstarts]
      refine (Checked.bind_of (o.spans_eq w m s hmove) _).trans ?_
      refine (Checked.bind_of hsort _).trans ?_
      exact (Checked.bind_of hf _).trans rfl
    · have hleast := List.min?_eq_some_iff.mp hmin
      -- what begins before the first region that will be empty is not planned for
      by_cases hle : i ≤ lowest
      · exact g'.toMovesPlanned.lowest_of_le w hleast.2 (Nat.le_of_lt (o.mem_vacancies hleast.1).1)
          hi hm hle hj
      · have hstart : i ∈ d.humongousStarts.filter fun i => decide (lowest < i) :=
          List.mem_filter.mpr ⟨(s.starts.2 i).mpr ⟨hi, hi, hm⟩, by simpa using hle⟩
        exact (g'.lowest i hstart (by simp) j hj).of_vacated fun k hv => hv.mono .inl

end Collector

end RegionHeap
