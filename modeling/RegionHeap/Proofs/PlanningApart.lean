import RegionHeap.Collection.Planning
import RegionHeap.Proofs.MarkingApart
import RegionHeap.Proofs.SerialPlan

/-!
Planning beside marks in regions that it leaves alone.
-/
set_option autoImplicit false

namespace RegionHeap

open Checked

/-- Every region is where its index says, with its top in it. -/
def RegionTable.Bounded (t : RegionTable) (L : Layout) : Prop :=
  ∀ i r, t.get i = .ok r → r.index = i ∧ r.top ≤ L.bottom i + L.bytes

namespace RegionTable

variable {t t' : RegionTable} {L : Layout} {i : Nat} {r : Region}

theorem Laid.bounded (h : t.Laid L) : t.Bounded L := by
  intro i r hr
  have hi : i < L.count := by
    rw [← h.size]
    exact (Table.entry_of_getElem? (Table.get_eq_ok.mp hr)).1
  have hl := h.region i hi
  obtain rfl : t.region i = r := Except.ok.inj ((h.get_of hi).symm.trans hr)
  exact ⟨hl.index, hl.top_le⟩

theorem Bounded.withMemory (h : t.Bounded L) (m : Memory) :
    ({ t with memory := m } : RegionTable).Bounded L := h

theorem Bounded.set (h : t.Bounded L) (hi : r.index = i) (ht : r.top ≤ L.bottom i + L.bytes) :
    Leaves (fun t' => t'.Bounded L) (t.set i r) := by
  refine Leaves.bind_any fun regions hs => Leaves.ok fun j r' hr' => ?_
  unfold Table.set at hs
  split at hs
  · obtain rfl := Except.ok.inj hs
    have he := Table.get_eq_ok.mp hr'
    rw [Array.set!_eq_setIfInBounds, Array.getElem?_setIfInBounds] at he
    split at he
    · next e =>
      subst e
      obtain rfl := Option.some.inj he
      exact ⟨hi, ht⟩
    · exact h j r' (Table.get_eq_ok.mpr he)
  · contradiction

end RegionTable

namespace CompactionPoint

variable {L : Layout} {p : CompactionPoint} {s : Plan}

theorem save_table (p : CompactionPoint) (s : Plan) :
    Leaves (fun s' => s'.table = s.table) (p.save s) := by
  refine Leaves.bind_any fun current _ => ?_
  cases current with
  | none => exact Leaves.ok rfl
  | some region => exact Leaves.bind_any fun _ _ => Leaves.ok rfl

theorem advance_table (p : CompactionPoint) (s : Plan) :
    Leaves (fun x => x.2.table = s.table) (p.advance s) := by
  refine Leaves.bind (p.save_table s) fun s' hs => ?_
  dsimp only
  split
  · exact Leaves.bind_any fun _ _ => Leaves.error _
  · refine Leaves.bind_any fun _ _ => Leaves.bind_any fun _ _ => Leaves.bind_any fun _ _ => ?_
    exact Leaves.ok hs

theorem makeRoom_table (words n : Nat) (p : CompactionPoint) (s : Plan) :
    Leaves (fun x => x.2.table = s.table) (makeRoom words n p s) := by
  induction n generalizing p s with
  | zero => exact Leaves.ok rfl
  | succ n ih =>
    refine Leaves.bind_any fun b _ => Leaves.ite (Leaves.ok rfl) ?_
    refine Leaves.bind (p.advance_table s) fun x hx => ?_
    intro y hy
    exact (ih x.1 x.2 y hy).trans hx

/-- Places are given out without moving a top. -/
theorem forward_bounded (hb : s.table.Bounded L) (object words : Nat) :
    Leaves (fun x => x.2.table.Bounded L) (p.forward s object words) := by
  refine Leaves.bind_any fun _ _ => Leaves.bind (makeRoom_table _ _ p s) fun x hx => ?_
  obtain ⟨p', s'⟩ := x
  have hb' : s'.table.Bounded L := by
    rw [show s'.table = _ from hx]
    exact hb
  refine Leaves.bind_any fun _ _ => Leaves.bind_any fun top _ => Leaves.bind_any fun r hr => ?_
  refine Leaves.bind_any fun _ _ => Leaves.bind_any fun r' hr' => ?_
  obtain ⟨i, -, hr⟩ := bind_eq_ok.mp hr
  obtain ⟨rfl, ht⟩ := hb' i r hr
  obtain ⟨blocks, -, hr'⟩ := bind_eq_ok.mp hr'
  obtain rfl := Except.ok.inj hr'
  exact Leaves.bind ((hb'.withMemory _).set rfl ht) fun t ht' => Leaves.ok ht'

end CompactionPoint

namespace Collector

variable {L : Layout} {A : Nat → Prop} {c c' : Collector} {i : Nat}

theorem Agree.freeRegion (h : Agree L A c c') (hi : ¬A i) :
    Both (Agree L A) (c.freeRegion i) (c'.freeRegion i) := by
  obtain ⟨l', rfl, h⟩ := h
  simp only [Collector.freeRegion, Heap.updateRegion, bind_assoc, pure_eq, ok_bind]
  refine Both.bind_same fun t _ => Both.bind (h.reset hi) fun m m' _ hm => ?_
  exact Both.bind_same fun attrs _ => .ok ⟨m', rfl, hm⟩

theorem Agree.setAttrs (h : Agree L A c c') (first count : Nat) (attr : RegionAttr) :
    Both (Agree L A) (c.setAttrs first count attr) (c'.setAttrs first count attr) := by
  obtain ⟨l', rfl, h⟩ := h
  exact Both.bind_same fun attrs _ => .ok ⟨l', rfl, h⟩

theorem Agree.sortHumongous (h : Agree L A c c') {r : Region} (hb : ¬A (L.regionOf r.bottom))
    (hr : ∀ j, r.index ≤ j → j < r.index + c.heap.humongousSpan r → ¬A j) :
    Both (Agree L A) (c.sortHumongous r) (c'.sortHumongous r) := by
  obtain ⟨l', rfl, h⟩ := h
  unfold Collector.sortHumongous
  dsimp only
  rw [show (c.setLiveness l').liveness.isMarked r.bottom = _ from h.isMarked_eq hb]
  refine Both.bind_same fun live _ => Both.ite (fun _ => ?_) fun _ => ?_
  · refine Both.bind (Agree.setAttrs ⟨l', rfl, h⟩ _ _ _) fun d d' _ hd => ?_
    obtain ⟨m', rfl, hm⟩ := hd
    refine .ok ?_
    split <;> exact ⟨m', rfl, hm⟩
  · refine Both.foldlM_mem (fun j hj d d' hd => hd.freeRegion ?_) ⟨l', rfl, h⟩
    have hj := List.mem_range'_1.mp hj
    exact hr j hj.1 hj.2

theorem Agree.sortRegion (h : Agree L A c c')
    (hi : ∀ attr, c.attrs.get i = .ok attr → attr.isMarkedThrough → ¬A i)
    (hs : ∀ r, c.region i = .ok r → r.kind.isStartsHumongous → L.regionOf r.bottom = i ∧
      ∀ j, r.index ≤ j → j < r.index + c.heap.humongousSpan r → ¬A j) (next : Nat) :
    Both (fun x y => Agree L A x.1 y.1 ∧ x.2 = y.2) (c.sortRegion next i)
      (c'.sortRegion next i) := by
  obtain ⟨l', rfl, h⟩ := h
  have agree : Agree L A c (c.setLiveness l') := ⟨l', rfl, h⟩
  unfold Collector.sortRegion
  refine Both.bind_same fun r hr => Both.bind_same fun attr ha => ?_
  cases attr
  case free | skipMarking => exact .ok ⟨agree, rfl⟩
  all_goals
    have hA := hi _ ha rfl
    refine Both.ite (fun _ => .ok ⟨agree, rfl⟩) fun _ => Both.ite (fun hst => ?_) fun _ => ?_
  case skipCompacting.refine_1 | compacting.refine_1 =>
    obtain ⟨hb, hspan⟩ := hs r hr hst
    exact Both.bind (agree.sortHumongous (hb ▸ hA) hspan) fun _ _ _ hd => .ok ⟨hd, rfl⟩
  · refine Both.bind_same fun live _ => ?_
    simp only [beq_self_eq_true, if_true]
    refine Both.ite (fun _ => ?_) fun _ => .ok ⟨agree, rfl⟩
    exact Both.bind (agree.freeRegion hA) fun _ _ _ hd => .ok ⟨hd, rfl⟩
  · refine Both.bind_same fun live _ => Both.ite (fun hf => nomatch hf) fun _ => ?_
    refine Both.ite (fun _ => ?_) fun _ => Both.ite (fun _ => ?_) fun _ => ?_
    · exact Both.bind (agree.freeRegion hA) fun _ _ _ hd => .ok ⟨hd, rfl⟩
    · exact Both.bind_same fun attrs _ => .ok ⟨⟨l', rfl, h⟩, rfl⟩
    · exact Both.bind_same fun point _ => .ok ⟨⟨l', rfl, h⟩, rfl⟩

theorem Agree.forgetReferences (h : Agree L A c c') :
    Both (Agree L A) c.forgetReferences c'.forgetReferences := by
  obtain ⟨l', rfl, h⟩ := h
  exact Both.bind_same fun table _ => .ok ⟨l', rfl, h⟩

section Slides

variable {l l' : LivenessMap} {p : CompactionPoint} {s : Plan}

theorem emptyTarget_bounded (hb : s.table.Bounded L) (i : Nat) :
    Leaves (fun s' => s'.table.Bounded L) (emptyTarget s i) := by
  refine Leaves.bind_any fun r _ => Leaves.bind_any fun s' hs => ?_
  have hs : s'.table = s.table := by
    obtain ⟨tops, -, hs⟩ := bind_eq_ok.mp hs
    obtain rfl := Except.ok.inj hs
    rfl
  refine Leaves.bind (P := fun t => t.Bounded L) ?_ fun t ht => Leaves.ok ht
  rw [hs]
  refine Leaves.bind_any fun r hr => ?_
  obtain ⟨hi, ht⟩ := hb i r hr
  exact hb.set hi ht

theorem forwardRegion_both (h : LivenessMap.Agree L A l l') (hi : ¬A i) (hb : s.table.Bounded L)
    (which : Memory → Nat → Checked Bool) :
    Both (fun x y => x = y ∧ x.2.table.Bounded L) (forwardRegion l which p s i)
      (forwardRegion l' which p s i) := by
  refine Both.bind_same fun r hr => ?_
  refine LivenessMap.walk_both (fun _ _ _ => h) hi (hb i r hr).2 (fun x y o _ hxy => ?_) ⟨rfl, hb⟩
  obtain ⟨rfl, hb⟩ := hxy
  refine Both.same fun a ha => ⟨rfl, rfl, ?_⟩
  refine Leaves.bind_any (Q := fun a => a.2.2.table.Bounded L) (fun b _ => ?_) a ha
  exact Leaves.ite (Leaves.bind (CompactionPoint.forward_bounded hb _ _) fun _ hx => Leaves.ok hx)
    (Leaves.ok hb)

theorem planRegion_both (h : LivenessMap.Agree L A l l') (hi : ¬A i) (hb : s.table.Bounded L) :
    Both (fun x y => x = y ∧ x.2.table.Bounded L) (planRegion l (p, s) i)
      (planRegion l' (p, s) i) := by
  refine Both.bind_same fun s' hs => ?_
  have hb' := emptyTarget_bounded hb i s' hs
  dsimp only
  refine Both.ite (fun _ => ?_) fun _ => ?_ <;>
    exact Both.bind_same fun p' _ => forwardRegion_both h hi hb' _

end Slides

theorem Agree.planWorker (h : Agree L A c c') (hb : c.heap.table.Bounded L) (worker : Nat)
    (hp : ∀ p, Table.get c.points worker = .ok p → ∀ i ∈ p.regions, ¬A i) :
    Both (Agree L A) (planWorker worker c) (planWorker worker c') := by
  obtain ⟨l', rfl, h⟩ := h
  refine Both.bind_same fun p hpoint => ?_
  refine Both.bind (Both.foldlM_mem (R := fun x y => x = y ∧ x.2.table.Bounded L)
    (fun i hi x y hxy => ?_) ⟨rfl, hb⟩) fun x y _ hxy => ?_
  · obtain ⟨rfl, hb⟩ := hxy
    exact planRegion_both h (hp p hpoint i hi) hb
  · obtain ⟨rfl, -⟩ := hxy
    exact Both.bind_same fun s _ => .ok ⟨l', rfl, h⟩

theorem mem_sorted {p q q' : CompactionPoint} {s : Plan} (hs : p.sort = .ok q)
    (hq : q.start s = .ok q') (hi : i ∈ q'.regions) : i ∈ p.regions := by
  obtain ⟨-, -, hs⟩ := bind_eq_ok.mp hs
  obtain rfl := Except.ok.inj hs
  unfold CompactionPoint.start at hq
  split at hq
  · contradiction
  · obtain ⟨top, -, hq⟩ := bind_eq_ok.mp hq
    obtain rfl := Except.ok.inj hq
    simpa using hi

theorem Agree.planSerially (h : Agree L A c c') (hb : c.heap.table.Bounded L)
    (hp : ∀ p ∈ c.points.toList, ∀ i ∈ p.regions, ¬A i) (hs : ∀ i ∈ c.serial.regions, ¬A i) :
    Both (Agree L A) c.planSerially c'.planSerially := by
  obtain ⟨l', rfl, h⟩ := h
  unfold Collector.planSerially
  refine Both.ite (fun _ => .ok ⟨l', rfl, h⟩) fun _ => ?_
  refine Both.bind_same fun q hq => Both.bind_same fun p hstart => ?_
  refine Both.bind (Both.foldlM_mem (R := fun x y => x = y ∧ x.2.table.Bounded L)
    (fun i hi x y hxy => ?_) ⟨rfl, hb⟩) fun x y _ hxy => ?_
  · obtain ⟨rfl, hb⟩ := hxy
    refine Both.bind_same fun s hempty => ?_
    refine forwardRegion_both h ?_ (emptyTarget_bounded hb i s hempty) _
    have hi := mem_sorted hq hstart (List.drop_subset _ _ hi)
    rw [CompactionPoint.foldl_add] at hi
    rcases List.mem_append.mp hi with hi | hi
    · exact hs i hi
    · simp only [List.mem_flatMap, List.mem_map] at hi
      obtain ⟨_, ⟨p', hp', rfl⟩, hi⟩ := hi
      refine hp p' hp' i ?_
      split at hi
      · exact List.drop_subset _ _ hi
      · simp at hi
  · obtain ⟨rfl, -⟩ := hxy
    exact Both.bind_same fun s _ => .ok ⟨l', rfl, h⟩

theorem Agree.planHumongous (h : Agree L A c c') :
    Both (Agree L A) c.planHumongous c'.planHumongous := by
  obtain ⟨l', rfl, h⟩ := h
  refine Both.bind_same fun free _ => ?_
  dsimp only
  rw [show (c.setLiveness l').serial = c.serial from rfl]
  cases (c.serial.untouched ++ free).min? with
  | none => exact .ok ⟨l', rfl, h⟩
  | some lowest =>
    refine Both.bind_same fun own _ => Both.bind_same fun p _ => ?_
    refine Both.bind (Both.foldlM_mem
      (R := fun x y => Agree L A x.1 y.1 ∧ x.2 = y.2) (fun start _ x y hxy => ?_)
      ⟨⟨l', rfl, h⟩, rfl⟩) fun _ _ _ hxy => .ok hxy.1
    obtain ⟨d, p⟩ := x
    obtain ⟨d', p'⟩ := y
    obtain ⟨⟨m', rfl, hm⟩, rfl⟩ := hxy
    refine Both.bind_same fun count _ => Both.bind_same fun z _ => ?_
    obtain ⟨target, p, table⟩ := z
    cases target with
    | none => exact .ok ⟨⟨m', rfl, hm⟩, rfl⟩
    | some target =>
      refine Both.bind (Agree.setAttrs (c := d.setTable table) ⟨m', rfl, hm⟩ _ _ _)
        fun e e' _ he => ?_
      obtain ⟨m', rfl, hm⟩ := he
      exact .ok ⟨⟨m', rfl, hm⟩, rfl⟩

theorem Agree.noteCompacted (h : Agree L A c c') :
    Both (Agree L A) c.noteCompacted c'.noteCompacted := by
  obtain ⟨l', rfl, h⟩ := h
  exact Both.bind_same fun words _ => .ok ⟨l', rfl, h⟩

end Collector

end RegionHeap
