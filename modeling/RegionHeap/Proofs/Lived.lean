import RegionHeap.Proofs.History
import RegionHeap.Proofs.Nominating

/-!
Heaps that have lived. A heap is made, and then anything happens to it that is not refused: the
program allocates, frees and writes what it likes, regions become candidates, and the heap is
collected whatever state its objects are in. The free list goes on listing the free regions, and
humongous allocation goes on taking the lowest free regions that will do.
-/
set_option autoImplicit false

namespace RegionHeap

open Checked

theorem IndexList.filter_congr {n : Nat} {p q : Nat → Bool} (h : ∀ j, j < n → p j = q j) :
    (⟨(List.range n).filter p⟩ : IndexList) = ⟨(List.range n).filter q⟩ :=
  congrArg IndexList.mk (List.filter_congr fun j hj => h j (List.mem_range.mp hj))

namespace Heap

variable {h h' : Heap} {L : Layout} {i words : Nat} {r : Region}

/-- Objects are put into regions that are in use. -/
def Admits (h : Heap) : Event → Prop
  | .operate (.newObject region _ _) => (h.region region).kind.isFree = false
  | _ => True

/-- A heap that was made and has lived since. Words are also taken without an object in them, and
whatever is in the memory may be written over and marked. -/
inductive Lived : Heap → Prop where
  | create {system : Mapping.System} {rounds : Rounds} {o : Options} {bytes : Nat} {p : Policy}
      {h : Heap} : system.Lawful → o.Valid → create system rounds o bytes p = .ok h → Lived h
  | happen {h h' : Heap} {e : Event} : Lived h → h.Admits e → h.happen e = .ok h' → Lived h'
  | allocate {h : Heap} {i words : Nat} {x : Option Nat × RegionTable} : Lived h →
      (h.region i).kind.isFree = false → h.table.allocate i words = .ok x →
      Lived { h with table := x.2 }
  | write {h : Heap} (m : Memory) : Lived h → Lived (h.setMemory m)
  | mark {h : Heap} (l : LivenessMap) : Lived h → Lived { h with liveness := l }

theorem updateRegion_eq_ok {f : Region → Checked Region} (hu : h.updateRegion i f = .ok h') :
    i < h.regionCount ∧ ∃ r, f (h.region i) = .ok r ∧
      h' = { h with table := h.table.put i r } := by
  obtain ⟨t, ht, hu⟩ := bind_eq_ok.mp hu
  obtain rfl := Except.ok.inj hu
  obtain ⟨hi, r, hr, rfl⟩ := RegionTable.update_eq_ok ht
  exact ⟨hi, r, hr, rfl⟩

theorem insertFree_eq_ok (hindex : h.table.Indexed) {is : List Nat} {l l' : IndexList}
    (hin : ∀ i ∈ is, i < h.regionCount)
    (hl : is.foldlM (fun (l : IndexList) i => do
      Fault.unless (h.region i).isEmpty (.freeNotEmpty (h.region i).figure)
      l.insertLast (h.region i).index) l = .ok l') :
    l' = ⟨l.ids ++ is⟩ ∧ ∀ i ∈ is, (h.region i).isEmpty := by
  induction is generalizing l with
  | nil => exact ⟨by simp [← Except.ok.inj hl], by simp⟩
  | cons i is ih =>
    rw [List.foldlM_cons] at hl
    obtain ⟨l₁, hfirst, hrest⟩ := bind_eq_ok.mp hl
    obtain ⟨_, hempty, hinsert⟩ := bind_eq_ok.mp hfirst
    obtain ⟨_, -, hinsert⟩ := bind_eq_ok.mp hinsert
    obtain rfl := Except.ok.inj hinsert
    obtain ⟨rfl, hall⟩ := ih (fun j hj => hin j (by simp [hj])) hrest
    refine ⟨?_, fun j hj => ?_⟩
    · rw [region, hindex i (hin i (by simp))]
      simp
    · rcases List.mem_cons.mp hj with rfl | hj
      · exact Fault.unless_eq_ok.mp hempty
      · exact hall j hj

theorem rebuildFreeList_eq_ok (hindex : h'.table.Indexed) (hr : h.rebuildFreeList = .ok h') :
    h'.freeList = ⟨(List.range h'.regionCount).filter fun i => (h'.region i).kind.isFree⟩ ∧
    ∀ i, i < h'.regionCount → (h'.region i).kind.isFree → (h'.region i).isEmpty := by
  obtain ⟨l, hl, hr⟩ := bind_eq_ok.mp hr
  obtain rfl := Except.ok.inj hr
  have hlist : h.table.regions.toList.filter (fun r => r.kind.isFree) =
      ((List.range h.regionCount).filter fun i => (h.region i).kind.isFree).map h.region := by
    rw [Table.toList_eq_map, List.filter_map]
    rfl
  rw [hlist, List.foldlM_map] at hl
  obtain ⟨hlisted, hempty⟩ := insertFree_eq_ok (h := h) hindex
    (fun i hi => List.mem_range.mp (List.mem_filter.mp hi).1) hl
  exact ⟨hlisted, fun i hi hk => hempty i (List.mem_filter.mpr ⟨List.mem_range.mpr hi, hk⟩)⟩

end Heap

theorem Collector.complete_eq_ok {c d : Collector} (h : c.complete = .ok d) :
    ∃ x : Heap, x.rebuildFreeList = .ok d.heap := by
  obtain ⟨l, -, h⟩ := bind_eq_ok.mp h
  obtain ⟨y, hrebuild, h⟩ := bind_eq_ok.mp h
  obtain ⟨flaw, -, h⟩ := bind_eq_ok.mp h
  cases flaw with
  | some flaw => contradiction
  | none =>
    obtain rfl := Except.ok.inj h
    exact ⟨_, hrebuild⟩

theorem Region.allocate_kind (r : Region) (words : Nat) :
    Leaves (fun x => x.2.kind = r.kind) (r.allocate words) := by
  refine Leaves.bind_any fun _ _ => Leaves.ite (Leaves.ok rfl) (Leaves.bind ?_ fun _ hk =>
    Leaves.ok hk)
  exact Leaves.bind_any fun _ _ => Leaves.ok rfl

theorem Region.assign_kind {kind : RegionKind} (hk : Heap.isAllocatable kind) (r : Region) :
    Leaves (fun r' => r'.kind.isFree = false) (r.assign kind) := by
  cases kind with
  | free | startsHumongous | continuesHumongous => contradiction
  | eden | survivor | openArchive | closedArchive => exact Leaves.bind_any fun _ _ => Leaves.ok rfl
  | old => exact Leaves.ok rfl

theorem Region.Vacant.of_isEmpty {r : Region} (w : r.Whole) (hk : r.kind.isFree)
    (he : r.isEmpty) : r.Vacant := by
  have hle := w.bottom_le
  have htop : r.top - r.bottom = 0 := by simpa [Region.isEmpty, Region.used] using he
  exact ⟨by simpa [RegionKind.isFree] using hk, by omega⟩

namespace Heap

variable {h h' : Heap} {L : Layout} {i words : Nat} {r : Region}

namespace Sited

variable (s : h.Sited L)

include s

theorem indexed : h.table.Indexed := fun i hi => (s.table.region i (s.table.size ▸ hi)).index

theorem of_stays (ho : h'.options = h.options) (hsize : h'.table.size = h.table.size)
    (hr : ∀ i, i < L.count → (h.region i).Stays (h'.region i))
    (hl : h'.freeList = ⟨(List.range L.count).filter fun i => (h'.region i).kind.isFree⟩)
    (hv : ∀ i, i < L.count → (h'.region i).kind.isFree → (h'.region i).top = (h'.region i).bottom) :
    h'.Sited L := by
  refine ⟨?_, s.words_lt, ⟨hsize.trans s.table.size, fun i hi => ?_⟩, hl, fun i hi hk =>
    ⟨by simpa [RegionKind.isFree] using hk, hv i hi hk⟩⟩
  · rw [← s.words, regionWords, regionWords, ho]
  · have a := hr i hi
    have hs := s.table.region i hi
    exact ⟨a.whole hs.toWhole, a.index.trans hs.index, a.bottom.trans hs.bottom,
      a.limit.trans hs.limit⟩

theorem put (hi : i < L.count) (hr : (h.region i).Stays r)
    (hv : r.kind.isFree → r.top = r.bottom) {list : IndexList}
    (hl : list = ⟨(List.range L.count).filter fun j =>
      if i = j then r.kind.isFree else (h.region j).kind.isFree⟩) :
    Sited { h with table := h.table.put i r, freeList := list } L := by
  have hput := s.table.region_put_of hi r
  refine s.of_stays rfl (RegionTable.size_put ..) (fun j hj => ?_) (hl.trans ?_)
    fun j hj hk => ?_
  · show (h.table.region j).Stays ((h.table.put i r).region j)
    rw [hput]
    split
    · next e => exact e ▸ hr
    · exact .refl _
  · refine IndexList.filter_congr fun j _ => ?_
    show _ = ((h.table.put i r).region j).kind.isFree
    rw [hput]
    split <;> rfl
  · have hk : ((h.table.put i r).region j).kind.isFree = true := hk
    show ((h.table.put i r).region j).top = ((h.table.put i r).region j).bottom
    rw [hput] at hk ⊢
    split
    · next e =>
      rw [if_pos e] at hk
      exact hv hk
    · next e =>
      rw [if_neg e] at hk
      exact (s.vacant j hj hk).top

theorem keep (hi : i < L.count) (hr : (h.region i).Stays r) (hk : r.kind = (h.region i).kind)
    (hv : r.kind.isFree → r.top = r.bottom) : Sited { h with table := h.table.put i r } L := by
  refine s.put hi hr hv (s.freeList.trans (IndexList.filter_congr fun j _ => ?_))
  split
  · next e => rw [hk, e]
  · rfl

theorem setMemory (m : Memory) : (h.setMemory m).Sited L :=
  ⟨s.words, s.words_lt, s.table.withMemory m, s.freeList, s.vacant⟩

theorem allocateRegion (kind : RegionKind) :
    Leaves (fun x => Sited x.2 L) (h.allocateRegion kind) := by
  unfold Heap.allocateRegion
  cases hids : h.freeList.ids with
  | nil =>
    rw [IndexList.removeFirst, hids]
    exact Leaves.ok s
  | cons i rest =>
    rw [IndexList.removeFirst, hids]
    refine Leaves.bind_any fun _ _ => Leaves.bind_any fun _ _ => Leaves.bind_any fun _ hk => ?_
    have hk := Fault.unless_eq_ok.mp hk
    obtain ⟨hi, hfree⟩ := s.mem_free.mp (show i ∈ h.freeList.ids by simp [hids])
    refine Leaves.bind (P := fun h' => Sited h' L) (fun h' hu => ?_) fun _ s' => Leaves.ok s'
    obtain ⟨-, r, hr, rfl⟩ := updateRegion_eq_ok hu
    have hused := Region.assign_kind hk (h.region i) r hr
    refine s.put hi (Region.Reused.assign hk (h.region i) r hr).toStays
      (fun hf => absurd (hused.symm.trans hf) (by simp)) ?_
    -- the first entry of the list is the lowest free region
    have herase : h.freeList.erase i = ⟨rest⟩ := by
      rw [IndexList.erase, hids, List.erase_cons_head]
    rw [← herase, s.freeList, IndexList.erase_filter]
    refine IndexList.filter_congr fun j _ => ?_
    by_cases e : i = j
    · rw [if_pos e, decide_eq_true e.symm, hused, Bool.not_true, Bool.and_false]
    · rw [if_neg e, decide_eq_false (Ne.symm e), Bool.not_false, Bool.and_true]

theorem allocate (hk : (h.region i).kind.isFree = false) (words : Nat) :
    Leaves (fun x => Sited { h with table := x.2 } L) (h.table.allocate i words) := by
  refine Leaves.bind_any fun r hr => Leaves.bind_any fun x hx => Leaves.bind_any fun t ht =>
    Leaves.ok ?_
  obtain ⟨-, rfl⟩ := RegionTable.get_eq_ok hr
  obtain ⟨hi, rfl⟩ := RegionTable.set_eq_ok ht
  have hkind := Region.allocate_kind (h.region i) words x hx
  exact s.keep (s.table.size ▸ hi) (Region.Reused.allocate _ words x hx).toStays hkind
    fun hf => by
      rw [hkind, hk] at hf
      contradiction

theorem newObject (hk : (h.region i).kind.isFree = false) (words fields : Nat) :
    Leaves (fun x => Sited x.2 L) (h.newObject i words fields) := by
  refine Leaves.bind (P := fun x => Sited { h with table := x.2 } L) ?_ fun _ s' => Leaves.ok s'
  refine Leaves.bind (s.allocate hk words) fun x s' => ?_
  obtain ⟨place, t⟩ := x
  cases place with
  | none => exact Leaves.ok s'
  | some object => exact Leaves.bind_any fun m _ => Leaves.ok (s'.setMemory m)

theorem placed {first n stop : Nat} {t' : RegionTable} (hn : 0 < n)
    (p : Placed L h.table first n stop t') : Sited { h with
      freeList := ⟨(List.range L.count).filter fun i => (h.region i).kind.isFree &&
        !decide (first ≤ i ∧ i < first + n)⟩
      table := t' } L := by
  have hhum : ∀ k, first ≤ k → k < first + n → (t'.region k).kind.isFree = false := by
    intro k hfrom hto
    rcases Nat.eq_or_lt_of_le hfrom with rfl | hlt
    · rw [(p.starts hn).1]
      rfl
    · rw [(p.later hlt hto).1]
      rfl
  refine ⟨s.words, s.words_lt, p.sited, ?_, fun k hk hf => ?_⟩
  · refine IndexList.filter_congr fun k _ => ?_
    show _ = (t'.region k).kind.isFree
    by_cases hc : first ≤ k ∧ k < first + n
    · rw [hhum k hc.1 hc.2, decide_eq_true hc, Bool.not_true, Bool.and_false]
    · rw [p.outside hc, decide_eq_false hc, Bool.not_false, Bool.and_true]
      rfl
  · have hf : (t'.region k).kind.isFree = true := hf
    by_cases hc : first ≤ k ∧ k < first + n
    · rw [hhum k hc.1 hc.2] at hf
      contradiction
    · show (t'.region k).Vacant
      rw [p.outside hc] at hf ⊢
      exact s.vacant k hk hf

theorem allocateHumongous (words : Nat) :
    Leaves (fun x => Sited x.2 L) (h.allocateHumongous words) := by
  intro x hx
  rcases Nat.eq_zero_or_pos words with rfl | hpos
  · rw [Heap.allocateHumongous, regionsFor, show Word.divCeil 0 h.regionWords = 0 by
      simp [Word.divCeil]] at hx
    dsimp only at hx
    rw [firstRun_zero] at hx
    exact Except.ok.inj hx ▸ s
  · rcases s.allocateHumongous_of hpos with ⟨he, -⟩ | ⟨first, t', he, -, -, placed⟩
    · exact Except.ok.inj (he.symm.trans hx) ▸ s
    · have hn : 0 < h.regionsFor words := by
        rw [regionsFor, s.words]
        exact Word.divCeil_pos hpos L.words_pos
      exact Except.ok.inj (he.symm.trans hx) ▸ s.placed hn placed

theorem newHumongous (words fields : Nat) :
    Leaves (fun x => Sited x.2 L) (h.newHumongous words fields) := by
  refine Leaves.bind (s.allocateHumongous words) fun x s' => ?_
  obtain ⟨place, h'⟩ := x
  cases place with
  | none => exact Leaves.ok s'
  | some object => exact Leaves.bind_any fun m _ => Leaves.ok (s'.setMemory m)

theorem release (i : Nat) : Leaves (fun h' => Sited h' L) (h.release i) := by
  intro h' hx
  obtain ⟨h₁, hu, hx⟩ := bind_eq_ok.mp hx
  obtain ⟨l, -, hx⟩ := bind_eq_ok.mp hx
  obtain ⟨hi, r, hr, rfl⟩ := updateRegion_eq_ok hu
  obtain rfl := Except.ok.inj hr
  rw [s.regionCount] at hi
  obtain ⟨_, hnew, -⟩ := bind_eq_ok.mp hx
  have hused : (h.region i).kind.isFree = false := by
    have hnew : i ∉ h.freeList.ids := by simpa [IndexList.contains] using hnew
    rw [s.mem_free, not_and, Bool.not_eq_true] at hnew
    exact hnew hi
  have hinsert := insertFree_of (h := { h with
    table := h.table.put i (h.region i).clear, liveness := l }) s.freeList L.count_lt hi hused
  obtain rfl := Except.ok.inj (hinsert.symm.trans hx)
  have s' := s.put hi (.clear _) (fun _ => rfl) (IndexList.filter_congr fun j _ => (?_ :
    ((h.region j).kind.isFree || decide (j = i)) = _))
  · exact ⟨s'.words, s'.words_lt, s'.table, s'.freeList, s'.vacant⟩
  · by_cases e : i = j
    · rw [if_pos e, decide_eq_true e.symm, Bool.or_true]
      rfl
    · rw [if_neg e, decide_eq_false (Ne.symm e), Bool.or_false]

theorem freeHumongousRegion (i : Nat) :
    Leaves (fun h' => Sited h' L) (h.freeHumongousRegion i) :=
  Leaves.bind_any fun _ _ => Leaves.bind_any fun _ _ => s.release i

theorem setPins {f : Region → Checked Region}
    (hf : ∀ r, Leaves (fun r' => ∃ pins, r' = { r with pins := pins }) (f r)) (i : Nat) :
    Leaves (fun h' => Sited h' L) (h.updateRegion i f) := by
  intro h' hu
  obtain ⟨hi, r, hr, rfl⟩ := updateRegion_eq_ok hu
  obtain ⟨pins, rfl⟩ := hf _ r hr
  rw [s.regionCount] at hi
  exact s.keep hi (.of_same rfl rfl rfl rfl rfl) rfl fun hk => (s.vacant i hi hk).top

theorem perform {op : Operation} (ha : h.Admits (.operate op)) :
    Leaves (fun h' => Sited h' L) (h.perform op) := by
  cases op with
  | allocateRegion kind => exact Leaves.bind (s.allocateRegion kind) fun _ s' => Leaves.ok s'
  | newObject region words fields =>
    exact Leaves.bind (s.newObject ha words fields) fun _ s' => Leaves.ok s'
  | newHumongous words fields =>
    exact Leaves.bind (s.newHumongous words fields) fun _ s' => Leaves.ok s'
  | setField object field target | setId object value =>
    exact Leaves.bind_any fun m _ => Leaves.ok (s.setMemory m)
  | setRoots roots => exact Leaves.ok ⟨s.words, s.words_lt, s.table, s.freeList, s.vacant⟩
  | pin address =>
    exact Leaves.bind_any fun i _ => s.setPins (fun r => Leaves.ok ⟨_, rfl⟩) i
  | unpin address =>
    exact Leaves.bind_any fun i _ => s.setPins
      (fun r => Leaves.bind_any fun _ _ => Leaves.ok ⟨_, rfl⟩) i
  | freeRegion region =>
    exact Leaves.bind_any fun _ _ => Leaves.bind_any fun _ _ => s.release region
  | freeHumongous regions =>
    exact Leaves.foldlM (fun _ i s' => s'.freeHumongousRegion i) _ s

theorem rearranged {selection : Selection} (a : h.table.Rearranged selection.table) :
    (h.setSelection selection).Sited L := by
  have hregion : ∀ i, ∃ remSet, (h.setSelection selection).region i =
      { h.region i with remSet := remSet } := fun i => by
    obtain ⟨own, group, hr, -⟩ := a.region i
    exact ⟨_, hr⟩
  refine s.of_stays rfl a.size (fun i _ => ?_)
    (s.freeList.trans (IndexList.filter_congr fun i _ => ?_)) fun i hi hk => ?_
  · obtain ⟨remSet, hr⟩ := hregion i
    rw [hr]
    exact .of_same rfl rfl rfl rfl rfl
  · obtain ⟨remSet, hr⟩ := hregion i
    rw [hr]
  · obtain ⟨remSet, hr⟩ := hregion i
    rw [hr] at hk ⊢
    exact (s.vacant i hi hk).top

theorem record (i slot : Nat) : Leaves (fun h' => Sited h' L) (h.record i slot) := by
  refine Leaves.bind_any fun _ _ => Leaves.bind_any fun _ _ => Leaves.bind_any fun x hx =>
    Leaves.ok ?_
  obtain ⟨r, hr, hx⟩ := bind_eq_ok.mp hx
  obtain ⟨y, -, hx⟩ := bind_eq_ok.mp hx
  obtain ⟨t, ht, hx⟩ := bind_eq_ok.mp hx
  obtain rfl := Except.ok.inj hx
  obtain ⟨-, rfl⟩ := RegionTable.get_eq_ok hr
  obtain ⟨hi, rfl⟩ := RegionTable.set_eq_ok ht
  have hi : i < L.count := s.table.size ▸ hi
  have s' : Sited { h with table := { h.table with shared := y.2.2 } } L :=
    ⟨s.words, s.words_lt, ⟨s.table.size, s.table.region⟩, s.freeList, s.vacant⟩
  exact s'.keep hi (.of_same rfl rfl rfl rfl rfl) rfl fun hk => (s.vacant i hi hk).top

theorem collected (a : h.Reused h') {explicitRequest clearSoft maximal : Bool} {h₀ : Heap}
    (hc : h₀.fullCollect explicitRequest clearSoft maximal = .ok h') : h'.Sited L := by
  obtain ⟨h₁, -, hrun⟩ := bind_eq_ok.mp hc
  obtain ⟨c, -, hrest⟩ := bind_eq_ok.mp hrun
  obtain ⟨d, hcomplete, hd⟩ := bind_eq_ok.mp hrest
  obtain rfl := Except.ok.inj hd
  obtain ⟨x, hrebuild⟩ := Collector.complete_eq_ok hcomplete
  have hstays : ∀ i, (h.region i).Stays (d.heap.region i) :=
    fun i => (a.table.region s.indexed i).toStays
  have hsize : d.heap.table.size = h.table.size := a.table.size
  obtain ⟨hlist, hempty⟩ := rebuildFreeList_eq_ok
    (fun i hi => (hstays i).index.trans (s.indexed i (hsize ▸ hi))) hrebuild
  have hcount : d.heap.regionCount = L.count := hsize.trans s.table.size
  rw [hcount] at hlist hempty
  exact s.of_stays a.options hsize (fun i _ => hstays i) hlist fun i hi hk =>
    (Region.Vacant.of_isEmpty ((hstays i).whole (s.table.region i hi).toWhole) hk
      (hempty i hi hk)).top

theorem happen {nominated : List Nat} (t : h.Tracked nominated) {e : Event} (ha : h.Admits e)
    (hrun : h.happen e = .ok h') : h'.Sited L := by
  cases e with
  | operate op => exact s.perform ha h' hrun
  | allocateHumongous words =>
    obtain ⟨x, hx, hh⟩ := bind_eq_ok.mp hrun
    exact Except.ok.inj hh ▸ s.allocateHumongous words x hx
  | record i slot => exact s.record i slot h' hrun
  | fromMarking cs =>
    obtain ⟨x, hx, hh⟩ := bind_eq_ok.mp hrun
    exact Except.ok.inj hh ▸ s.rearranged (Selection.attached_fromMarking t.attached hx).1
  | retain i =>
    obtain ⟨x, hx, hh⟩ := bind_eq_ok.mp hrun
    exact Except.ok.inj hh ▸ s.rearranged (Selection.attached_retain t.attached hx).1
  | sortMarking =>
    obtain ⟨x, hx, hh⟩ := bind_eq_ok.mp hrun
    exact Except.ok.inj hh ▸ s.rearranged (Selection.attached_sortMarking t.attached hx).1
  | sortRetained =>
    obtain ⟨x, hx, hh⟩ := bind_eq_ok.mp hrun
    exact Except.ok.inj hh ▸ s.rearranged (Selection.attached_sortRetained t.attached hx).1
  | rounds r =>
    exact Except.ok.inj hrun ▸
      ⟨s.words, s.words_lt, ⟨s.table.size, s.table.region⟩, s.freeList, s.vacant⟩
  | collect explicitRequest clearSoft maximal =>
    obtain ⟨x, hx, a⟩ := fullCollect_eq_ok hrun
    exact (s.rearranged (Selection.attached_clear t.attached hx).1).collected a hrun

end Sited

/-- The regions of a heap that has lived are where they were put, and its free list lists the free
ones. -/
theorem Lived.sited (l : h.Lived) : ∃ L nominated, h.Sited L ∧ h.Tracked nominated := by
  induction l with
  | create hs v hc =>
    obtain ⟨L, t⟩ := tidy_of_create hs v hc
    exact ⟨L, [], t.sited, tracked_create hc⟩
  | happen _ ha hrun ih =>
    obtain ⟨L, nominated, s, t⟩ := ih
    exact ⟨L, _, s.happen t ha hrun, t.happen hrun⟩
  | allocate _ hk hx ih =>
    obtain ⟨L, nominated, s, t⟩ := ih
    exact ⟨L, nominated, s.allocate hk _ _ hx, t.reused
      ⟨RegionTable.Reused.allocate (.refl _) _ _ _ hx, rfl, rfl⟩⟩
  | write m _ ih =>
    obtain ⟨L, nominated, s, t⟩ := ih
    exact ⟨L, nominated, s.setMemory m, t.reused ((Reused.refl _).setMemory m)⟩
  | mark l _ ih =>
    obtain ⟨L, nominated, s, t⟩ := ih
    exact ⟨L, nominated, ⟨s.words, s.words_lt, s.table, s.freeList, s.vacant⟩,
      t.reused ⟨.refl _, rfl, rfl⟩⟩

/-- A humongous object of so many words takes the regions from one on. Nothing else changes but the
free list and the filler behind the object. -/
structure Seats (h : Heap) (first words : Nat) (h' : Heap) : Prop where
  frame : h' = { h with freeList := h'.freeList, table := { h.table with
    regions := h'.table.regions, memory := h'.table.memory } }
  freeList : h'.freeList.ids =
    h.freeList.ids.filter fun i => !decide (first ≤ i ∧ i < first + h.regionsFor words)
  starts : (h'.region first).kind = .startsHumongous ∧
    (h'.region first).humongousStart = some first
  later : ∀ k, first < k → k < first + h.regionsFor words →
    (h'.region k).kind = .continuesHumongous ∧ (h'.region k).humongousStart = some first
  full : ∀ k, first ≤ k → k + 1 < first + h.regionsFor words →
    (h'.region k).top = (h.region k).limit
  /-- The object ends in the last region. -/
  last : (h.region (first + h.regionsFor words - 1)).bottom < (h.region first).bottom + 8 * words ∧
    (h.region first).bottom + 8 * words ≤ (h.region (first + h.regionsFor words - 1)).limit
  filled : (h.region first).bottom + 8 * words + 16 ≤
      (h.region (first + h.regionsFor words - 1)).limit →
    (h'.region (first + h.regionsFor words - 1)).top =
      (h.region (first + h.regionsFor words - 1)).limit ∧
    Object.Fills h'.memory ((h.region first).bottom + 8 * words)
      (h.region (first + h.regionsFor words - 1)).limit
  unfilled : (h.region (first + h.regionsFor words - 1)).limit <
      (h.region first).bottom + 8 * words + 16 →
    (h'.region (first + h.regionsFor words - 1)).top = (h.region first).bottom + 8 * words ∧
    ((h.region (first + h.regionsFor words - 1)).limit = (h.region first).bottom + 8 * words ∨
      (h.region (first + h.regionsFor words - 1)).limit = (h.region first).bottom + 8 * words + 8) ∧
    h'.memory = h.memory
  memory : ∀ a, a < (h.region first).bottom + 8 * words ∨
    (h.region (first + h.regionsFor words - 1)).limit ≤ a → h'.memory.read a = h.memory.read a
  within : ∀ k, first ≤ k → k < first + h.regionsFor words →
    (h.region k).Stays (h'.region k) ∧ (h.region k).Reassigned (h'.region k)
  outside : ∀ k, ¬(first ≤ k ∧ k < first + h.regionsFor words) → h'.region k = h.region k

theorem Sited.seats (s : h.Sited L) (hpos : 0 < words) {first : Nat} {t' : RegionTable}
    (hin : first + h.regionsFor words ≤ L.count)
    (p : Placed L h.table first (h.regionsFor words) (L.bottom first + 8 * words) t') :
    h.Seats first words { h with
      freeList := ⟨(List.range L.count).filter fun i => (h.region i).kind.isFree &&
        !decide (first ≤ i ∧ i < first + h.regionsFor words)⟩
      table := t' } := by
  have hcount : h.regionsFor words = Word.divCeil words L.words := by
    rw [regionsFor, s.words]
  have hnpos := Word.divCeil_pos hpos L.words_pos
  have hfit := L.add_le_bottom first words
  -- the regions are as many as needed: the object reaches into the last one and not beyond it
  have hneed := L.bottom_lt_add first hpos
  rw [← hcount] at hnpos hfit hneed
  have hbottom : (h.region first).bottom = L.bottom first :=
    (s.table.region first (by omega)).bottom
  have hlastb : (h.region (first + h.regionsFor words - 1)).bottom =
      L.bottom (first + h.regionsFor words - 1) :=
    (s.table.region _ (show first + h.regionsFor words - 1 < L.count by omega)).bottom
  have hlast : (h.region (first + h.regionsFor words - 1)).limit =
      L.bottom (first + h.regionsFor words) := by
    have hlast : first + h.regionsFor words - 1 < L.count := by omega
    exact (s.table.region _ hlast).limit.trans (L.bottom_of_pos (by omega)).symm
  have hmod := L.bottom_mod first
  have hmod' := L.bottom_mod (first + h.regionsFor words)
  obtain ⟨blocks, q⟩ := p.placing
  refine {
    frame := ?frame
    freeList := ?freeList
    starts := p.starts hnpos
    later := fun k hfrom hto => p.later hfrom hto
    full := fun k hfrom hto => ?full
    last := ?last
    filled := fun hroom => ?filled
    unfilled := fun hno => ?unfilled
    memory := ?memory
    within := fun k hfrom hto => ?within
    outside := fun k hk => p.outside hk }
  case frame =>
    have hshared := q.shared
    have hconfig := q.config
    dsimp only at hshared hconfig
    obtain ⟨regions, shared, memory, config⟩ := t'
    subst hshared hconfig
    rfl
  case freeList =>
    rw [s.freeList, List.filter_filter]
    exact List.filter_congr fun k _ => Bool.and_comm ..
  case full =>
    exact (p.full k hfrom hto).trans (((s.table.region k (by omega)).limit).trans
      (L.bottom_succ k).symm).symm
  case last =>
    rw [hbottom, hlast]
    exact ⟨hlastb ▸ hneed, hfit⟩
  case filled =>
    rw [hbottom, hlast] at hroom ⊢
    exact ⟨p.last.trans (if_neg (by omega)), p.filler s.words_lt hroom⟩
  case unfilled =>
    rw [hbottom, hlast] at hno ⊢
    exact ⟨p.last.trans (if_pos hno), by omega, p.unfilled hno⟩
  case memory =>
    rw [hbottom, hlast]
    exact p.memory
  case within =>
    have hs := s.table.region k (by omega)
    have hs' := p.sited.region k (by omega)
    exact ⟨⟨hs'.index.trans hs.index.symm, hs'.bottom.trans hs.bottom.symm,
      hs'.limit.trans hs.limit.symm, fun _ => hs'.toWhole⟩, q.reassigned k hfrom hto⟩

/-- In a heap that has lived, a humongous object takes the lowest run of free regions that is as
long as it needs. If there is none, nothing changes. -/
theorem Lived.allocateHumongous_lowest (l : h.Lived) (hpos : 0 < words) :
    h.allocateHumongous words = .ok (none, h) ∧ (∀ k, ¬h.HasFree k (h.regionsFor words)) ∨
    ∃ first h', h.allocateHumongous words = .ok (some (h.region first).bottom, h') ∧
      h.HasFree first (h.regionsFor words) ∧
      (∀ k, h.HasFree k (h.regionsFor words) → first ≤ k) ∧ h.Seats first words h' := by
  obtain ⟨L, -, s, -⟩ := l.sited
  rcases s.allocateHumongous_of hpos with hnone | ⟨first, t', hplace, hfree, hlow, placed⟩
  · exact .inl hnone
  · have hin : first + h.regionsFor words ≤ L.count := s.regionCount ▸ hfree.1
    have hn : 0 < h.regionsFor words := by
      rw [regionsFor, s.words]
      exact Word.divCeil_pos hpos L.words_pos
    have hbottom : (h.region first).bottom = L.bottom first :=
      (s.table.region first (by omega)).bottom
    exact .inr ⟨first, _, by rw [hbottom]; exact hplace, hfree,
      fun k hk => Nat.le_of_not_lt fun hlt => hlow k hlt hk, s.seats hpos hin placed⟩

/-- Events that are admitted at any time. -/
theorem Lived.live {events : List Event} (l : h.Lived)
    (ha : ∀ e ∈ events, ∀ h : Heap, h.Admits e) (hrun : h.live events = .ok h') : h'.Lived := by
  induction events generalizing h with
  | nil => exact Except.ok.inj hrun ▸ l
  | cons e events ih =>
    rw [Heap.live, List.foldlM_cons] at hrun
    obtain ⟨h₁, hfirst, hrest⟩ := bind_eq_ok.mp hrun
    exact ih (l.happen (ha e (by simp) h) hfirst) (fun e he => ha e (by simp [he])) hrest

/-- A heap in which the second of three regions was freed again. -/
def gapped : Checked Heap := do
  let h ← create sampleSystem sampleRounds { threads := 1, regionSize := 65536 } 393216 {}
  h.live [.operate (.allocateRegion .eden), .operate (.allocateRegion .eden),
    .operate (.allocateRegion .eden), .operate (.freeRegion 1)]

theorem gapped_lived : ∃ h, gapped = .ok h ∧ h.Lived := by
  have hok : gapped.toBool = true := by decide +kernel
  cases hs : gapped with
  | error e =>
    rw [hs] at hok
    contradiction
  | ok h =>
    obtain ⟨h₀, hcreate, hrun⟩ := bind_eq_ok.mp hs
    refine ⟨h, rfl, (Lived.create sampleSystem_lawful ?_ hcreate).live (fun e he h => ?_) hrun⟩
    · decide
    · simp only [List.mem_cons, List.not_mem_nil, or_false] at he
      rcases he with rfl | rfl | rfl | rfl <;> trivial

/-- The gap is too small for two regions, which are found behind it. -/
theorem gapped_lowest : ∃ h h', gapped = .ok h ∧ h.Lived ∧ 0 < 8193 ∧
    h.freeList.ids = [1, 3, 4, 5] ∧
    h.allocateHumongous 8193 = .ok (some (sampleWord 3 0), h') ∧ h'.freeList.ids = [1, 5] ∧
    h.Seats 3 8193 h' := by
  obtain ⟨h, hs, l⟩ := gapped_lived
  have hlook := of_made (f := fun h => decide (h.freeList.ids = [1, 3, 4, 5] ∧ h.regionCount = 6 ∧
    h.regionsFor 8193 = 2 ∧ (h.region 3).bottom = sampleWord 3 0 ∧
    ∀ i ∈ List.range 5, (h.region i).kind.isFree = decide (i ∈ h.freeList.ids))) (v := true) hs
    (by decide +kernel)
  obtain ⟨hids, hcount, hspan, hbottom, hkinds⟩ := of_decide_eq_true hlook
  have hfree : ∀ i, i < 5 → (h.region i).kind.isFree = decide (i ∈ [1, 3, 4, 5]) := fun i hi =>
    hids ▸ hkinds i (List.mem_range.mpr hi)
  have hfits : h.HasFree 3 2 := by
    refine ⟨by omega, fun k hfrom hto => ?_⟩
    rw [hfree k (by omega)]
    obtain rfl | rfl : k = 3 ∨ k = 4 := by omega
    all_goals decide
  rcases l.allocateHumongous_lowest (show 0 < 8193 by decide) with
    ⟨-, hnone⟩ | ⟨first, h', hrun, ⟨-, htaken⟩, hlow, hseats⟩
  · exact absurd (hspan ▸ hfits) (hnone 3)
  · rw [hspan] at hlow htaken
    have hle := hlow 3 hfits
    -- the regions 0 and 2 are in use
    obtain rfl : first = 3 := by
      refine Nat.le_antisymm hle (Nat.le_of_not_lt fun hlt => ?_)
      have htaken₁ := htaken first (by omega) (by omega)
      have htaken₂ := htaken (first + 1) (by omega) (by omega)
      rw [hfree _ (by omega)] at htaken₁ htaken₂
      obtain rfl | rfl | rfl : first = 0 ∨ first = 1 ∨ first = 2 := by omega
      all_goals contradiction
    refine ⟨h, h', hs, l, by decide, hids, hbottom ▸ hrun, ?_, hseats⟩
    rw [hseats.freeList, hids, hspan]
    decide

end Heap

end RegionHeap
