import RegionHeap.Heap.Event
import RegionHeap.Proofs.Lockstep
import RegionHeap.Proofs.Sharing
import RegionHeap.Proofs.Sites

/-!
Regions that are used anew. Whatever the heap does with a region, clearing it included, the region
stays where it is and in its group, and the candidates stay what they are: only they themselves and
a collection change that. What a region remembers is kept, or else it is all forgotten, as it is
when the region is freed.
-/
set_option autoImplicit false

namespace RegionHeap

open Checked

variable {r r' r'' : Region} {t₀ t : RegionTable} {h₀ h : Heap}

theorem BlockTable.record_eq_ok {t t' : BlockTable} {start stop : Nat}
    (h : t.record start stop = .ok t') :
    ∃ starts : Array Nat, starts.size = t.starts.size ∧ t' = { t with starts := starts } := by
  obtain ⟨_, -, h⟩ := bind_eq_ok.mp h
  dsimp only at h
  split at h
  · exact ⟨t.starts, rfl, (Except.ok.inj h).symm⟩
  · obtain ⟨_, -, h⟩ := bind_eq_ok.mp h
    exact ⟨_, size_fillFrom .., (Except.ok.inj h).symm⟩

/-- Nothing is remembered, and nothing is to be. -/
structure RemSet.Blank (s : RemSet) : Prop where
  containers : s.own.containers = []
  occupied : s.own.occupied = 0
  tracking : s.tracking = .untracked

theorem RemSet.blank_clear (s : RemSet) : (s.clear false).Blank := ⟨rfl, rfl, rfl⟩

/-- The region owns the same addresses, and its table still covers them. -/
structure Region.Stays (r r' : Region) : Prop where
  index : r'.index = r.index
  bottom : r'.bottom = r.bottom
  limit : r'.limit = r.limit
  whole : r.Whole → r'.Whole

namespace Region.Stays

theorem refl (r : Region) : r.Stays r := ⟨rfl, rfl, rfl, id⟩

theorem trans (a : r.Stays r') (b : r'.Stays r'') : r.Stays r'' :=
  ⟨b.index.trans a.index, b.bottom.trans a.bottom, b.limit.trans a.limit,
    fun w => b.whole (a.whole w)⟩

theorem of_same (hi : r'.index = r.index) (hb : r'.bottom = r.bottom) (hl : r'.limit = r.limit)
    (ht : r'.top = r.top) (hs : r'.blocks = r.blocks) : r.Stays r' :=
  ⟨hi, hb, hl, fun w => ⟨hs ▸ w.blocks, by rw [hs, hb, w.blocksBottom],
    by rw [hs, hl, w.blocksLimit], hl ▸ w.limit_lt, by rw [hb, ht]; exact w.bottom_le,
    by rw [hl, ht]; exact w.top_le⟩⟩

theorem withTop {top : Nat} (hb : r.bottom ≤ top) (ht : top ≤ r.limit) :
    r.Stays { r with top := top } :=
  ⟨rfl, rfl, rfl, fun w => w.withTop hb ht⟩

theorem withStarts {starts : Array Nat} (hs : starts.size = r.blocks.starts.size) :
    r.Stays { r with blocks := { r.blocks with starts := starts } } :=
  ⟨rfl, rfl, rfl, fun w => w.withStarts hs⟩

theorem resetBlocks (r : Region) : r.Stays r.resetBlocks :=
  withStarts (by simp)

theorem clear (r : Region) : r.Stays r.clear := by
  refine ⟨rfl, rfl, rfl, fun w => ?_⟩
  have w' := (Stays.resetBlocks r).whole w
  exact ⟨w'.blocks, w'.blocksBottom, w'.blocksLimit, w.limit_lt, Nat.le_refl _,
    Nat.le_trans w.bottom_le w.top_le⟩

end Region.Stays

/-- The region stays where it is, and in its group. What it remembers is kept or forgotten, and it
is forgotten if the region is made free. -/
structure Region.Reused (r r' : Region) : Prop extends r.Stays r' where
  group : r'.remSet.group = r.remSet.group
  remembers : r'.remSet.Blank ∨
    r'.remSet = r.remSet ∧ (r'.kind.isFree = true → r.kind.isFree = true)

namespace Region.Reused

theorem refl (r : Region) : r.Reused r := ⟨.refl r, rfl, .inr ⟨rfl, id⟩⟩

theorem trans (a : r.Reused r') (b : r'.Reused r'') : r.Reused r'' := by
  refine ⟨a.toStays.trans b.toStays, b.group.trans a.group, ?_⟩
  obtain hblank | ⟨hkept, hfree⟩ := b.remembers
  · exact .inl hblank
  · rw [hkept]
    exact a.remembers.imp_right fun ⟨he, hk⟩ => ⟨he, fun h => hk (hfree h)⟩

theorem blank (a : r.Reused r') (h : r.remSet.Blank) : r'.remSet.Blank := by
  obtain hblank | ⟨hkept, -⟩ := a.remembers
  · exact hblank
  · exact hkept ▸ h

theorem cards (a : r.Reused r') (hk : r'.kind.isFree = true) :
    r'.remSet.own.occupied = 0 ∨ r.kind.isFree = true ∧ r'.remSet.own = r.remSet.own := by
  obtain hblank | ⟨hkept, hfree⟩ := a.remembers
  · exact .inl hblank.occupied
  · exact .inr ⟨hfree hk, by rw [hkept]⟩

theorem of_remSet (hs : r.Stays r') (hr : r'.remSet = r.remSet)
    (hk : r'.kind = r.kind ∨ r'.kind.isFree = false) : r.Reused r' := by
  refine ⟨hs, by rw [hr], .inr ⟨hr, fun hfree => ?_⟩⟩
  rcases hk with hk | hk
  · exact hk ▸ hfree
  · rw [hk] at hfree
    contradiction

theorem relabel (r : Region) (kind : RegionKind) (start : Option Nat) (pins marked : Nat)
    (hk : kind = r.kind ∨ kind.isFree = false) : r.Reused { r with
      kind := kind, humongousStart := start, pins := pins, marked := marked } :=
  .of_remSet (.of_same rfl rfl rfl rfl rfl) rfl hk

theorem clear (a : r.Reused r') : r.Reused r'.clear :=
  ⟨a.toStays.trans (.clear r'), a.group, .inl r'.remSet.blank_clear⟩

theorem resetBlocks (r : Region) : r.Reused r.resetBlocks :=
  .of_remSet (.resetBlocks r) rfl (.inl rfl)

theorem pin (r : Region) : r.Reused r.pin := relabel r r.kind r.humongousStart _ _ (.inl rfl)

theorem unpin (r : Region) : Leaves r.Reused r.unpin :=
  Leaves.bind_any fun _ _ => Leaves.ok (relabel r r.kind r.humongousStart _ _ (.inl rfl))

theorem assign {kind : RegionKind} (hk : Heap.isAllocatable kind) (r : Region) :
    Leaves r.Reused (r.assign kind) := by
  have hfree : kind.isFree = false := by
    cases kind with
    | free => contradiction
    | _ => rfl
  have hused : r.Reused { r with kind := kind } := relabel r kind r.humongousStart _ _ (.inr hfree)
  cases kind with
  | free => contradiction
  | eden | survivor | openArchive | closedArchive => exact Leaves.bind_any fun _ _ => Leaves.ok hused
  | old | startsHumongous | continuesHumongous => exact Leaves.ok hused

theorem setTop (a : r.Reused r') (top : Nat) : Leaves r.Reused (r'.setTop top) := by
  refine Leaves.bind_any fun _ hin => Leaves.ok (a.trans (.of_remSet ?_ rfl (.inl rfl)))
  simp only [Fault.unless_eq_ok, Bool.and_eq_true, decide_eq_true_eq] at hin
  exact .withTop hin.1 hin.2

theorem recordBlock (a : r.Reused r') (start stop : Nat) :
    Leaves r.Reused (r'.recordBlock start stop) := by
  refine Leaves.bind_any fun blocks hb => Leaves.ok (a.trans (.of_remSet ?_ rfl (.inl rfl)))
  obtain ⟨starts, hsize, rfl⟩ := BlockTable.record_eq_ok hb
  exact .withStarts hsize

theorem startHumongous (r : Region) (objectTop fillWords : Nat) :
    Leaves r.Reused (r.startHumongous objectTop fillWords) := by
  have hused := relabel r .startsHumongous (some r.index) r.pins r.marked (.inr rfl)
  refine Leaves.bind_any fun _ _ => Leaves.bind (hused.recordBlock _ _) fun r' a => ?_
  exact Leaves.ite (Leaves.ok a) (Leaves.bind_any fun _ _ => a.recordBlock _ _)

theorem continueHumongous (r first : Region) : Leaves r.Reused (r.continueHumongous first) :=
  Leaves.bind_any fun _ _ => Leaves.bind_any fun _ _ =>
    Leaves.ok (relabel r .continuesHumongous _ _ _ (.inr rfl))

theorem allocate (r : Region) (words : Nat) :
    Leaves (fun x => r.Reused x.2) (r.allocate words) := by
  intro x hx
  obtain ⟨top, hadd, hx⟩ := bind_eq_ok.mp hx
  obtain ⟨-, rfl⟩ := Word.add_eq_ok.mp hadd
  split at hx
  · exact Except.ok.inj hx ▸ .refl r
  · next hfit =>
    obtain ⟨r', hr', hx⟩ := bind_eq_ok.mp hx
    obtain ⟨blocks, hb, hr'⟩ := bind_eq_ok.mp hr'
    obtain ⟨starts, hsize, rfl⟩ := BlockTable.record_eq_ok hb
    obtain rfl := Except.ok.inj hr'
    obtain rfl := Except.ok.inj hx
    refine .of_remSet ⟨rfl, rfl, rfl, fun w => ?_⟩ rfl (.inl rfl)
    exact (w.withTop (Nat.le_trans w.bottom_le (Nat.le_add_right _ _))
      (Nat.le_of_not_lt hfit)).withStarts hsize

theorem resetCompacted (r : Region) (top : Nat) : Leaves r.Reused (r.resetCompacted top) := by
  refine Leaves.bind_any fun _ _ => Leaves.bind ((refl r).setTop top) fun r' a => ?_
  exact Leaves.ite (Leaves.ok a.clear)
    (Leaves.ok (a.trans (relabel r' .old r'.humongousStart _ _ (.inr rfl))))

theorem resetInPlace (r : Region) : Leaves r.Reused r.resetInPlace := by
  refine Leaves.bind_any fun _ _ => Leaves.ok (relabel r _ r.humongousStart _ _ ?_)
  cases r.kind <;> simp [RegionKind.isYoung, RegionKind.isFree]

end Region.Reused

/-- The regions of a table have their places as indices. -/
def RegionTable.Indexed (t : RegionTable) : Prop := ∀ i, i < t.size → (t.region i).index = i

/-- All regions were reused at most, if each stands in its place: what is planned for a region is
written where its index says. -/
structure RegionTable.Reused (t t' : RegionTable) : Prop where
  size : t'.size = t.size
  shared : t'.shared.sets.size = t.shared.sets.size
  region : t.Indexed → ∀ i, (t.region i).Reused (t'.region i)

namespace RegionTable.Reused

theorem refl (t : RegionTable) : t.Reused t := ⟨rfl, rfl, fun _ _ => .refl _⟩

theorem withMemory (a : t₀.Reused t) (m : Memory) : t₀.Reused { t with memory := m } :=
  ⟨a.size, a.shared, a.region⟩

theorem withRounds (a : t₀.Reused t) (rounds : Rounds) : t₀.Reused (t.withRounds rounds) :=
  ⟨a.size, a.shared, a.region⟩

theorem set (a : t₀.Reused t) {i : Nat} (hr : t₀.Indexed → (t.region i).Reused r) :
    Leaves t₀.Reused (t.set i r) := by
  intro t' ht
  obtain ⟨hi, rfl⟩ := set_eq_ok ht
  refine ⟨(size_put _ _ _).trans a.size, a.shared, fun h j => ?_⟩
  rw [region_put hi]
  split
  · next e =>
    subst e
    exact (a.region h i).trans (hr h)
  · exact a.region h j

theorem update (a : t₀.Reused t) {f : Region → Checked Region}
    (hf : ∀ r, Leaves r.Reused (f r)) (i : Nat) : Leaves t₀.Reused (t.update i f) := by
  refine Leaves.bind_any fun r hr => Leaves.bind_any fun r' hr' => ?_
  obtain ⟨-, rfl⟩ := get_eq_ok hr
  exact a.set fun _ => hf _ r' hr'

theorem clear (a : t₀.Reused t) (i : Nat) :
    Leaves t₀.Reused (t.update i fun r => return r.clear) :=
  a.update (fun r => Leaves.ok (.clear (.refl r))) i

theorem allocate (a : t₀.Reused t) (i words : Nat) :
    Leaves (fun x => t₀.Reused x.2) (t.allocate i words) := by
  refine Leaves.bind_any fun r hr => Leaves.bind_any fun x hx => ?_
  obtain ⟨-, rfl⟩ := get_eq_ok hr
  exact Leaves.bind (a.set fun _ => .allocate _ words x hx) fun _ a' => Leaves.ok a'

theorem newObject (a : t₀.Reused t) (i words fields : Nat) :
    Leaves (fun x => t₀.Reused x.2) (t.newObject i words fields) := by
  refine Leaves.bind (a.allocate i words) fun x a' => ?_
  obtain ⟨place, t'⟩ := x
  cases place with
  | none => exact Leaves.ok a'
  | some object => exact Leaves.bind_any fun m _ => Leaves.ok (a'.withMemory m)

theorem placeHumongous (a : t₀.Reused t) (first count object words : Nat) :
    Leaves t₀.Reused (t.placeHumongous first count object words) := by
  refine Leaves.bind_any fun head _ => Leaves.bind_any fun tail _ => Leaves.bind_any fun _ _ =>
    Leaves.bind_any fun top _ => Leaves.bind_any fun _ _ => ?_
  dsimp only
  rw [ite_bind]
  refine Leaves.bind (P := t₀.Reused) (Leaves.ite (Leaves.ok a)
    (Leaves.bind_any fun m _ => Leaves.ok (a.withMemory m))) fun t a => ?_
  refine Leaves.bind (a.update (fun r => .startHumongous r _ _) _) fun t a => ?_
  refine Leaves.bind (Leaves.foldlM (fun t i a => Leaves.bind_any fun head _ =>
    a.update (fun r => .continueHumongous r head) i) _ a) fun t a => ?_
  rw [ite_bind]
  refine Leaves.bind (Leaves.ite (a.update (fun r => .recordBlock (.refl r) _ _) _) (Leaves.ok a))
    fun t a => ?_
  refine Leaves.bind (Leaves.foldlM (fun t i a => a.update (fun r => .setTop (.refl r) _) i) _ a)
    fun t a => ?_
  exact a.update (fun r => .setTop (.refl r) _) _

end RegionTable.Reused

/-- The heap is used without a word to the candidates. -/
structure Heap.Reused (h h' : Heap) : Prop where
  table : h.table.Reused h'.table
  candidates : h'.candidates = h.candidates
  options : h'.options = h.options

namespace Heap.Reused

theorem refl (h : Heap) : h.Reused h := ⟨.refl _, rfl, rfl⟩

theorem setMemory (a : h₀.Reused h) (m : Memory) : h₀.Reused (h.setMemory m) :=
  ⟨a.table.withMemory m, a.candidates, a.options⟩

theorem updateRegion (a : h₀.Reused h) {f : Region → Checked Region}
    (hf : ∀ r, Leaves r.Reused (f r)) (i : Nat) : Leaves h₀.Reused (h.updateRegion i f) :=
  Leaves.bind (a.table.update hf i) fun _ a' => Leaves.ok ⟨a', a.candidates, a.options⟩

theorem allocateRegion (a : h₀.Reused h) (kind : RegionKind) :
    Leaves (fun x => h₀.Reused x.2) (h.allocateRegion kind) := by
  unfold Heap.allocateRegion
  split
  · exact Leaves.ok a
  · next i rest _ =>
    have arest : h₀.Reused { h with freeList := rest } := ⟨a.table, a.candidates, a.options⟩
    refine Leaves.bind_any fun r _ => Leaves.bind_any fun _ _ => Leaves.bind_any fun _ hk => ?_
    exact Leaves.bind (arest.updateRegion (.assign (Fault.unless_eq_ok.mp hk)) i) fun _ a' =>
      Leaves.ok a'

theorem allocateHumongous (a : h₀.Reused h) (words : Nat) :
    Leaves (fun x => h₀.Reused x.2) (h.allocateHumongous words) := by
  unfold Heap.allocateHumongous
  dsimp only
  split
  · exact Leaves.ok a
  · refine Leaves.bind_any fun r _ => ?_
    exact Leaves.bind (a.table.placeHumongous _ _ _ _) fun _ a' =>
      Leaves.ok ⟨a', a.candidates, a.options⟩

theorem newHumongous (a : h₀.Reused h) (words fields : Nat) :
    Leaves (fun x => h₀.Reused x.2) (h.newHumongous words fields) := by
  refine Leaves.bind (a.allocateHumongous words) fun x a' => ?_
  obtain ⟨place, h'⟩ := x
  cases place with
  | none => exact Leaves.ok a'
  | some object => exact Leaves.bind_any fun m _ => Leaves.ok (a'.setMemory m)

theorem insertFree (a : h₀.Reused h) (i : Nat) : Leaves h₀.Reused (h.insertFree i) := by
  refine Leaves.bind_any fun _ _ => ?_
  dsimp only
  split <;> exact Leaves.bind_any fun list _ => Leaves.ok ⟨a.table, a.candidates, a.options⟩

theorem release (a : h₀.Reused h) (i : Nat) : Leaves h₀.Reused (h.release i) := by
  refine Leaves.bind (a.updateRegion (fun r => Leaves.ok (.clear (.refl r))) i) fun h a' => ?_
  refine Leaves.bind_any fun liveness _ => ?_
  have areset : h₀.Reused { h with liveness := liveness } := ⟨a'.table, a'.candidates, a'.options⟩
  exact areset.insertFree i

theorem freeHumongousRegion (a : h₀.Reused h) (i : Nat) :
    Leaves h₀.Reused (h.freeHumongousRegion i) :=
  Leaves.bind_any fun _ _ => Leaves.bind_any fun _ _ => a.release i

/-- No operation tells the candidates anything. -/
theorem perform (a : h₀.Reused h) (op : Operation) : Leaves h₀.Reused (h.perform op) := by
  cases op with
  | allocateRegion kind => exact Leaves.bind (a.allocateRegion kind) fun _ a' => Leaves.ok a'
  | newObject region words fields =>
    refine Leaves.bind (P := fun x => h₀.Reused x.2) ?_ fun _ a' => Leaves.ok a'
    exact Leaves.bind (a.table.newObject region words fields) fun _ a' =>
      Leaves.ok ⟨a', a.candidates, a.options⟩
  | newHumongous words fields =>
    exact Leaves.bind (a.newHumongous words fields) fun _ a' => Leaves.ok a'
  | setField object field target | setId object value =>
    exact Leaves.bind_any fun m _ => Leaves.ok (a.setMemory m)
  | setRoots roots => exact Leaves.ok ⟨a.table, a.candidates, a.options⟩
  | pin address =>
    exact Leaves.bind_any fun i _ => a.updateRegion (fun r => Leaves.ok (.pin r)) i
  | unpin address => exact Leaves.bind_any fun i _ => a.updateRegion .unpin i
  | freeRegion region =>
    exact Leaves.bind_any fun _ _ => Leaves.bind_any fun _ _ => a.release region
  | freeHumongous regions => exact Leaves.foldlM (fun _ i a' => a'.freeHumongousRegion i) _ a

end Heap.Reused

end RegionHeap
