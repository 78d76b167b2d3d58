import RegionHeap.Heap.Operation
import RegionHeap.Proofs.Creating
import RegionHeap.Proofs.Renewal

/-!
What a heap has been through. It is made empty, and then operations and collections follow each
other, each where it is allowed. Every such heap is tidy, so that nothing that is allowed is
refused.
-/
set_option autoImplicit false

namespace RegionHeap.Heap

variable {h h' : Heap} {L : Layout}

instance (h : Heap) (o : Nat) : Decidable (h.IsObject o) :=
  inferInstanceAs (Decidable (∃ i, i < h.regionCount ∧ o ∈ h.objectsIn i))

/-- When an operation is allowed. Objects have room for their fields, and the header of a humongous
one has room for its size. -/
def Permits (h : Heap) : Operation → Prop
  | .allocateRegion kind => isAllocatable kind
  | .newObject region words fields => region < h.regionCount ∧ (h.region region).kind.isOrdinary ∧
      Object.headerWords + fields ≤ words ∧ words ≤ h.regionWords
  | .newHumongous words fields => Object.headerWords + fields ≤ words ∧ words < Object.sizeLimit
  | .setField object field _ => h.IsObject object ∧ field < Object.fieldCount h.memory object
  | .setId object _ => h.IsObject object ∧ Object.hasPayload h.memory object
  | .setRoots _ => True
  | .pin address => h.contains address
  | .unpin address => h.contains address ∧
      0 < (h.region ((address - h.start) / h.regionBytes)).pins
  | .freeRegion region => region < h.regionCount ∧ (h.region region).kind.isOrdinary
  | .freeHumongous regions => ∃ s, s < h.regionCount ∧ (h.region s).kind.isStartsHumongous ∧
      regions.Perm (List.range' s (h.humongousSpan (h.region s)))

instance (h : Heap) : (op : Operation) → Decidable (h.Permits op)
  | .allocateRegion kind => inferInstanceAs (Decidable (isAllocatable kind = true))
  | .newObject _ _ _ | .newHumongous _ _ | .setField _ _ _ | .setId _ _ | .unpin _
  | .freeRegion _ =>
    inferInstanceAs (Decidable (_ ∧ _))
  | .setRoots _ => inferInstanceAs (Decidable True)
  | .pin address => inferInstanceAs (Decidable (h.contains address = true))
  | .freeHumongous regions => inferInstanceAs (Decidable (∃ s, s < h.regionCount ∧
      (h.region s).kind.isStartsHumongous = true ∧
        regions.Perm (List.range' s (h.humongousSpan (h.region s)))))

/-- A heap that was made empty, wherever the system put it, and was operated on and collected since.
Collections need valid references. -/
inductive Made : Heap → Prop where
  | create {system : Mapping.System} {rounds : Rounds} {o : Options} {bytes : Nat} {p : Policy}
      {h : Heap} : system.Lawful → o.Valid → create system rounds o bytes p = .ok h → Made h
  | perform {h h' : Heap} {op : Operation} : Made h → h.Permits op → h.perform op = .ok h' → Made h'
  | collect {h h' : Heap} {explicitRequest clearSoft maximal : Bool} : Made h → h.Referring →
      h.fullCollect explicitRequest clearSoft maximal = .ok h' → Made h'

/-- An operation passes where it is allowed. -/
theorem Tidy.perform_of (t : h.Tidy L) {op : Operation} (hp : h.Permits op) :
    ∃ h', h.perform op = .ok h' ∧ h'.Tidy L := by
  have hcount := t.regionCount
  cases op with
  | allocateRegion kind =>
    obtain ⟨place, h', hrun, t'⟩ := t.allocateRegion_of hp
    exact ⟨h', Checked.bind_of hrun _, t'⟩
  | newObject region words fields =>
    obtain ⟨hi, hk, hf, hw⟩ := hp
    obtain ⟨place, h', hrun, t'⟩ := t.newObject_of (hcount ▸ hi) hk hf (t.regionWords ▸ hw)
    exact ⟨h', Checked.bind_of hrun _, t'⟩
  | newHumongous words fields =>
    obtain ⟨place, h', hrun, t'⟩ := t.newHumongous_of hp.1 hp.2
    exact ⟨h', Checked.bind_of hrun _, t'⟩
  | setField object field target =>
    obtain ⟨m, hm, t'⟩ := t.setField_of target hp.1 hp.2
    exact ⟨_, Checked.bind_of hm _, t'⟩
  | setId object value =>
    obtain ⟨m, hm, t'⟩ := t.setId_of value hp.1 hp.2
    exact ⟨_, Checked.bind_of hm _, t'⟩
  | setRoots roots => exact ⟨_, rfl, t.setRoots roots⟩
  | pin address => exact t.pin_of hp
  | unpin address =>
    obtain ⟨hin, hpins⟩ := hp
    rw [t.start, t.bytes] at hpins
    exact t.unpin_of hin hpins
  | freeRegion region => exact t.freeRegion_of (hcount ▸ hp.1) hp.2
  | freeHumongous regions =>
    obtain ⟨s, hs, hk, hperm⟩ := hp
    exact t.freeHumongous_of (hcount ▸ hs) hk hperm

theorem Made.tidy (m : h.Made) : ∃ L, h.Tidy L := by
  induction m with
  | create hs v hc => exact tidy_of_create hs v hc
  | perform _ hp hrun ih =>
    obtain ⟨L, t⟩ := ih
    obtain ⟨h'', hrun', t'⟩ := t.perform_of hp
    obtain rfl := Except.ok.inj (hrun.symm.trans hrun')
    exact ⟨L, t'⟩
  | collect _ r hrun ih =>
    obtain ⟨L, t⟩ := ih
    obtain ⟨h'', hrun', t'⟩ := t.collect_of r _ _ _
    obtain rfl := Except.ok.inj (hrun.symm.trans hrun')
    exact ⟨L, t'⟩

/-- Performs operations as long as they are allowed. -/
def performAllowed (h : Heap) (ops : List Operation) : Checked Heap :=
  ops.foldlM (fun h op => do
    Fault.unless (decide (h.Permits op)) .precondition
    h.perform op) h

theorem Made.of_performAllowed {ops : List Operation} (m : h.Made)
    (hrun : h.performAllowed ops = .ok h') : h'.Made := by
  induction ops generalizing h with
  | nil => exact Except.ok.inj hrun ▸ m
  | cons op ops ih =>
    rw [performAllowed, List.foldlM_cons] at hrun
    obtain ⟨h₁, hfirst, hrest⟩ := Checked.bind_eq_ok.mp hrun
    obtain ⟨_, hpermit, hperform⟩ := Checked.bind_eq_ok.mp hfirst
    exact ih (m.perform (by simpa using hpermit) hperform) hrest

/-- All references, null ones apart, are to objects, and those out of closed archives to objects in
closed archives. -/
def Interlinked (h : Heap) : Prop :=
  (∀ k ∈ Strength.all, ∀ o ∈ h.roots.slots k, o = 0 ∨ h.IsObject o) ∧
  ∀ i, i < h.regionCount → ∀ o ∈ h.objectsIn i, ∀ p ∈ Object.referents h.memory o,
    p = 0 ∨ h.IsObject p ∧ (h.InClosedArchive o → h.InClosedArchive p)

instance (h : Heap) (a : Nat) : Decidable (h.InClosedArchive a) :=
  inferInstanceAs (Decidable (∃ i, i < h.regionCount ∧
    (h.region i).kind.isClosedArchive = true ∧ (h.region i).contains a = true))

instance (h : Heap) : Decidable h.Interlinked := inferInstanceAs (Decidable (_ ∧ _))

theorem Interlinked.referent (hl : h.Interlinked) {o p : Nat} (ho : h.IsObject o)
    (hp : p ∈ Object.referents h.memory o) (hz : p ≠ 0) :
    h.IsObject p ∧ (h.InClosedArchive o → h.InClosedArchive p) := by
  obtain ⟨i, hi, hm⟩ := ho
  exact (hl.2 i hi o hm p hp).resolve_left hz

theorem Tidy.wellFormed (t : h.Tidy L) (hl : h.Interlinked) : h.WellFormed L := by
  have hr : ∀ o, h.Reached o → h.IsObject o := fun o ho => by
    induction ho with
    | root k ho hz => exact (hl.1 k k.mem_all _ ho).resolve_left hz
    | field _ hp hz ih => exact (hl.referent ih hp hz).1
  refine ⟨⟨⟨t.toBuilt, .of_reached hr⟩, t.unmarked⟩, hr, fun o ho ha p hp hz => ?_⟩
  obtain ⟨hobject, harchived⟩ := hl.referent ho hp hz
  exact ⟨hobject, harchived ha⟩

theorem of_made {α : Type} {c : Checked Heap} {f : Heap → α} {v : α} (hc : c = .ok h)
    (hf : c.toOption.map f = some v) : f h = v := by
  rw [hc] at hf
  exact Option.some.inj hf

theorem made_of {system : Mapping.System} {rounds : Rounds} {o : Options} {bytes : Nat} {p : Policy}
    {ops : List Operation} {c : Checked Heap}
    (hc : c = do (← create system rounds o bytes p).performAllowed ops) (hok : c.toBool = true)
    (hs : system.Lawful) (v : o.Valid) : ∃ h, c = .ok h ∧ h.Made := by
  cases hrun : c with
  | error e =>
    rw [hrun] at hok
    contradiction
  | ok h =>
    rw [hrun] at hc
    obtain ⟨h₀, hcreate, hrest⟩ := Checked.bind_eq_ok.mp hc.symm
    exact ⟨h, rfl, (Made.create hs v hcreate).of_performAllowed hrest⟩

/-- A word of a region of 64 KiB. The heap starts with the second region that lies behind the start
of its range. -/
def sampleWord (region word : Nat) : Nat := 0x7ffff7a20000 + 65536 * region + 8 * word

/-- Seven regions. In each of the first four a live object lies behind a dead one and refers to the
next; the last of them closes the ring. Then there are a closed archive with one object, a pinned
humongous object, and a free region. -/
def sample : Checked Heap := do
  let h ← create sampleSystem sampleRounds
    { threads := 2, dynamicThreads := false, regionSize := 65536 } 458752 {}
  h.performAllowed [
    .allocateRegion .eden, .allocateRegion .eden, .allocateRegion .eden, .allocateRegion .old,
    .newObject 0 4 1, .newObject 0 8 1, .newObject 1 4 0, .newObject 1 8 1,
    .newObject 2 4 0, .newObject 2 8 1, .newObject 3 4 0, .newObject 3 8 1,
    .setField (sampleWord 0 0) 0 (sampleWord 0 4), .setField (sampleWord 0 4) 0 (sampleWord 1 4),
    .setField (sampleWord 1 4) 0 (sampleWord 2 4), .setField (sampleWord 2 4) 0 (sampleWord 3 4),
    .setField (sampleWord 3 4) 0 (sampleWord 0 4),
    .allocateRegion .closedArchive, .newObject 4 4 1,
    .setField (sampleWord 4 0) 0 (sampleWord 4 0),
    .newHumongous 4 0, .pin (sampleWord 5 0),
    .setRoots { strong := [sampleWord 0 4], weak := [sampleWord 0 0, sampleWord 4 0] }]

theorem sample_made : ∃ h, sample = .ok h ∧ h.Made :=
  made_of rfl (by decide +kernel) sampleSystem_lawful (by decide)

theorem of_sample {α : Type} {f : Heap → α} {v : α} (hs : sample = .ok h)
    (hf : sample.toOption.map f = some v) : f h = v :=
  of_made hs hf

theorem sample_tidy : ∃ h L, sample = .ok h ∧ h.Tidy L := by
  obtain ⟨h, hs, m⟩ := sample_made
  obtain ⟨L, t⟩ := m.tidy
  exact ⟨h, L, hs, t⟩

theorem sample_wellFormed : ∃ h L, sample = .ok h ∧ h.WellFormed L := by
  obtain ⟨h, L, hs, t⟩ := sample_tidy
  have hlinked := of_sample (f := fun h => decide h.Interlinked) (v := true) hs (by decide +kernel)
  exact ⟨h, L, hs, t.wellFormed (of_decide_eq_true hlinked)⟩

end RegionHeap.Heap
