import RegionHeap.Proofs.CollectingReuse
import RegionHeap.Proofs.Creating
import RegionHeap.Proofs.Membership

/-!
What a heap remembers of the regions that were nominated as candidates. Only a collection makes it
forget them: a region that is freed stays a candidate, in its group and with the cards of that
group, and is one still when it is handed out again.
-/
set_option autoImplicit false

namespace RegionHeap

namespace Selection

variable {s s' : Selection} {i : Nat}

theorem mem_fromMarking {cs : List Candidate} (h : s.fromMarking cs = .ok s') :
    i ∈ s'.candidates.regions ↔ i ∈ s.candidates.regions ++ cs.map Candidate.region := by
  obtain ⟨rfl, rfl⟩ | ⟨size, b, hb, hempty, marking, happend, rfl⟩ := fromMarking_eq_ok h
  · simp
  · obtain ⟨hregions, hretained⟩ := Building.regions_addAll hb
    obtain ⟨-, -, rfl⟩ := GroupList.append_eq_ok happend
    have hmarking : s.candidates.marking.regions = [] := by
      simp [GroupList.regions, hempty]
    have hstart : (Building.mk s.candidates (Group.create s.table).2 (Group.create s.table).1
        size).whole.marking.regions = [] := by
      simp [Building.whole, Building.groups, GroupList.regions, hempty, Group.create, Group.regions]
    rw [hstart, List.nil_append] at hregions
    have hwhole : (⟨b.registry.marking.groups ++ [b.group], b.registry.marking.regionCount +
        b.group.length⟩ : GroupList).regions = cs.map Candidate.region := hregions
    have hkept : b.registry.retained = s.candidates.retained := hretained
    simp only [Registry.regions, hwhole, hkept, hmarking, List.nil_append, List.mem_append]
    exact or_comm

theorem mem_retain {j : Nat} (h : s.retain j = .ok s') :
    i ∈ s'.candidates.regions ↔ i ∈ s.candidates.regions ++ [j] := by
  obtain ⟨e, g, t, -, -, hadd, retained, happend, rfl⟩ := retain_eq_ok h
  obtain ⟨-, -, -, -, rfl, -⟩ := Group.add_eq_ok hadd
  obtain ⟨-, -, rfl⟩ := GroupList.append_eq_ok happend
  simp [Registry.regions, GroupList.regions, Group.create, Group.regions]

theorem mem_sortMarking (h : s.sortMarking = .ok s') :
    i ∈ s'.candidates.regions ↔ i ∈ s.candidates.regions := by
  obtain ⟨marking, hp, rfl⟩ := sortMarking_eq_ok h
  exact (hp.regions.append_right _).mem_iff

theorem mem_sortRetained (h : s.sortRetained = .ok s') :
    i ∈ s'.candidates.regions ↔ i ∈ s.candidates.regions := by
  obtain ⟨retained, hp, rfl⟩ := sortRetained_eq_ok h
  exact (hp.regions.append_left _).mem_iff

end Selection

namespace Heap

variable {h h₀ h' : Heap} {nominated : List Nat} {system : Mapping.System} {rounds : Rounds}
  {o : Options} {bytes : Nat} {p : Policy}

/-- Every region shares the card set of its group, and the candidates are listed by region. -/
structure Grouped (h : Heap) : Prop where
  room : h.candidates.origins.size = h.regionCount
  attached : h.toSelection.Attached []
  indexed : h.table.Indexed

namespace Grouped

theorem frame (g : h.Grouped) (hc : h'.candidates = h.candidates)
    (hsize : h'.table.size = h.table.size)
    (hshared : h'.table.shared.sets.size = h.table.shared.sets.size)
    (hregion : ∀ i, (h'.region i).index = (h.region i).index ∧
      (h'.region i).remSet.group = (h.region i).remSet.group) : h'.Grouped := by
  refine ⟨?_, ?_, fun i hi => (hregion i).1.trans (g.indexed i (hsize ▸ hi))⟩
  · rw [hc, g.room]
    exact hsize.symm
  · have hattached := RegionTable.Attached.frame g.attached hsize (Nat.le_of_eq hshared.symm)
      fun i _ => (hregion i).2
    rwa [← hc] at hattached

theorem reused (g : h.Grouped) (a : h.Reused h') : h'.Grouped :=
  g.frame a.candidates a.table.size a.table.shared fun i =>
    ⟨(a.table.region g.indexed i).index, (a.table.region g.indexed i).group⟩

theorem selected {op : Selection.Operation} {s : Selection} (g : h.Grouped)
    (hs : h.toSelection.Performs op [] s) : (h.setSelection s).Grouped := by
  obtain ⟨a, hattached⟩ := hs.attached g.attached
  have hsize : (h.setSelection s).regionCount = h.regionCount := a.size
  refine ⟨?_, hattached, fun i hi => (a.index i).trans (g.indexed i (a.size ▸ hi))⟩
  rw [hsize, ← g.room]
  exact hs.size

theorem addReference {x : Bool × RegionTable} {i slot : Nat} (g : h.Grouped)
    (hx : h.table.addReference i slot = .ok x) :
    Heap.Grouped { h with table := x.2 } := by
  obtain ⟨hsize, hshared, hgroup⟩ := RegionTable.addReference_group hx
  refine g.frame rfl hsize hshared fun j => ⟨?_, hgroup j⟩
  obtain ⟨own, hregion, -⟩ := RegionTable.addReference_region hx j
  change (x.2.region j).index = _
  rw [hregion]
  rfl

end Grouped

/-- The candidates of the heap are the regions that were nominated. A free region has no cards of
its own. -/
structure Tracked (h : Heap) (nominated : List Nat) : Prop where
  consistent : h.candidates.Consistent
  room : h.candidates.origins.size = h.regionCount
  attached : h.toSelection.Attached []
  candidate : ∀ i, i ∈ h.candidates.regions ↔ i ∈ nominated
  indexed : h.table.Indexed
  cards : ∀ i, i < h.regionCount → (h.region i).kind.isFree → (h.region i).remSet.own.occupied = 0

theorem create_table (hc : create system rounds o bytes p = .ok h) :
    ∃ start count config, RegionTable.create start count o.regionSize config = .ok h.table ∧
      h.candidates = .initial count := by
  simp only [create, Checked.bind_eq_ok, Checked.pure_eq, Except.ok.injEq] at hc
  obtain ⟨-, -, _, -, _, -, _, -, _, -, -, -, config, -, t, ht, l, -, g, -, rfl⟩ := hc
  exact ⟨_, _, config, ht, rfl⟩

theorem tracked_create (hc : create system rounds o bytes p = .ok h) : h.Tracked [] := by
  obtain ⟨start, count, config, ht, hcandidates⟩ := create_table hc
  obtain ⟨hsize, -, -, hregions⟩ := RegionTable.create_eq_ok ht
  have hattached : h.table.Attached [] := by
    refine ⟨.nil, .nil, by simp, by simp, fun i hi id => ?_⟩
    simp [(hregions i (hsize ▸ hi)).2.2, RemSet.create]
  refine ⟨hcandidates ▸ .initial _, ?_, ?_, ?_, fun i hi => (hregions i (hsize ▸ hi)).1,
    fun i hi _ => ?_⟩
  · simp [hcandidates, Registry.initial, regionCount, hsize]
  · rw [Selection.Attached, hcandidates]
    exact hattached
  · simp [hcandidates, Registry.initial, Registry.regions, GroupList.regions]
  · rw [region, (hregions i (hsize ▸ hi)).2.2]
    rfl

theorem record_eq_ok {i slot : Nat} (hrun : h.record i slot = .ok h') :
    ∃ x, (h.region i).kind.isFree = false ∧ h.table.addReference i slot = .ok x ∧
      h' = { h with table := x.2 } := by
  obtain ⟨r, hr, hcheck⟩ := Checked.bind_eq_ok.mp hrun
  obtain ⟨_, hused, hrecord⟩ := Checked.bind_eq_ok.mp hcheck
  obtain ⟨x, hadd, hend⟩ := Checked.bind_eq_ok.mp hrecord
  obtain ⟨-, rfl⟩ := RegionTable.get_eq_ok hr
  rw [Fault.unless_eq_ok, Bool.not_eq_true'] at hused
  exact ⟨x, hused, hadd, (Except.ok.inj hend).symm⟩

namespace Tracked

theorem inGroups (t : h.Tracked nominated) : h.Grouped := ⟨t.room, t.attached, t.indexed⟩

/-- The candidates do not notice how the heap is used. -/
theorem reused (t : h.Tracked nominated) (a : h.Reused h') : h'.Tracked nominated := by
  have g := t.inGroups.reused a
  have hsize : h'.regionCount = h.regionCount := a.table.size
  refine ⟨a.candidates ▸ t.consistent, g.room, g.attached, a.candidates ▸ t.candidate, g.indexed,
    fun i hi hk => ?_⟩
  rcases (a.table.region t.indexed i).cards hk with hown | ⟨hfree, hown⟩
  · exact hown
  · exact hown ▸ t.cards i (hsize ▸ hi) hfree

theorem record {i slot : Nat} (t : h.Tracked nominated) (hrun : h.record i slot = .ok h') :
    h'.Tracked nominated := by
  obtain ⟨⟨new, table⟩, hused, hadd, rfl⟩ := record_eq_ok hrun
  have g := t.inGroups.addReference hadd
  refine ⟨t.consistent, g.room, g.attached, t.candidate, g.indexed, fun j hj hfree => ?_⟩
  obtain ⟨own, hregion, hown⟩ := RegionTable.addReference_region hadd j
  rw [region, hregion] at hfree ⊢
  have hne : i ≠ j := by
    rintro rfl
    rw [region, hfree] at hused
    contradiction
  rw [hown hne]
  exact t.cards j (Nat.lt_of_lt_of_eq hj (RegionTable.addReference_group hadd).1) hfree

/-- What is done with the candidates goes on with the regions as they are. -/
theorem selected {op : Selection.Operation} {s : Selection} {nominated' : List Nat}
    (t : h.Tracked nominated) (hs : h.toSelection.Performs op [] s)
    (hop : ∀ list, op ≠ .abandon list)
    (hn : ∀ i, i ∈ s.candidates.regions ↔ i ∈ nominated') :
    (h.setSelection s).Tracked nominated' := by
  have g := t.inGroups.selected hs
  have a := (hs.attached t.attached).1
  have hsize : (h.setSelection s).regionCount = h.regionCount := a.size
  refine ⟨hs.consistent hop t.consistent, g.room, g.attached, hn, g.indexed, fun i hi hk => ?_⟩
  obtain ⟨own, group, hr, hown⟩ := a.region i
  have hset : (h.setSelection s).region i = s.table.region i := rfl
  rw [hset, hr]
  rw [hset, hr] at hk
  -- a region that joined a group or left one has no cards of its own
  rcases hown with ⟨rfl, rfl⟩ | hown
  · exact t.cards i (hsize ▸ hi) hk
  · exact hown.2

theorem happen {e : Event} (t : h.Tracked nominated) (hrun : h.happen e = .ok h') :
    h'.Tracked (Event.nominate nominated e) := by
  cases e with
  | operate op => exact t.reused (Reused.perform (.refl h) op h' hrun)
  | allocateHumongous words =>
    obtain ⟨x, hx, hh⟩ := Checked.bind_eq_ok.mp hrun
    obtain rfl := Except.ok.inj hh
    exact t.reused (Reused.allocateHumongous (.refl h) words x hx)
  | record i slot => exact t.record hrun
  | fromMarking cs =>
    obtain ⟨s, hs, hh⟩ := Checked.bind_eq_ok.mp hrun
    obtain rfl := Except.ok.inj hh
    refine t.selected (.fromMarking hs) (fun _ => by simp) fun i => ?_
    simp [Selection.mem_fromMarking hs, Event.nominate, t.candidate]
  | retain i =>
    obtain ⟨s, hs, hh⟩ := Checked.bind_eq_ok.mp hrun
    obtain rfl := Except.ok.inj hh
    refine t.selected (.retain hs) (fun _ => by simp) fun i => ?_
    simp [Selection.mem_retain hs, Event.nominate, t.candidate]
  | sortMarking =>
    obtain ⟨s, hs, hh⟩ := Checked.bind_eq_ok.mp hrun
    obtain rfl := Except.ok.inj hh
    exact t.selected (.sortMarking hs) (fun _ => by simp) fun i =>
      (Selection.mem_sortMarking hs).trans (t.candidate i)
  | sortRetained =>
    obtain ⟨s, hs, hh⟩ := Checked.bind_eq_ok.mp hrun
    obtain rfl := Except.ok.inj hh
    exact t.selected (.sortRetained hs) (fun _ => by simp) fun i =>
      (Selection.mem_sortRetained hs).trans (t.candidate i)
  | rounds r => exact Except.ok.inj hrun ▸ t.reused ⟨.withRounds (.refl _) r, rfl, rfl⟩
  | collect explicitRequest clearSoft maximal =>
    obtain ⟨s, hs, hreused⟩ := fullCollect_eq_ok hrun
    -- the candidates go first, and the phases start from the heap without them
    have tcleared : (h.setSelection s).Tracked [] := by
      refine t.selected (.clear hs) (fun _ => by simp) fun i => ?_
      obtain ⟨_, rfl, -⟩ := Selection.clear_eq_ok hs
      simp [Registry.regions, GroupList.regions]
    exact tcleared.reused hreused

theorem live {events : List Event} (t : h.Tracked nominated) (hrun : h.live events = .ok h') :
    h'.Tracked (events.foldl Event.nominate nominated) := by
  induction events generalizing h nominated with
  | nil => exact Except.ok.inj hrun ▸ t
  | cons e events ih =>
    rw [Heap.live, List.foldlM_cons] at hrun
    obtain ⟨h₁, hfirst, hrest⟩ := Checked.bind_eq_ok.mp hrun
    exact ih (t.happen hfirst) hrest

variable {i : Nat}

theorem contains (t : h.Tracked nominated) (hi : i < h.regionCount) :
    h.candidates.contains i = .ok (decide (i ∈ nominated)) := by
  rw [t.consistent.contains_eq (t.room ▸ hi)]
  simp only [t.candidate]

theorem grouped (t : h.Tracked nominated) (hi : i < h.regionCount) :
    (h.region i).remSet.group ≠ none ↔ i ∈ nominated := by
  have hgroup := RegionTable.Attached.grouped t.attached (i := i) hi
  rw [List.append_nil, List.flatMap_append] at hgroup
  exact hgroup.trans (t.candidate i)

/-- The cards of a region in a group are those of the group. -/
theorem occupied_eq (t : h.Tracked nominated) {g : Group}
    (hg : g ∈ h.candidates.marking.groups ++ h.candidates.retained.groups) (hm : i ∈ g.regions) :
    ∃ cards, h.table.cards g.cards = .ok cards ∧
      (h.region i).remSet.occupied h.table.shared = .ok cards.occupied := by
  have hlisted : g ∈ h.candidates.marking.groups ++ h.candidates.retained.groups ++ [] := by
    rwa [List.append_nil]
  have hgroup : (h.region i).remSet.group = some g.cards :=
    (RegionTable.Attached.shares t.attached i (t.attached.within g hlisted i hm) g.cards).mpr
      ⟨g, hlisted, rfl, hm⟩
  have hcards : h.table.shared.get g.cards = .ok (Table.entry h.table.shared.sets g.cards) :=
    Table.get_of_lt (t.attached.known g hlisted)
  exact ⟨_, hcards, by simp only [RemSet.occupied, RemSet.active, hgroup, hcards]; rfl⟩

theorem occupied_of_free (t : h.Tracked nominated) (hi : i < h.regionCount)
    (hk : (h.region i).kind.isFree) (hn : i ∉ nominated) :
    (h.region i).remSet.occupied h.table.shared = .ok 0 := by
  have halone : (h.region i).remSet.group = none := by
    simpa using mt (t.grouped hi).mp hn
  simp only [RemSet.occupied, RemSet.active, halone, Checked.pure_eq, Checked.ok_bind,
    t.cards i hi hk]

theorem retain_again (t : h.Tracked nominated) (hi : i < h.regionCount) (hn : i ∈ nominated) :
    h.toSelection.retain i = .error (.alreadyCandidate i) := by
  have hget : h.table.get i = .ok (h.region i) := RegionTable.get_of_lt hi
  have hindex : (h.region i).index = i := t.indexed i hi
  simp only [Selection.retain, hget, Checked.ok_bind, hindex, t.contains hi, hn, decide_true]
  rfl

end Tracked

theorem allocateRegion_lt {kind : RegionKind} {i : Nat}
    (h₁ : h.allocateRegion kind = .ok (some i, h')) : i < h.regionCount := by
  unfold allocateRegion at h₁
  split at h₁
  · cases h₁
  · obtain ⟨r, hr, hrest⟩ := Checked.bind_eq_ok.mp h₁
    simp only [Checked.bind_eq_ok, Checked.pure_eq, Except.ok.injEq, Prod.mk.injEq,
      Option.some.injEq] at hrest
    obtain ⟨-, -, -, -, _, -, rfl, -⟩ := hrest
    exact (RegionTable.get_eq_ok hr).1

/-- A region is a candidate, in a group and with the cards of that group, exactly if it was nominated
since the last collection, whether it is free or not. A free region that was not has no cards. A
region that is handed out anew is a candidate on the same terms. -/
theorem live_nominated {events : List Event} (hc : create system rounds o bytes p = .ok h₀)
    (hrun : h₀.live events = .ok h) :
    (∀ i, i < h.regionCount →
      h.candidates.contains i = .ok (decide (i ∈ Event.nominated events)) ∧
      ((∃ g ∈ h.candidates.marking.groups ++ h.candidates.retained.groups, i ∈ g.regions) ↔
        i ∈ Event.nominated events) ∧
      ((h.region i).remSet.group ≠ none ↔ i ∈ Event.nominated events) ∧
      (∀ g ∈ h.candidates.marking.groups ++ h.candidates.retained.groups, i ∈ g.regions →
        ∃ cards, h.table.cards g.cards = .ok cards ∧
          (h.region i).remSet.occupied h.table.shared = .ok cards.occupied) ∧
      ((h.region i).kind.isFree → i ∉ Event.nominated events →
        (h.region i).remSet.occupied h.table.shared = .ok 0)) ∧
    ∀ kind i h', h.allocateRegion kind = .ok (some i, h') →
      h'.candidates.contains i = .ok (decide (i ∈ Event.nominated events)) ∧
      (i ∈ Event.nominated events →
        h'.toSelection.retain i = .error (.alreadyCandidate i)) := by
  have t : h.Tracked (Event.nominated events) := (tracked_create hc).live hrun
  refine ⟨fun i hi => ⟨t.contains hi, ?_, t.grouped hi, fun g hg hm => t.occupied_eq hg hm,
    t.occupied_of_free hi⟩, fun kind i h' h₁ => ?_⟩
  · rw [← t.candidate i, ← List.mem_flatMap, List.flatMap_append]
    rfl
  · have a : h.Reused h' := Reused.allocateRegion (.refl h) kind _ h₁
    have hi : i < h'.table.size := a.table.size ▸ allocateRegion_lt h₁
    exact ⟨(t.reused a).contains hi, (t.reused a).retain_again hi⟩

/-- An old region into which a reference was recorded is retained and then freed. -/
def sampleEvents : List Event :=
  [.operate (.allocateRegion .old), .record 0 0x7ffff7a30000, .retain 0, .operate (.freeRegion 0)]

/-- The freed region is free, and a candidate with a card, and is handed out as one. -/
theorem sample_nominated : ∃ h₀ h h',
    create sampleSystem sampleRounds { threads := 1, regionSize := 65536 } 131072 {} = .ok h₀ ∧
    h₀.live sampleEvents = .ok h ∧ (h.region 0).kind.isFree ∧
    h.candidates.contains 0 = .ok true ∧ (h.region 0).remSet.occupied h.table.shared = .ok 1 ∧
    h.allocateRegion .old = .ok (some 0, h') ∧ h'.candidates.contains 0 = .ok true ∧
    h'.toSelection.retain 0 = .error (.alreadyCandidate 0) := by
  have hlook : (do
      let h₀ ← create sampleSystem sampleRounds { threads := 1, regionSize := 65536 } 131072 {}
      let h ← h₀.live sampleEvents
      let x ← h.allocateRegion .old
      let cards ← (h.region 0).remSet.occupied h.table.shared
      return ((h.region 0).kind.isFree, cards, x.1)).toOption = some (true, 1, some 0) := by
    decide +kernel
  simp only [Checked.toOption_eq_some, Checked.bind_eq_ok, Checked.pure_eq, Except.ok.injEq,
    Prod.mk.injEq] at hlook
  obtain ⟨h₀, hc, h, hrun, x, hx, cards, hcards, hfree, rfl, hplace⟩ := hlook
  obtain ⟨place, h'⟩ := x
  obtain rfl : place = some 0 := hplace
  have hsize := allocateRegion_lt hx
  obtain ⟨hregions, hnew⟩ := live_nominated hc hrun
  obtain ⟨hcontains, hretain⟩ := hnew .old 0 h' hx
  exact ⟨h₀, h, h', hc, hrun, hfree, (hregions 0 hsize).1, hcards, hx, hcontains,
    hretain (by decide)⟩

end Heap

end RegionHeap
