import RegionHeap.Proofs.Consistency
import RegionHeap.Proofs.Recording

/-!
Membership in groups, as the regions see it. A region shares the card set of the group that it is
in; it goes on sharing it when the group is taken out of its list, also when that group is cleared,
and then it cannot be retained.
-/
set_option autoImplicit false

namespace RegionHeap.Selection

variable {s s' : Selection} {i : Nat} {o : Origin} {gone taken : List Group}

/-- Each region shares the card set of the group it is in, which is listed or was taken out. -/
def Attached (s : Selection) (gone : List Group) : Prop :=
  s.table.Attached (s.candidates.marking.groups ++ s.candidates.retained.groups ++ gone)

theorem Building.attached_add {b b' : Building} {c : Candidate}
    (h : b.table.Attached (b.groups ++ b.registry.retained.groups ++ gone))
    (ha : b.add c = .ok b') : b.table.Rearranged b'.table ∧
      b'.table.Attached (b'.groups ++ b'.registry.retained.groups ++ gone) := by
  obtain ⟨r, t, g, -, -, -, -, hadd, hcases⟩ := Building.add_eq_ok ha
  obtain ⟨r', -, -, -, hgroup, hjoin⟩ := Group.add_eq_ok hadd
  have a := RegionTable.Rearranged.joinGroup hjoin
  obtain ⟨rfl, rfl, hregistry⟩ | ⟨hcreate, marking, happend, hregistry⟩ := hcases
  · have hfirst : b.table.Attached
        (b.group :: (b.registry.marking.groups ++ b.registry.retained.groups ++ gone)) := by
      refine h.perm ?_
      simpa [Building.groups] using List.perm_middle.symm
    refine ⟨a, (hfirst.joinGroup rfl hjoin).perm ?_⟩
    rw [← hgroup]
    simp [Building.groups, hregistry]
  · obtain ⟨-, -, rfl⟩ := GroupList.append_eq_ok happend
    obtain rfl : g = (Group.create b.table).1 := congrArg Prod.fst hcreate
    obtain rfl : t = (Group.create b.table).2 := congrArg Prod.snd hcreate
    refine ⟨(RegionTable.Rearranged.create b.table).trans a, (h.create.joinGroup rfl hjoin).perm ?_⟩
    rw [← hgroup]
    have hmiddle : (b.groups ++ b'.group :: (b.registry.retained.groups ++ gone)).Perm
        (b'.group :: (b.groups ++ (b.registry.retained.groups ++ gone))) := List.perm_middle
    simpa [Building.groups, hregistry] using hmiddle

theorem attached_fromMarking {cs : List Candidate} (h : s.Attached gone)
    (hs : s.fromMarking cs = .ok s') : s.table.Rearranged s'.table ∧ s'.Attached gone := by
  obtain ⟨-, rfl⟩ | ⟨size, b, hb, hempty, marking, happend, rfl⟩ := fromMarking_eq_ok hs
  · exact ⟨.refl _, h⟩
  · have hstart : (Group.create s.table).2.Attached
        (s.candidates.marking.groups ++ [(Group.create s.table).1] ++
          s.candidates.retained.groups ++ gone) := by
      refine (RegionTable.Attached.create h).perm ?_
      simp
    obtain ⟨a, hend⟩ := Checked.Leaves.foldlM (P := fun b : Building =>
        s.table.Rearranged b.table ∧
          b.table.Attached (b.groups ++ b.registry.retained.groups ++ gone))
      (fun b c ⟨a, h⟩ b' hb' => by
        obtain ⟨a', h'⟩ := Building.attached_add h hb'
        exact ⟨a.trans a', h'⟩)
      cs ⟨RegionTable.Rearranged.create s.table, hstart⟩ b hb
    obtain ⟨-, -, rfl⟩ := GroupList.append_eq_ok happend
    exact ⟨a, hend⟩

theorem attached_retain (h : s.Attached gone) (hs : s.retain i = .ok s') :
    s.table.Rearranged s'.table ∧ s'.Attached gone := by
  obtain ⟨e, g, t, -, -, hadd, retained, happend, rfl⟩ := retain_eq_ok hs
  obtain ⟨r, -, -, -, rfl, hjoin⟩ := Group.add_eq_ok hadd
  obtain ⟨-, -, rfl⟩ := GroupList.append_eq_ok happend
  refine ⟨(RegionTable.Rearranged.create s.table).trans (RegionTable.Rearranged.joinGroup hjoin),
    ((RegionTable.Attached.create h).joinGroup (c := { region := i, efficiency := e }) rfl
      hjoin).perm ?_⟩
  simp only [List.append_assoc, List.singleton_append]
  rw [← List.append_assoc, ← List.append_assoc]
  exact List.perm_middle

theorem attached_sortMarking (h : s.Attached gone) (hs : s.sortMarking = .ok s') :
    s.table.Rearranged s'.table ∧ s'.Attached gone := by
  obtain ⟨marking, hp, rfl⟩ := sortMarking_eq_ok hs
  refine ⟨.refl _, RegionTable.Attached.of_content h ?_⟩
  simpa using hp.groups.append_right _

theorem attached_sortRetained (h : s.Attached gone) (hs : s.sortRetained = .ok s') :
    s.table.Rearranged s'.table ∧ s'.Attached gone := by
  obtain ⟨retained, hp, rfl⟩ := sortRetained_eq_ok hs
  refine ⟨.refl _, RegionTable.Attached.of_content h ?_⟩
  simpa using (hp.groups.append_right _).append_left _

theorem retained_first (h : s.Attached gone) :
    s.table.Attached (s.candidates.retained.groups ++ (s.candidates.marking.groups ++ gone)) := by
  refine RegionTable.Attached.perm h ?_
  rw [List.append_assoc]
  exact List.perm_append_comm_assoc ..

theorem attached_clear (h : s.Attached gone) (hs : s.clear = .ok s') :
    s.table.Rearranged s'.table ∧ s'.Attached gone := by
  obtain ⟨t, rfl, t₁, h₁, h₂⟩ := clear_eq_ok hs
  obtain ⟨a, hsecond⟩ := (retained_first h).abandonList h₁
  obtain ⟨b, hthird⟩ := hsecond.abandonList h₂
  exact ⟨a.trans b, hthird⟩

theorem attached_abandonGroups (h : s.Attached gone) (hs : s.abandonGroups o = .ok s') :
    s.table.Rearranged s'.table ∧ s'.Attached gone := by
  obtain ⟨t, ht, rfl⟩ := abandonGroups_eq_ok hs
  cases o with
  | invalid => exact RegionTable.Attached.abandonList (l := {}) h ht
  | marking =>
    have hfirst : s.table.Attached
        (s.candidates.marking.groups ++ (s.candidates.retained.groups ++ gone)) :=
      RegionTable.Attached.perm h (by rw [List.append_assoc])
    exact hfirst.abandonList (l := s.candidates.marking) ht
  | retained =>
    have hend := (retained_first h).abandonList (l := s.candidates.retained) ht
    exact ⟨hend.1, by simpa [Attached, Registry.setGroups] using hend.2⟩

theorem attached_takeOut {rest : GroupList} {spent : Bool} (h : s.Attached gone)
    (hp : (s.candidates.groups o).Parts taken rest)
    (hs : s.takeOut o taken rest spent = .ok s') :
    s.table.Rearranged s'.table ∧ s'.Attached (gone ++ taken) := by
  obtain ⟨t, origins, ht, rfl, -, -⟩ := takeOut_eq_ok hs
  obtain ⟨a, hclear⟩ : s.table.Rearranged t ∧ t.Attached
      (s.candidates.marking.groups ++ s.candidates.retained.groups ++ gone) := by
    cases spent with
    | true => exact RegionTable.Attached.clearAll h ht
    | false =>
      obtain rfl : s.table = t := Except.ok.inj ht
      exact ⟨.refl _, h⟩
  have hmove : ∀ others : List Group,
      (rest.groups ++ (others ++ taken)).Perm (taken ++ rest.groups ++ others) := fun others => by
    rw [← List.append_assoc, List.append_assoc taken]
    exact List.perm_append_comm
  refine ⟨a, RegionTable.Attached.perm hclear ?_⟩
  cases o with
  | invalid =>
    have hnone : taken = [] := (List.append_eq_nil_iff.mp hp.groups.eq_nil).1
    simp [hnone, Registry.setGroups]
  | marking =>
    have hgroups : (taken ++ rest.groups).Perm s.candidates.marking.groups := hp.groups
    simpa [Registry.setGroups] using
      (hmove (s.candidates.retained.groups ++ gone)).trans (hgroups.append_right _)
  | retained =>
    have hgroups : (taken ++ rest.groups).Perm s.candidates.retained.groups := hp.groups
    simpa [Registry.setGroups] using ((hmove gone).trans (hgroups.append_right _)).append_left
      s.candidates.marking.groups

/-- Every operation keeps regions and groups attached. -/
theorem Performs.attached {op : Operation} (h : s.Attached gone) (hs : s.Performs op taken s') :
    s.table.Rearranged s'.table ∧ s'.Attached (gone ++ taken) := by
  cases hs with
  | takeFirst hp hs => exact attached_takeOut h hp hs
  | take hp hs => exact attached_takeOut h hp hs
  | fromMarking hs => simpa using attached_fromMarking h hs
  | retain hs => simpa using attached_retain h hs
  | sortMarking hs => simpa using attached_sortMarking h hs
  | sortRetained hs => simpa using attached_sortRetained h hs
  | clear hs => simpa using attached_clear h hs
  | abandon hs => simpa using attached_abandonGroups h hs

/-- What happens between the operations leaves the groups as they are, and takes no memory for
cards. -/
structure Changed (s s' : Selection) : Prop where
  size : s'.table.size = s.table.size
  shared : s'.table.shared.sets.size = s.table.shared.sets.size
  region : ∀ i, (s'.table.region i).index = (s.table.region i).index ∧
    (s'.table.region i).remSet.group = (s.table.region i).remSet.group
  roomy : s.table.Roomy → s'.table.Roomy

theorem changed_update {f : Region → Region} {t : RegionTable}
    (hf : ∀ r, (f r).index = r.index ∧ (f r).remSet.group = r.remSet.group)
    (hroom : ∀ r, r.remSet.own.Fits → (f r).remSet.own.Fits)
    (ht : s.table.update i (fun r => return f r) = .ok t) : s.Changed { s with table := t } := by
  obtain ⟨hi, r, hr, rfl⟩ := RegionTable.update_eq_ok ht
  obtain rfl := Except.ok.inj hr
  refine ⟨RegionTable.size_put .., rfl, fun j => ?_, fun h => h.put (hroom _ (h.own i hi)) i⟩
  rw [RegionTable.region_put hi]
  split
  · next e => exact e ▸ hf _
  · exact ⟨rfl, rfl⟩

theorem change_eq_ok {c : Change} (h : s.Attached gone) (hs : s.change c = .ok s') :
    s.Changed s' := by
  cases c with
  | policy p => exact Except.ok.inj hs ▸ ⟨rfl, rfl, fun _ => ⟨rfl, rfl⟩, fun h => h⟩
  | region i r =>
    obtain ⟨t, ht, hs⟩ := Checked.bind_eq_ok.mp hs
    exact Except.ok.inj hs ▸ changed_update
      (f := fun old => { r with index := old.index, remSet := old.remSet })
      (fun _ => ⟨rfl, rfl⟩) (fun _ h => h) ht
  | clear i =>
    obtain ⟨t, ht, hs⟩ := Checked.bind_eq_ok.mp hs
    exact Except.ok.inj hs ▸
      changed_update (f := Region.clear) (fun _ => ⟨rfl, rfl⟩) (fun _ h => h.clear) ht
  | rounds r =>
    exact Except.ok.inj hs ▸
      ⟨rfl, rfl, fun _ => ⟨rfl, rfl⟩, fun h => ⟨h.config, h.own, h.shared⟩⟩
  | record i slot =>
    obtain ⟨⟨new, t⟩, ht, hs⟩ := Checked.bind_eq_ok.mp hs
    obtain rfl := Except.ok.inj hs
    obtain ⟨hsize, hshared, hgroup⟩ := RegionTable.addReference_group ht
    refine ⟨hsize, hshared, fun j => ⟨?_, hgroup j⟩, fun hroom => ?_⟩
    · obtain ⟨own, hregion, -⟩ := RegionTable.addReference_region ht j
      have hindex := congrArg Region.index hregion
      exact hindex
    · have hi := (RegionTable.addReference_eq_ok ht).1
      have hknown : ∀ k id, (s.table.region k).remSet.group = some id →
          id < s.table.shared.sets.size := fun k id hid => by
        obtain ⟨g, hg, rfl, -⟩ := (h.shares k (RegionTable.lt_of_group hid) id).mp hid
        exact h.known g hg
      obtain ⟨new', t', ht', hroom'⟩ := RegionTable.addReference_of hroom hknown hi slot
      cases ht.symm.trans ht'
      exact hroom'

theorem Changed.attached (a : s.Changed s') (hc : s'.candidates = s.candidates)
    (h : s.Attached gone) : s'.Attached gone := by
  have hframe := RegionTable.Attached.frame h a.size (Nat.le_of_eq a.shared.symm)
    fun i _ => (a.region i).2
  rwa [Attached, hc]

/-- The registry contains all regions of its groups, and possibly others. -/
def Covered (s : Selection) : Prop :=
  ∀ i ∈ s.candidates.regions, s.candidates.contains i = .ok true

section Covered

variable {c c' : Registry}

theorem contains_setOrigin (ho : o ≠ .invalid) (hi : i < c.origins.size) {j : Nat}
    (hc : j = i ∨ c.contains j = .ok true)
    (horigins : c'.origins = c.origins.setIfInBounds i o) : c'.contains j = .ok true := by
  rw [Registry.contains_eq_ok, horigins, Array.getElem?_setIfInBounds]
  by_cases hij : i = j
  · subst hij
    rw [if_pos rfl, if_pos hi]
    exact ⟨o, rfl, by simpa using ho⟩
  · rw [if_neg hij]
    exact Registry.contains_eq_ok.mp (hc.resolve_left (Ne.symm hij))

theorem contains_congr {j : Nat} (h : c'.origins[j]? = c.origins[j]?)
    (hc : c.contains j = .ok true) : c'.contains j = .ok true := by
  rw [Registry.contains_eq_ok, h]
  exact Registry.contains_eq_ok.mp hc

theorem covered_fromMarking {cs : List Candidate} (h : s.Covered)
    (hs : s.fromMarking cs = .ok s') : s'.Covered := by
  obtain ⟨-, rfl⟩ | ⟨size, b, hb, hempty, marking, happend, rfl⟩ := fromMarking_eq_ok hs
  · exact h
  · have hstart : ∀ i ∈ (Building.mk s.candidates (Group.create s.table).2
        (Group.create s.table).1 size).whole.regions, s.candidates.contains i = .ok true := by
      intro i hi
      refine h i ?_
      simpa [Building.whole, Building.groups, Registry.regions, GroupList.regions, Group.create,
        Group.regions] using hi
    have hend := Checked.Leaves.foldlM
      (P := fun b : Building => ∀ i ∈ b.whole.regions, b.whole.contains i = .ok true)
      (fun b (c : Candidate) hb b' h i hi => by
        obtain ⟨hinvalid, horigins, hregions, -, hretained⟩ := Building.add_whole h
        refine contains_setOrigin (o := .marking) (by decide)
          (Array.getElem?_eq_some_iff.mp hinvalid).1 ?_ horigins
        rw [Registry.regions, hregions, hretained, List.append_assoc] at hi
        exact (List.mem_cons.mp (List.perm_middle.mem_iff.mp hi)).imp id fun hi => hb i hi)
      cs hstart b hb
    obtain ⟨-, -, rfl⟩ := GroupList.append_eq_ok happend
    exact hend

theorem covered_retain (h : s.Covered) (hs : s.retain i = .ok s') : s'.Covered := by
  obtain ⟨e, g, t, -, hlt, hadd, retained, happend, rfl⟩ := retain_eq_ok hs
  obtain ⟨r, -, -, -, rfl, -⟩ := Group.add_eq_ok hadd
  obtain ⟨-, -, rfl⟩ := GroupList.append_eq_ok happend
  intro j hj
  refine contains_setOrigin (c := s.candidates) (o := .retained) (by decide) hlt ?_ rfl
  have hregions : j ∈ s.candidates.regions ++ [i] := by
    simpa [Registry.regions, GroupList.regions, Group.create, Group.regions] using hj
  exact (List.mem_append.mp hregions).symm.imp List.mem_singleton.mp fun hj => h j hj

theorem regions_setGroups {l : GroupList} (hl : ∀ k ∈ l.regions, k ∈ (c.groups o).regions) {j : Nat}
    (hj : j ∈ (c.setGroups o l).regions) : j ∈ c.regions := by
  cases o with
  | invalid => exact hj
  | marking => exact List.mem_append.mpr ((List.mem_append.mp hj).imp (hl j) id)
  | retained => exact List.mem_append.mpr ((List.mem_append.mp hj).imp id (hl j))

theorem Attached.apart (h : s.Attached gone) {j : Nat} (hj : j ∈ s.candidates.regions) :
    j ∉ gone.flatMap Group.regions := fun hm => by
  have hnodup := h.nodup
  rw [List.flatMap_append] at hnodup
  refine (List.nodup_append.mp hnodup).2.2 j ?_ j hm rfl
  rw [List.flatMap_append]
  exact hj

theorem Covered.of_subset (h : s.Covered)
    (hr : ∀ j ∈ s'.candidates.regions, j ∈ s.candidates.regions ∧
      s'.candidates.origins[j]? = s.candidates.origins[j]?) : s'.Covered := fun j hj => by
  obtain ⟨hmem, horigin⟩ := hr j hj
  exact contains_congr horigin (h j hmem)

/-- Every operation keeps the regions of the groups covered. That those that stay are not forgotten
is because no region is in two groups. -/
theorem Performs.covered {op : Operation} (ha : s.Attached gone) (h : s.Covered)
    (hs : s.Performs op taken s') : s'.Covered := by
  have htake : ∀ {o : Origin} {rest : GroupList} {spent : Bool},
      (s.candidates.groups o).Parts taken rest → s.takeOut o taken rest spent = .ok s' →
        s'.Covered := by
    intro o rest spent hp hs
    have hapart : ∀ j ∈ s'.candidates.regions, j ∉ (gone ++ taken).flatMap Group.regions :=
      fun j hj => (attached_takeOut ha hp hs).2.apart hj
    obtain ⟨t, origins, -, rfl, -, horigins⟩ := takeOut_eq_ok hs
    refine h.of_subset fun j hj => ⟨regions_setGroups (fun k hk => ?_) hj, ?_⟩
    · exact hp.regions.mem_iff.mp (List.mem_append_right _ hk)
    · have hstays : j ∉ taken.flatMap Group.regions := fun hm => hapart j hj (by
        rw [List.flatMap_append]
        exact List.mem_append_right _ hm)
      rw [horigins, if_neg hstays]
  cases hs with
  | fromMarking hs => exact covered_fromMarking h hs
  | retain hs => exact covered_retain h hs
  | sortMarking hs =>
    obtain ⟨marking, hp, rfl⟩ := sortMarking_eq_ok hs
    refine h.of_subset fun j hj => ⟨?_, rfl⟩
    exact (hp.regions.append_right _).mem_iff.mp hj
  | sortRetained hs =>
    obtain ⟨retained, hp, rfl⟩ := sortRetained_eq_ok hs
    refine h.of_subset fun j hj => ⟨?_, rfl⟩
    exact (hp.regions.append_left _).mem_iff.mp hj
  | clear hs =>
    obtain ⟨t, rfl, -⟩ := clear_eq_ok hs
    exact h.of_subset fun j hj => by cases hj
  | abandon hs =>
    obtain ⟨t, -, rfl⟩ := abandonGroups_eq_ok hs
    refine h.of_subset fun j hj => ⟨regions_setGroups (fun k hk => ?_) hj, by simp⟩
    cases hk
  | takeFirst hp hs | take hp hs => exact htake hp hs

end Covered

/-- Nothing has been done with the candidates yet. -/
structure Pristine (s : Selection) : Prop where
  registry : ({} : Registry).allot s.table.size = .ok s.candidates
  index : ∀ i, i < s.table.size → (s.table.region i).index = i
  alone : ∀ i, i < s.table.size → (s.table.region i).remSet.group = none
  roomy : s.table.Roomy

theorem Pristine.attached (h : s.Pristine) : s.Attached [] := by
  have hinitial := allot_eq_ok h.registry
  have hnone : s.candidates.marking.groups ++ s.candidates.retained.groups ++ [] = [] := by
    rw [hinitial]
    rfl
  rw [Attached, hnone]
  exact ⟨.nil, .nil, by simp, by simp, fun i hi id => by simp [h.alone i hi]⟩

theorem Pristine.covered (h : s.Pristine) : s.Covered := by
  have hinitial := allot_eq_ok h.registry
  intro i hi
  rw [hinitial] at hi
  cases hi

section Retaining

variable {e : Float}

theorem efficiency_of {t : RegionTable} {gs : List Group} (h : t.Attached gs) (hi : i < t.size)
    (p : Policy) : ∃ e, t.efficiency i p = .ok e := by
  obtain ⟨cards, hcards⟩ : ∃ cards, (t.region i).remSet.active t.shared = .ok cards := by
    cases hg : (t.region i).remSet.group with
    | none => exact ⟨(t.region i).remSet.own, by simp only [RemSet.active, hg, Checked.pure_eq]⟩
    | some id =>
      obtain ⟨g, hmem, rfl, -⟩ := (h.shares i hi id).mp hg
      have hget : t.shared.get g.cards = .ok (Table.entry t.shared.sets g.cards) :=
        Table.get_of_lt (h.known g hmem)
      exact ⟨Table.entry t.shared.sets g.cards, by simp only [RemSet.active, hg, hget]⟩
  simp only [RegionTable.efficiency, RegionTable.get_of_lt hi, Checked.ok_bind, Region.efficiency,
    RemSet.occupied, hcards, Checked.pure_eq]
  exact ⟨_, rfl⟩

theorem retain_eq (hi : i < s.table.size) (hindex : (s.table.region i).index = i)
    (hyoung : (s.table.region i).kind.isYoung = false) (hc : s.candidates.contains i = .ok false)
    (he : (Group.create s.table).2.efficiency i s.policy = .ok e) : s.retain i = do
      let t ← (Group.create s.table).2.joinGroup i (Group.create s.table).1.cards
      let retained ← s.candidates.retained.append
        { cards := (Group.create s.table).1.cards, members := [{ region := i, efficiency := e }] }
      return { s with
        table := t
        candidates := { s.candidates with
          origins := s.candidates.origins.setIfInBounds i .retained, retained := retained } } := by
  have hlt := (Array.getElem?_eq_some_iff.mp (Registry.contains_eq_false.mp hc)).1
  have hget : (Group.create s.table).2.get i = .ok (s.table.region i) := RegionTable.get_of_lt hi
  have hset : s.candidates.setOrigin i .retained = .ok { s.candidates with
      origins := s.candidates.origins.setIfInBounds i .retained } := by
    simp [Registry.setOrigin, Table.set_of_lt hlt]
  have hcreate : Group.create s.table = ((Group.create s.table).1, (Group.create s.table).2) := rfl
  have hmembers : (Group.create s.table).1.members = [] := rfl
  rw [retain, hcreate]
  simp only [RegionTable.get_of_lt hi, Checked.ok_bind, hindex, hc, Bool.not_false,
    Checked.unless_true, hset, Group.addRegion, he, Group.add, hget, beq_self_eq_true, hyoung,
    hmembers, List.nil_append]
  cases hjoin : (Group.create s.table).2.joinGroup i (Group.create s.table).1.cards with
  | error f => rfl
  | ok t => rfl

theorem retain_of (h : s.Attached gone) (hroom : s.table.Roomy) (hi : i < s.table.size)
    (hindex : (s.table.region i).index = i) (hyoung : (s.table.region i).kind.isYoung = false)
    (hc : s.candidates.contains i = .ok false) (hg : (s.table.region i).remSet.group = none) :
    ∃ s', s.retain i = .ok s' := by
  have hcreate := RegionTable.Attached.create h
  obtain ⟨e, he⟩ := efficiency_of hcreate (i := i) hi s.policy
  obtain ⟨t, ht⟩ := RegionTable.joinGroup_of ((RegionTable.Rearranged.create s.table).roomy hroom)
    (i := i) hi (hcreate.known _ (List.mem_cons_self ..)) hg
  have hunlisted : (s.candidates.retained.groups.all fun k =>
      k.cards != (Group.create s.table).1.cards) = true := by
    refine List.all_eq_true.mpr fun k hk => ?_
    have hknown := h.known k (by simp [hk])
    simpa [Group.create, RegionTable.newCards, SharedCards.create] using Nat.ne_of_lt hknown
  rw [retain_eq hi hindex hyoung hc he, ht]
  simp only [Checked.ok_bind, GroupList.append, Group.isEmpty, List.isEmpty_cons, Bool.not_false,
    Checked.unless_true, hunlisted, Checked.pure_eq]
  exact ⟨_, rfl⟩

/-- A region that is in a group already is refused, whether the registry contains it or not. -/
theorem retain_second (h : s.Attached gone) (hi : i < s.table.size)
    (hindex : (s.table.region i).index = i) (hyoung : (s.table.region i).kind.isYoung = false)
    (hc : s.candidates.contains i = .ok false) (hg : (s.table.region i).remSet.group ≠ none) :
    s.retain i = .error .secondGroup := by
  obtain ⟨e, he⟩ := efficiency_of (RegionTable.Attached.create h) (i := i) hi s.policy
  have hjoin : (Group.create s.table).2.joinGroup i (Group.create s.table).1.cards =
      .error .secondGroup := RegionTable.joinGroup_second hi hg
  rw [retain_eq hi hindex hyoung hc he, hjoin]
  rfl

end Retaining

/-- A region shares the set of a group exactly as long as the group has it, which it still does once
it was taken out of its list. A region that no list contains can be retained exactly if it is in no
group that was taken out. -/
theorem run_shares {ops : List Operation} (h : s.Pristine)
    (hrun : s.run ops = .ok (taken, s')) :
    let groups := s'.candidates.marking.groups ++ s'.candidates.retained.groups ++ taken
    (groups.flatMap Group.regions).Nodup ∧ (groups.map Group.cards).Nodup ∧
    (∀ i, i < s'.table.size → ∀ id, (s'.table.region i).remSet.group = some id ↔
      ∃ g ∈ groups, g.cards = id ∧ i ∈ g.regions) ∧
    ∀ i, i < s'.table.size → (s'.table.region i).kind.isYoung = false →
      s'.candidates.contains i = .ok false →
        (i ∉ taken.flatMap Group.regions → ∃ s'', s'.retain i = .ok s'') ∧
        (i ∈ taken.flatMap Group.regions → s'.retain i = .error .secondGroup) := by
  obtain ⟨hindex, hroom, hattached, hcovered⟩ := run_induction
    (P := fun gone s' => (∀ i, i < s'.table.size → (s'.table.region i).index = i) ∧
      s'.table.Roomy ∧ s'.Attached gone ∧ s'.Covered)
    (fun gone s₁ op more s₂ _ ⟨hindex, hroom, hattached, hcovered⟩ hs => by
      obtain ⟨a, hattached'⟩ := hs.attached hattached
      exact ⟨fun i hi => (a.index i).trans (hindex i (a.size ▸ hi)), a.roomy hroom, hattached',
        hs.covered hattached hcovered⟩)
    (fun gone s₁ c s₂ ⟨hindex, hroom, hattached, hcovered⟩ hs => by
      have a := change_eq_ok hattached hs
      have hc := change_candidates hs
      refine ⟨fun i hi => (a.region i).1.trans (hindex i (a.size ▸ hi)), a.roomy hroom,
        a.attached hc hattached, ?_⟩
      rw [Covered, hc]
      exact hcovered)
    ⟨h.index, h.roomy, h.attached, h.covered⟩ hrun
  refine ⟨hattached.nodup, hattached.distinct, hattached.shares, fun i hi hyoung hc => ?_⟩
  have hgroup : (s'.table.region i).remSet.group ≠ none ↔ i ∈ taken.flatMap Group.regions := by
    rw [hattached.grouped hi, List.flatMap_append, List.mem_append]
    -- the groups in the lists have only regions that the registry contains
    refine or_iff_right fun hm => ?_
    rw [List.flatMap_append] at hm
    exact absurd (hc.symm.trans (hcovered i hm)) (by simp)
  refine ⟨fun hm => ?_, fun hm => ?_⟩
  · exact retain_of hattached hroom hi (hindex i hi) hyoung hc
      (by simpa using mt hgroup.mp hm)
  · exact retain_second hattached hi (hindex i hi) hyoung hc (hgroup.mpr hm)

theorem pristine_of_create {start count bytes : Nat} {config : CardConfig} {t : RegionTable}
    {c : Registry} (ht : RegionTable.create start count bytes config = .ok t) (hf : config.Fits)
    (hc : ({} : Registry).allot count = .ok c) (p : Policy) : Pristine ⟨t, c, p⟩ := by
  obtain ⟨hsize, -, -, hregions⟩ := RegionTable.create_eq_ok ht
  refine ⟨hsize ▸ hc, fun i hi => (hregions i (hsize ▸ hi)).1, fun i hi => ?_,
    RegionTable.roomy_create ht hf⟩
  rw [(hregions i (hsize ▸ hi)).2.2]
  rfl

theorem sample_pristine (h : sample = .ok s) : s.Pristine := by
  have v : ({ threads := 1, regionSize := 65536 } : Options).Valid := by decide
  obtain ⟨config, hconfig, hfits, -⟩ := v.fits { period := 128, delay := 2 } (by decide)
  simp only [sample, hconfig, Checked.ok_bind, Checked.bind_eq_ok, Checked.pure_eq,
    Except.ok.injEq] at h
  obtain ⟨t, ht, c, hc, rfl⟩ := h
  exact pristine_of_create ht hfits hc _

/-- The region of a group that was collected cannot be retained. -/
theorem sample_refused : ∃ (s : Selection) (taken : List Group) (s' : Selection), s.Pristine ∧
    s.run sampleOperations = .ok (taken, s') ∧ 0 < s'.table.size ∧
    (s'.table.region 0).kind.isYoung = false ∧ s'.candidates.contains 0 = .ok false ∧
    s'.retain 0 = .error .secondGroup := by
  have hlook : (do
      let s ← sample
      let p ← s.run sampleOperations
      let contained ← p.2.candidates.contains 0
      return (decide (0 < p.2.table.size), (p.2.table.region 0).kind.isYoung, contained,
        decide (0 ∈ p.1.flatMap Group.regions))).toOption = some (true, false, false, true) := by
    decide +kernel
  simp only [Checked.toOption_eq_some, Checked.bind_eq_ok, Checked.pure_eq, Except.ok.injEq,
    Prod.mk.injEq, decide_eq_true_eq] at hlook
  obtain ⟨s, hs, p, hrun, contained, hc, hsize, hyoung, rfl, htaken⟩ := hlook
  have h := sample_pristine hs
  exact ⟨s, p.1, p.2, h, hrun, hsize, hyoung, hc,
    ((run_shares h hrun).2.2.2 0 hsize hyoung hc).2 htaken⟩

end RegionHeap.Selection
