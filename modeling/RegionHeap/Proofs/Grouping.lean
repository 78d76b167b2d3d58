import RegionHeap.Proofs.Membership

/-!
How the regions that a marking selected are split into groups. They stay in their order; the first
group takes as many as the policy asks for, and those behind it are of the regular size for as long
as there are enough regions left.
-/
set_option autoImplicit false

namespace RegionHeap

theorem RegionTable.region_joinGroup {t t' : RegionTable} {i id j : Nat}
    (h : t.joinGroup i id = .ok t') (hj : j ≠ i) : t'.region j = t.region j := by
  obtain ⟨hi, -, -, cards, -, rfl⟩ := joinGroup_eq_ok h
  exact (region_put (t := t.putCards ..) hi _ j).trans (if_neg (Ne.symm hj))

namespace Selection

variable {s s' : Selection}

/-- The regions of a marking can become candidates: they are distinct, and none of them is young,
shares a card set or is a candidate already. -/
structure Selectable (s : Selection) (cs : List Candidate) : Prop where
  nodup : (cs.map Candidate.region).Nodup
  within : ∀ c ∈ cs, c.region < s.table.size
  notYoung : ∀ c ∈ cs, (s.table.region c.region).kind.isYoung = false
  alone : ∀ c ∈ cs, (s.table.region c.region).remSet.group = none
  new : ∀ c ∈ cs, s.candidates.contains c.region = .ok false

namespace Building

variable {b : Building} {c : Candidate} {t : RegionTable} {first : Nat}

theorem add_open (hi : c.region < b.table.size)
    (hindex : (b.table.region c.region).index = c.region)
    (hyoung : (b.table.region c.region).kind.isYoung = false)
    (hnew : b.registry.contains c.region = .ok false) (hopen : b.group.length ≠ b.size)
    (hjoin : b.table.joinGroup c.region b.group.cards = .ok t) : b.add c = .ok
      ⟨{ b.registry with origins := b.registry.origins.setIfInBounds c.region .marking }, t,
        { b.group with members := b.group.members ++ [c] }, b.size⟩ := by
  have hlt := (Array.getElem?_eq_some_iff.mp (Registry.contains_eq_false.mp hnew)).1
  simp only [add, RegionTable.get_of_lt hi, Checked.ok_bind, hindex, hnew, Bool.not_false,
    Checked.unless_true, Registry.setOrigin, Table.set_of_lt hlt, Checked.pure_eq, if_neg hopen,
    Group.add, beq_self_eq_true, hyoung, hjoin]

theorem add_full {marking : GroupList} (hi : c.region < b.table.size)
    (hindex : (b.table.region c.region).index = c.region)
    (hyoung : (b.table.region c.region).kind.isYoung = false)
    (hnew : b.registry.contains c.region = .ok false) (hfull : b.group.length = b.size)
    (happend : b.registry.marking.append b.group = .ok marking)
    (hjoin : (Group.create b.table).2.joinGroup c.region (Group.create b.table).1.cards = .ok t) :
    b.add c = .ok
      ⟨{ b.registry with
          origins := b.registry.origins.setIfInBounds c.region .marking
          marking := marking }, t,
        { (Group.create b.table).1 with members := [c] }, Group.regularSize⟩ := by
  have hlt := (Array.getElem?_eq_some_iff.mp (Registry.contains_eq_false.mp hnew)).1
  have hget : (Group.create b.table).2.get c.region = .ok (b.table.region c.region) :=
    RegionTable.get_of_lt hi
  have hcreate : Group.create b.table = ((Group.create b.table).1, (Group.create b.table).2) := rfl
  have hmembers : (Group.create b.table).1.members = [] := rfl
  rw [add, hcreate]
  simp only [RegionTable.get_of_lt hi, Checked.ok_bind, hindex, hnew, Bool.not_false,
    Checked.unless_true, Registry.setOrigin, Table.set_of_lt hlt, Checked.pure_eq, if_pos hfull,
    happend, Group.add, hget, beq_self_eq_true, hyoung, hjoin, hmembers, List.nil_append]

/-- The first group is growing, or it is full and so are those behind it, but for the last. -/
inductive Filled (first : Nat) (b : Building) : Prop where
  | opening : b.registry.marking.groups = [] → b.size = first → b.group.length ≤ first →
    Filled first b
  | later {head : Group} {full : List Group} : b.registry.marking.groups = head :: full →
    head.length = first → (∀ g ∈ full, g.length = Group.regularSize) →
    b.size = Group.regularSize → b.group.length ≤ Group.regularSize → Filled first b

namespace Filled

theorem size_pos (f : b.Filled first) (hfirst : 0 < first) : 0 < b.size := by
  cases f with
  | opening _ hsize _ => exact hsize ▸ hfirst
  | later _ _ _ hsize _ => exact hsize ▸ (by decide)

theorem next {b' : Building} (f : b.Filled first) (hfull : b.group.length = b.size)
    (hgroups : b'.registry.marking.groups = b.groups) (hsize : b'.size = Group.regularSize)
    (hlength : b'.group.length = 1) : b'.Filled first := by
  have hle : b'.group.length ≤ Group.regularSize := hlength ▸ Nat.le_add_left 1 4
  cases f with
  | opening hnone hopening _ =>
    have hmarked : b'.registry.marking.groups = [b.group] := by simp [hgroups, groups, hnone]
    exact .later hmarked (hfull.trans hopening) (by simp) hsize hle
  | @later head full hmore hhead hfulls hregular _ =>
    have hmarked : b'.registry.marking.groups = head :: (full ++ [b.group]) := by
      simp [hgroups, groups, hmore]
    refine .later hmarked hhead (fun g hg => ?_) hsize hle
    rcases List.mem_append.mp hg with hg | hg
    · exact hfulls g hg
    · exact List.mem_singleton.mp hg ▸ hfull.trans hregular

end Filled

/-- What is known of the groups when some candidates are done. The others can still be added. -/
structure Splits (s : Selection) (first : Nat) (done : List Candidate) (b : Building) : Prop where
  members : b.groups.flatMap Group.members = done
  filled : b.Filled first
  started : done ≠ [] → b.group.members ≠ []
  nonempty : ∀ g ∈ b.registry.marking.groups, g.members ≠ []
  distinct : (b.groups.map Group.cards).Nodup
  known : ∀ g ∈ b.groups, g.cards < b.table.shared.sets.size
  count : b.registry.marking.regionCount + b.group.length = done.length
  origins : ∀ i, b.registry.origins[i]? =
    if i ∈ done.map Candidate.region then some .marking else s.candidates.origins[i]?
  size : b.registry.origins.size = s.candidates.origins.size
  retained : b.registry.retained = s.candidates.retained
  table : s.table.Rearranged b.table
  others : ∀ i, i ∉ done.map Candidate.region → b.table.region i = s.table.region i

namespace Splits

variable {done : List Candidate}

theorem append (h : b.Splits s first done) (hdone : done ≠ []) :
    b.registry.marking.append b.group =
      .ok ⟨b.groups, b.registry.marking.regionCount + b.group.length⟩ := by
  have hgroup : (!b.group.isEmpty) = true := by simpa [Group.isEmpty] using h.started hdone
  have hdistinct : ((b.registry.marking.groups.map Group.cards) ++ [b.group.cards]).Nodup := by
    simpa [groups] using h.distinct
  have hunlisted : (b.registry.marking.groups.all fun k => k.cards != b.group.cards) = true := by
    refine List.all_eq_true.mpr fun k hk => bne_iff_ne.mpr fun he => ?_
    exact (List.nodup_append.mp hdistinct).2.2 _ (List.mem_map_of_mem hk) _ (by simp) he
  simp only [GroupList.append, hgroup, hunlisted, Checked.unless_true, Checked.ok_bind,
    Checked.pure_eq, groups]

theorem next (h : b.Splits s first done)
    (hindex : ∀ i, i < s.table.size → (s.table.region i).index = i) {cs rest : List Candidate}
    (hcs : s.Selectable cs) (hsplit : cs = done ++ c :: rest) :
    c.region ∉ done.map Candidate.region ∧ c.region < b.table.size ∧
      (b.table.region c.region).index = c.region ∧
      (b.table.region c.region).kind.isYoung = false ∧
      (b.table.region c.region).remSet.group = none ∧
      b.registry.contains c.region = .ok false := by
  have hc : c ∈ cs := by simp [hsplit]
  have hnodup := hcs.nodup
  rw [hsplit, List.map_append, List.map_cons] at hnodup
  have hnot : c.region ∉ done.map Candidate.region := fun hmem =>
    (List.nodup_append.mp hnodup).2.2 _ hmem _ (by simp) rfl
  have horigin : b.registry.origins[c.region]? = some .invalid := by
    rw [h.origins, if_neg hnot]
    exact Registry.contains_eq_false.mp (hcs.new c hc)
  rw [h.others _ hnot, h.table.size]
  exact ⟨hnot, hcs.within c hc, hindex _ (hcs.within c hc), hcs.notYoung c hc, hcs.alone c hc,
    Registry.contains_eq_false.mpr horigin⟩

theorem origins_add (h : b.Splits s first done) (hc : c.region < b.registry.origins.size)
    (i : Nat) : (b.registry.origins.setIfInBounds c.region .marking)[i]? =
      if i ∈ (done ++ [c]).map Candidate.region then some .marking
      else s.candidates.origins[i]? := by
  rw [Array.getElem?_setIfInBounds, h.origins]
  by_cases hi : c.region = i
  · simp [hi ▸ hc, hi]
  · simp [hi, Ne.symm hi]

theorem others_add {t : RegionTable} (h : b.Splits s first done)
    (hother : ∀ i, i ≠ c.region → t.region i = b.table.region i) (i : Nat)
    (hi : i ∉ (done ++ [c]).map Candidate.region) : t.region i = s.table.region i := by
  rw [List.map_append, List.mem_append, not_or] at hi
  rw [hother i (by simpa using hi.2), h.others i hi.1]

theorem step_open (h : b.Splits s first done) (hroom : s.table.Roomy)
    (hindex : ∀ i, i < s.table.size → (s.table.region i).index = i) {cs rest : List Candidate}
    (hcs : s.Selectable cs) (hsplit : cs = done ++ c :: rest) (hopen : b.group.length ≠ b.size) :
    ∃ b', b.add c = .ok b' ∧ b'.Splits s first (done ++ [c]) := by
  obtain ⟨-, hi, hindexed, hyoung, halone, hnew⟩ := h.next hindex hcs hsplit
  have hknown : b.group.cards < b.table.shared.sets.size := h.known _ (by simp [groups])
  obtain ⟨t, ht⟩ := RegionTable.joinGroup_of (h.table.roomy hroom) hi hknown halone
  have htable := RegionTable.Rearranged.joinGroup ht
  have hlt := (Array.getElem?_eq_some_iff.mp (Registry.contains_eq_false.mp hnew)).1
  have hlength : ({ b.group with members := b.group.members ++ [c] } : Group).length =
      b.group.length + 1 := by simp [Group.length]
  refine ⟨_, add_open hi hindexed hyoung hnew hopen ht, ⟨?_, ?_, ?_, h.nonempty, ?_, ?_, ?_,
    h.origins_add hlt, by simpa using h.size, h.retained, h.table.trans htable,
    h.others_add fun i hi => RegionTable.region_joinGroup ht hi⟩⟩
  · simpa [groups] using congrArg (· ++ [c]) h.members
  · cases h.filled with
    | opening hnone hsize hle =>
      exact .opening hnone hsize (by rw [hlength]; omega)
    | later hgroups hhead hfull hsize hle =>
      exact .later hgroups hhead hfull hsize (by rw [hlength]; omega)
  · simp
  · simpa [groups] using h.distinct
  · intro g hg
    refine Nat.lt_of_lt_of_le ?_ htable.shared
    rcases List.mem_append.mp hg with hg | hg
    · exact h.known g (List.mem_append_left _ hg)
    · obtain rfl := List.mem_singleton.mp hg
      exact hknown
  · rw [hlength, List.length_append, ← h.count]
    rfl

theorem step_full (h : b.Splits s first done) (hroom : s.table.Roomy) (hfirst : 0 < first)
    (hindex : ∀ i, i < s.table.size → (s.table.region i).index = i) {cs rest : List Candidate}
    (hcs : s.Selectable cs) (hsplit : cs = done ++ c :: rest) (hfull : b.group.length = b.size) :
    ∃ b', b.add c = .ok b' ∧ b'.Splits s first (done ++ [c]) := by
  obtain ⟨-, hi, hindexed, hyoung, halone, hnew⟩ := h.next hindex hcs hsplit
  -- a full group is not empty, so that this is not the first candidate
  have hdone : done ≠ [] := by
    rintro rfl
    have hcount := h.count
    have hpos := h.filled.size_pos hfirst
    rw [List.length_nil] at hcount
    omega
  have hcreate := RegionTable.Rearranged.create b.table
  have hsets : (Group.create b.table).2.shared.sets.size = b.table.shared.sets.size + 1 := by
    simp [Group.create, RegionTable.newCards, SharedCards.create]
  have hid : (Group.create b.table).1.cards = b.table.shared.sets.size := rfl
  have hcards : (Group.create b.table).1.cards < (Group.create b.table).2.shared.sets.size := by
    omega
  obtain ⟨t, ht⟩ := RegionTable.joinGroup_of (hcreate.roomy (h.table.roomy hroom)) (i := c.region)
    hi hcards halone
  have htable := hcreate.trans (RegionTable.Rearranged.joinGroup ht)
  have hlt := (Array.getElem?_eq_some_iff.mp (Registry.contains_eq_false.mp hnew)).1
  have hshared : b.table.shared.sets.size < t.shared.sets.size := by
    have := (RegionTable.Rearranged.joinGroup ht).shared
    omega
  have hother : ∀ i, i ≠ c.region → t.region i = b.table.region i := fun i hi =>
    (RegionTable.region_joinGroup ht hi).trans rfl
  refine ⟨_, add_full hi hindexed hyoung hnew hfull (h.append hdone) ht, {
    members := ?members
    filled := h.filled.next hfull rfl rfl rfl
    started := by simp
    nonempty := fun g hg => ?nonempty
    distinct := ?distinct
    known := fun g hg => ?known
    count := ?count
    origins := h.origins_add hlt
    size := by simpa using h.size
    retained := h.retained
    table := h.table.trans htable
    others := h.others_add hother }⟩
  case members => simpa [groups] using congrArg (· ++ [c]) h.members
  case nonempty =>
    rcases List.mem_append.mp hg with hg | hg
    · exact h.nonempty g hg
    · exact List.mem_singleton.mp hg ▸ h.started hdone
  case distinct =>
    -- the card set of the new group is one that no group had
    have hnodup : ((b.groups.map Group.cards) ++ [b.table.shared.sets.size]).Nodup := by
      refine List.nodup_append.mpr ⟨h.distinct, by simp, fun k hk j hj he => ?_⟩
      obtain ⟨g, hg, rfl⟩ := List.mem_map.mp hk
      exact Nat.lt_irrefl _ (List.mem_singleton.mp hj ▸ he ▸ h.known g hg)
    simpa [groups, hid] using hnodup
  case known =>
    rcases List.mem_append.mp hg with hg | hg
    · exact Nat.lt_trans (h.known g hg) hshared
    · exact List.mem_singleton.mp hg ▸ hid ▸ hshared
  case count =>
    rw [List.length_append, ← h.count]
    rfl

/-- One more candidate keeps the groups in order. -/
theorem step (h : b.Splits s first done) (hfirst : 0 < first) (hroom : s.table.Roomy)
    (hindex : ∀ i, i < s.table.size → (s.table.region i).index = i) {cs rest : List Candidate}
    (hcs : s.Selectable cs) (hsplit : cs = done ++ c :: rest) :
    ∃ b', b.add c = .ok b' ∧ b'.Splits s first (done ++ [c]) := by
  by_cases hfull : b.group.length = b.size
  · exact h.step_full hroom hfirst hindex hcs hsplit hfull
  · exact h.step_open hroom hindex hcs hsplit hfull

end Splits

theorem splits_start (s : Selection) (first : Nat) (hverify : s.candidates.Verified)
    (hempty : s.candidates.marking.groups = []) :
    (⟨s.candidates, (Group.create s.table).2, (Group.create s.table).1, first⟩ : Building).Splits s
      first [] := by
  have hregions : s.candidates.marking.regions = [] := by simp [GroupList.regions, hempty]
  have hcount : s.candidates.marking.regionCount = 0 := by simp [hverify.count, hregions]
  refine ⟨?_, .opening hempty rfl (Nat.zero_le _), fun h => absurd rfl h, by simp [hempty], ?_, ?_,
    ?_, fun i => by simp, rfl, rfl, RegionTable.Rearranged.create s.table, fun i _ => rfl⟩
  · simp [groups, hempty, Group.create]
  · simp [groups, hempty]
  · simp [groups, hempty, Group.create, RegionTable.newCards, SharedCards.create]
  · rw [hcount]
    rfl

end Building

theorem flatMap_regions (gs : List Group) :
    gs.flatMap Group.regions = (gs.flatMap Group.members).map Candidate.region :=
  (List.map_flatMap ..).symm

/-- The registry that has all groups still passes its verification. -/
theorem Building.Splits.verified {b : Building} {first : Nat} {cs : List Candidate}
    (h : b.Splits s first cs) (hcs : s.Selectable cs) (hverify : s.candidates.Verified)
    (hempty : s.candidates.marking.groups = []) (n : Nat) :
    ({ b.registry with
      marking := ⟨b.groups, b.registry.marking.regionCount + b.group.length⟩
      lastMarking := n } : Registry).Verified := by
  have hmarking : b.groups.flatMap Group.regions = cs.map Candidate.region := by
    rw [flatMap_regions, h.members]
  -- a region that is retained is no candidate of the marking
  have hretained : ∀ i ∈ s.candidates.retained.regions, s.candidates.origins[i]? = some .retained :=
    hverify.origin .retained
  have hapart : ∀ i ∈ s.candidates.retained.regions, i ∉ cs.map Candidate.region := by
    intro i hi hm
    obtain ⟨c, hc, rfl⟩ := List.mem_map.mp hm
    have hnew := Registry.contains_eq_false.mp (hcs.new c hc)
    rw [hretained _ hi] at hnew
    contradiction
  have hold : s.candidates.regions = s.candidates.retained.regions := by
    simp [Registry.regions, GroupList.regions, hempty]
  have hregions : ({ b.registry with
      marking := ⟨b.groups, b.registry.marking.regionCount + b.group.length⟩
      lastMarking := n } : Registry).regions =
        cs.map Candidate.region ++ s.candidates.retained.regions := by
    rw [← hmarking, ← h.retained]
    rfl
  refine ⟨?_, fun o i hi => ?_, ?_, fun i hi hnot => ?_⟩
  · rw [hregions]
    refine List.nodup_append.mpr ⟨hcs.nodup, hold ▸ hverify.nodup, fun i hi j hj he => ?_⟩
    exact hapart j hj (he ▸ hi)
  · have horigin := h.origins i
    cases o with
    | invalid => cases hi
    | marking =>
      have hi : i ∈ b.groups.flatMap Group.regions := hi
      rw [hmarking] at hi
      rwa [if_pos hi] at horigin
    | retained =>
      have hi : i ∈ b.registry.retained.regions := hi
      rw [h.retained] at hi
      rw [if_neg (hapart i hi)] at horigin
      exact horigin.trans (hretained i hi)
  · have hlength : (b.groups.flatMap Group.regions).length = cs.length := by
      rw [hmarking, List.length_map]
    exact h.count.trans hlength.symm
  · rw [hregions, List.mem_append, not_or] at hnot
    have hlt : i < s.candidates.origins.size := h.size ▸ hi
    exact (h.origins i).trans ((if_neg hnot.1).trans (hverify.others i hlt (hold ▸ hnot.2)))

theorem Building.Splits.sizes {b : Building} {first : Nat} {cs : List Candidate}
    (h : b.Splits s first cs) (hne : cs ≠ []) : ∃ head rest, b.groups = head :: rest ∧
      head.length = min first cs.length ∧
      (∀ g ∈ rest.dropLast, g.length = Group.regularSize) ∧
      (∀ g ∈ rest.getLast?, 1 ≤ g.length ∧ g.length ≤ Group.regularSize) ∧
      ∀ g ∈ head :: rest, g.members ≠ [] := by
  have hstarted : 1 ≤ b.group.length := List.length_pos_iff.mpr (h.started hne)
  have hlength : GroupList.totalLength b.groups = cs.length := by
    rw [← GroupList.length_regions, flatMap_regions, h.members, List.length_map]
  have hall : ∀ g ∈ b.groups, g.members ≠ [] := fun g hg => by
    rcases List.mem_append.mp hg with hg | hg
    · exact h.nonempty g hg
    · exact List.mem_singleton.mp hg ▸ h.started hne
  cases h.filled with
  | opening hnone hsize hle =>
    have hgroups : b.groups = [b.group] := by simp [groups, hnone]
    have htotal : b.group.length = cs.length := by
      rw [← hlength, hgroups]
      rfl
    exact ⟨b.group, [], hgroups, by omega, by simp, by simp, hgroups ▸ hall⟩
  | @later head full hlist hhead hfull hsize hle =>
    have hgroups : b.groups = head :: (full ++ [b.group]) := by simp [groups, hlist]
    have htotal : head.length + GroupList.totalLength (full ++ [b.group]) = cs.length := by
      rw [← hlength, hgroups]
      rfl
    refine ⟨head, full ++ [b.group], hgroups, by omega, by simpa using hfull, fun g hg => ?_,
      hgroups ▸ hall⟩
    obtain rfl : b.group = g := by simpa using hg
    exact ⟨hstarted, hle⟩

/-- The candidates of a marking are split into groups in their order, whatever the policy. -/
theorem fromMarking_splits {cs : List Candidate} (hroom : s.table.Roomy)
    (hindex : ∀ i, i < s.table.size → (s.table.region i).index = i) (hne : cs ≠ [])
    (hcs : s.Selectable cs) (hverify : s.candidates.verify = .ok ())
    (hempty : s.candidates.marking.groups = []) :
    ∃ (s' : Selection) (head : Group) (rest : List Group), s.fromMarking cs = .ok s' ∧
      s'.candidates.marking.groups = head :: rest ∧
      (head :: rest).flatMap Group.members = cs ∧
      head.length = min (max 1 (s.policy.minOldRegions cs.length)) cs.length ∧
      (∀ g ∈ rest.dropLast, g.length = Group.regularSize) ∧
      (∀ g ∈ rest.getLast?, 1 ≤ g.length ∧ g.length ≤ Group.regularSize) ∧
      (∀ g ∈ head :: rest, g.members ≠ []) ∧
      (∀ i : Nat, s'.candidates.origins[i]? =
        if i ∈ cs.map Candidate.region then some .marking else s.candidates.origins[i]?) ∧
      s'.candidates.retained = s.candidates.retained ∧
      s'.candidates.lastMarking = cs.length := by
  obtain ⟨first, hfirst⟩ : ∃ first, max 1 (s.policy.minOldRegions cs.length) = first := ⟨_, rfl⟩
  have hverified := Registry.verify_eq_ok.mp hverify
  obtain ⟨b, hb, h⟩ := Checked.foldlM_split (Building.Splits s first)
    (fun done c rest b hsplit h => h.step (by omega) hroom hindex hcs hsplit) _
    (Building.splits_start s first hverified hempty)
  obtain ⟨head, rest, hgroups, hsizes⟩ := h.sizes hne
  have hcount : (b.registry.marking.regionCount + b.group.length == cs.length) = true := by
    simpa using h.count
  have hcreate : Group.create s.table = ((Group.create s.table).1, (Group.create s.table).2) := rfl
  have hnone : s.candidates.marking.isEmpty = true := by simp [GroupList.isEmpty, hempty]
  have hsize : max (s.policy.minOldRegions cs.length) 1 = first := (Nat.max_comm ..).trans hfirst
  refine ⟨{ s with
    table := b.table
    candidates := { b.registry with
      marking := ⟨b.groups, b.registry.marking.regionCount + b.group.length⟩
      lastMarking := cs.length } }, head, rest, ?_, hgroups, hgroups ▸ h.members,
    hfirst ▸ hsizes.1, hsizes.2.1, hsizes.2.2.1, hsizes.2.2.2, h.origins, h.retained, rfl⟩
  rw [fromMarking, if_neg (by simpa using hne), hcreate]
  simp only [hnone, Checked.unless_true, Checked.ok_bind, hverify, hsize, hb,
    h.append hne, hcount, Registry.verify_eq_ok.mpr (h.verified hcs hverified hempty cs.length),
    Checked.pure_eq]

/-- Twelve free regions, of which none is a candidate, and a policy that wants three at first. -/
def dozen : Checked Selection := do
  let config ← CardSet.configuration { period := 128, delay := 2 }
    { threads := 1, regionSize := 65536 }
  let table ← RegionTable.create (1 <<< 32) 12 65536 config
  let candidates ← ({} : Registry).allot 12
  return { table := table, candidates := candidates, policy := { minOldRegions := fun _ => 3 } }

/-- All of them, in another order. -/
def dozenCandidates : List Candidate :=
  (List.range 12).map fun i => { region := 5 * i % 12, efficiency := Float.ofNat (12 - i) }

theorem dozen_pristine : ∃ s, dozen = .ok s ∧ s.Pristine ∧ s.table.size = 12 ∧
    s.policy.minOldRegions 12 = 3 ∧ ∀ i, i < 12 → (s.table.region i).kind = .free := by
  have v : ({ threads := 1, regionSize := 65536 } : Options).Valid := by decide
  obtain ⟨config, hconfig, hfits, -⟩ := v.fits { period := 128, delay := 2 } (by decide)
  have hsome : dozen.toOption.isSome = true := by decide +kernel
  obtain ⟨s, hs⟩ := Option.isSome_iff_exists.mp hsome
  have hs := Checked.toOption_eq_some.mp hs
  refine ⟨s, hs, ?_⟩
  simp only [dozen, hconfig, Checked.ok_bind, Checked.bind_eq_ok, Checked.pure_eq,
    Except.ok.injEq] at hs
  obtain ⟨t, ht, c, hc, rfl⟩ := hs
  obtain ⟨hsize, -, -, hregions⟩ := RegionTable.create_eq_ok ht
  exact ⟨pristine_of_create ht hfits hc _, hsize, rfl, fun i hi => (hregions i hi).2.1⟩

theorem Pristine.selectable {cs : List Candidate} (h : s.Pristine)
    (hnodup : (cs.map Candidate.region).Nodup) (hwithin : ∀ c ∈ cs, c.region < s.table.size)
    (hyoung : ∀ c ∈ cs, (s.table.region c.region).kind.isYoung = false) : s.Selectable cs := by
  refine ⟨hnodup, hwithin, hyoung, fun c hc => h.alone _ (hwithin c hc), fun c hc => ?_⟩
  rw [Registry.contains_eq_false, allot_eq_ok h.registry]
  simp [Registry.initial, hwithin c hc]

/-- Twelve regions come into groups of three, five and four. -/
theorem dozen_splits : ∃ (s s' : Selection) (head : Group) (rest : List Group), dozen = .ok s ∧
    s.fromMarking dozenCandidates = .ok s' ∧ s'.candidates.marking.groups = head :: rest ∧
    (head :: rest).flatMap Group.members = dozenCandidates ∧ head.length = 3 ∧
    ∀ g ∈ rest.dropLast, g.length = 5 := by
  obtain ⟨s, hs, h, hsize, hpolicy, hfree⟩ := dozen_pristine
  have hinitial := allot_eq_ok h.registry
  have hwithin : ∀ c ∈ dozenCandidates, c.region < 12 := by
    intro c hc
    obtain ⟨i, -, rfl⟩ := List.mem_map.mp hc
    exact Nat.mod_lt _ (by decide)
  have hcs : s.Selectable dozenCandidates := by
    refine h.selectable ?_ (fun c hc => hsize ▸ hwithin c hc) fun c hc => ?_
    · rw [dozenCandidates, List.map_map]
      decide
    · rw [hfree _ (hwithin c hc)]
      rfl
  have hverify : s.candidates.verify = .ok () := by
    rw [hinitial]
    exact (Registry.Consistent.initial s.table.size).verify
  obtain ⟨s', head, rest, hrun, hgroups, hmembers, hhead, hfull, -⟩ := fromMarking_splits h.roomy
    h.index (by simp [dozenCandidates]) hcs hverify (by rw [hinitial]; rfl)
  refine ⟨s, s', head, rest, hs, hrun, hgroups, hmembers, hhead.trans ?_, hfull⟩
  have hlength : dozenCandidates.length = 12 := by simp [dozenCandidates]
  rw [hlength, hpolicy]
  rfl

end Selection

end RegionHeap
