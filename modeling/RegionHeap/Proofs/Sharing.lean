import RegionHeap.Proofs.Candidates
import RegionHeap.Proofs.Entries
import RegionHeap.Proofs.Fitting

/-!
Regions that share the card sets of groups. A region joins a group, and leaves it if the group is
abandoned; a group that is cleared keeps its regions.
-/
set_option autoImplicit false

namespace RegionHeap

namespace RegionTable

variable {t t' t'' : RegionTable} {i id : Nat}

/-- There is memory for the cards of every region and every group. -/
structure Roomy (t : RegionTable) : Prop where
  config : t.config.Fits
  own : ∀ i, i < t.size → (t.region i).remSet.own.Fits
  shared : ∀ id, id < t.shared.sets.size → (Table.entry t.shared.sets id).Fits

/-- Regions have joined groups or left them. A region that did has no cards of its own. -/
structure Rearranged (t t' : RegionTable) : Prop where
  size : t'.size = t.size
  memory : t'.memory = t.memory
  shared : t.shared.sets.size ≤ t'.shared.sets.size
  region : ∀ i, ∃ own group, t'.region i = { t.region i with
    remSet := { (t.region i).remSet with own := own, group := group } } ∧
      (own = (t.region i).remSet.own ∧ group = (t.region i).remSet.group ∨
        own.containers = [] ∧ own.occupied = 0)
  roomy : t.Roomy → t'.Roomy

namespace Rearranged

theorem refl (t : RegionTable) : t.Rearranged t :=
  ⟨rfl, rfl, Nat.le_refl _, fun _ => ⟨_, _, rfl, .inl ⟨rfl, rfl⟩⟩, fun h => h⟩

theorem trans (a : t.Rearranged t') (b : t'.Rearranged t'') : t.Rearranged t'' := by
  refine ⟨b.size.trans a.size, b.memory.trans a.memory, Nat.le_trans a.shared b.shared, fun i => ?_,
    fun h => b.roomy (a.roomy h)⟩
  obtain ⟨own, group, hr, hown⟩ := a.region i
  obtain ⟨own', group', hr', hown'⟩ := b.region i
  refine ⟨own', group', by rw [hr', hr], ?_⟩
  rw [hr] at hown'
  rcases hown' with ⟨rfl, rfl⟩ | hown'
  · exact hown
  · exact .inr hown'

theorem index (a : t.Rearranged t') (i : Nat) : (t'.region i).index = (t.region i).index := by
  obtain ⟨own, group, hr, -⟩ := a.region i
  rw [hr]

theorem kind (a : t.Rearranged t') (i : Nat) : (t'.region i).kind = (t.region i).kind := by
  obtain ⟨own, group, hr, -⟩ := a.region i
  rw [hr]

end Rearranged

theorem get_eq_ok {r : Region} (h : t.get i = .ok r) : i < t.size ∧ t.region i = r :=
  Table.entry_of_getElem? (Table.get_eq_ok.mp h)

theorem set_eq_ok {r : Region} (h : t.set i r = .ok t') : i < t.size ∧ t' = t.put i r := by
  have hi : i < t.size := by
    by_cases hi : i < t.regions.size
    · exact hi
    · simp [set, Table.set, hi] at h
  rw [set_of_lt hi] at h
  exact ⟨hi, (Except.ok.inj h).symm⟩

theorem update_eq_ok {f : Region → Checked Region} (h : t.update i f = .ok t') :
    i < t.size ∧ ∃ r, f (t.region i) = .ok r ∧ t' = t.put i r := by
  obtain ⟨r, hr, hchange⟩ := Checked.bind_eq_ok.mp h
  obtain ⟨r', hr', hset⟩ := Checked.bind_eq_ok.mp hchange
  obtain ⟨hi, rfl⟩ := get_eq_ok hr
  exact ⟨hi, r', hr', (set_eq_ok hset).2⟩

theorem lt_of_group (h : (t.region i).remSet.group = some id) : i < t.size := by
  by_cases hi : i < t.regions.size
  · exact hi
  · have hnone : t.region i = default := by
      simp [region, Table.entry, Array.getElem?_eq_none (Nat.not_lt.mp hi)]
    rw [hnone] at h
    contradiction

theorem cards_eq_ok {cards : CardSet} (h : t.cards id = .ok cards) :
    id < t.shared.sets.size ∧ Table.entry t.shared.sets id = cards :=
  Table.entry_of_getElem? (Table.get_eq_ok.mp h)

/-- A card set that is shared changes. -/
def putCards (t : RegionTable) (id : Nat) (cards : CardSet) (rounds : Rounds) : RegionTable :=
  { t with shared := ⟨t.shared.sets.setIfInBounds id cards, rounds⟩ }

theorem setCards_of_lt (h : id < t.shared.sets.size) (cards : CardSet) :
    t.setCards id cards = .ok (t.putCards id cards t.shared.rounds) := by
  simp [setCards, SharedCards.set, Table.set_of_lt h, putCards]

theorem Roomy.putCards (h : t.Roomy) {cards : CardSet} (hc : cards.Fits) (id : Nat)
    (rounds : Rounds) : (t.putCards id cards rounds).Roomy := by
  refine ⟨h.config, h.own, fun k hk => ?_⟩
  have hlt : k < t.shared.sets.size := by simpa [RegionTable.putCards] using hk
  by_cases hid : id = k
  · subst hid
    simpa [RegionTable.putCards, Table.entry_set_self hlt] using hc
  · simpa [RegionTable.putCards, Table.entry_set_of_ne _ hid] using h.shared k hlt

theorem Roomy.put (h : t.Roomy) {r : Region} (hr : r.remSet.own.Fits) (i : Nat) :
    (t.put i r).Roomy := by
  refine ⟨h.config, fun j hj => ?_, h.shared⟩
  rw [size_put] at hj
  by_cases hij : i = j
  · subst hij
    rwa [region_put_self hj]
  · rw [RegionTable.put, region, Table.entry_set_of_ne _ hij]
    exact h.own j hj

theorem Rearranged.putCards (t : RegionTable) {cards : CardSet} (hc : t.Roomy → cards.Fits)
    (id : Nat) (rounds : Rounds) : t.Rearranged (t.putCards id cards rounds) :=
  ⟨rfl, rfl, by simp [RegionTable.putCards], fun _ => ⟨_, _, rfl, .inl ⟨rfl, rfl⟩⟩,
    fun h => h.putCards (hc h) id rounds⟩

theorem Rearranged.put (hi : i < t.size) {own : CardSet} {group : Option Nat}
    (hown : own.containers = [] ∧ own.occupied = 0) (hf : t.Roomy → own.Fits) :
    t.Rearranged (t.put i { t.region i with
      remSet := { (t.region i).remSet with own := own, group := group } }) := by
  refine ⟨size_put _ _ _, rfl, Nat.le_refl _, fun j => ?_, fun h => h.put (hf h) i⟩
  rw [region_put hi]
  split
  · next e =>
    subst e
    exact ⟨own, group, rfl, .inr hown⟩
  · exact ⟨_, _, rfl, .inl ⟨rfl, rfl⟩⟩

theorem joinGroup_eq_ok (h : t.joinGroup i id = .ok t') : i < t.size ∧
    id < t.shared.sets.size ∧ (t.region i).remSet.group = none ∧ ∃ cards,
      ((Table.entry t.shared.sets id).withRounds t.shared.rounds).addAll
        (t.region i).remSet.own.cards = .ok cards ∧
      t' = (t.putCards id cards ((t.region i).remSet.own.withRounds cards.rounds).clear.rounds).put
        i { t.region i with remSet := { (t.region i).remSet with
          own := ((t.region i).remSet.own.withRounds cards.rounds).clear, group := some id } } := by
  simp only [joinGroup, RemSet.joinGroup, Checked.bind_eq_ok, Fault.unless_eq_ok, Checked.pure_eq,
    Except.ok.injEq] at h
  obtain ⟨r, hr, _, ⟨-, hnone, set, hset, cards, hcards, shared, hshared, rfl⟩, h⟩ := h
  obtain ⟨hi, rfl⟩ := get_eq_ok hr
  obtain ⟨hid, rfl⟩ := cards_eq_ok hset
  obtain rfl : (t.putCards id cards t.shared.rounds).shared = shared := by
    simp [SharedCards.set, Table.set_of_lt hid] at hshared
    exact hshared
  obtain ⟨-, rfl⟩ := set_eq_ok h
  exact ⟨hi, hid, by simpa using hnone, cards, hcards, rfl⟩

theorem Rearranged.joinGroup (h : t.joinGroup i id = .ok t') : t.Rearranged t' := by
  obtain ⟨hi, hid, -, cards, hcards, rfl⟩ := joinGroup_eq_ok h
  refine (Rearranged.putCards t (fun hr => ?_) id _).trans
    (Rearranged.put (t := t.putCards id cards _) hi ⟨rfl, rfl⟩ fun hr => ?_)
  · obtain ⟨cards', hcards', hf⟩ := ((hr.shared id hid).withRounds t.shared.rounds).addAll
      (t.region i).remSet.own.cards
    obtain rfl : cards = cards' := Except.ok.inj (hcards.symm.trans hcards')
    exact hf
  · exact ((hr.own i hi).withRounds cards.rounds).clear

theorem joinGroup_of (hr : t.Roomy) (hi : i < t.size) (hid : id < t.shared.sets.size)
    (hg : (t.region i).remSet.group = none) : ∃ t', t.joinGroup i id = .ok t' := by
  obtain ⟨cards, hcards, -⟩ := ((hr.shared id hid).withRounds t.shared.rounds).addAll
    (t.region i).remSet.own.cards
  have hset : t.shared.get id = .ok (Table.entry t.shared.sets id) := Table.get_of_lt hid
  obtain ⟨own, hown⟩ : ∃ own, ((t.region i).remSet.own.withRounds cards.rounds).clear = own :=
    ⟨_, rfl⟩
  refine ⟨(t.putCards id cards own.rounds).put i { t.region i with
    remSet := { (t.region i).remSet with own := own, group := some id } }, ?_⟩
  simp only [RegionTable.joinGroup, get_of_lt hi, Checked.ok_bind, RemSet.joinGroup, hg,
    Option.isNone_none, Checked.unless_true, hset, hcards, hown, SharedCards.set,
    Table.set_of_lt hid, Checked.pure_eq]
  exact set_of_lt (t := t.putCards id cards own.rounds) hi _

/-- A region that is in a group is not let into another. -/
theorem joinGroup_second (hi : i < t.size) (hg : (t.region i).remSet.group ≠ none) :
    t.joinGroup i id = .error .secondGroup := by
  have hsome : (t.region i).remSet.group.isNone = false := by
    simpa using Option.isSome_iff_ne_none.mpr hg
  simp only [RegionTable.joinGroup, get_of_lt hi, Checked.ok_bind, RemSet.joinGroup, hsome]
  rfl

theorem release_eq_ok (h : Group.release t i = .ok t') : i < t.size ∧
    t' = t.put i { t.region i with remSet := { (t.region i).remSet with
      own := (t.region i).remSet.own.clear, group := none } } := by
  obtain ⟨hi, r, hr, rfl⟩ := update_eq_ok h
  obtain rfl := Except.ok.inj hr
  exact ⟨hi, rfl⟩

theorem Rearranged.release (h : Group.release t i = .ok t') : t.Rearranged t' := by
  obtain ⟨hi, rfl⟩ := release_eq_ok h
  exact Rearranged.put hi ⟨rfl, rfl⟩ fun hr => (hr.own i hi).clear

theorem clear_eq_ok {g g' : Group} (h : g.clear t = .ok (g', t')) :
    g.cards < t.shared.sets.size ∧ t' = t.putCards g.cards
      (Table.entry t.shared.sets g.cards).clear t.shared.rounds := by
  simp only [Group.clear, Checked.bind_eq_ok, Checked.pure_eq, Except.ok.injEq,
    Prod.mk.injEq] at h
  obtain ⟨cards, hcards, t₁, hset, -, rfl⟩ := h
  obtain ⟨hid, rfl⟩ := cards_eq_ok hcards
  rw [setCards_of_lt hid] at hset
  exact ⟨hid, (Except.ok.inj hset).symm⟩

theorem Rearranged.clear {g g' : Group} (h : g.clear t = .ok (g', t')) : t.Rearranged t' := by
  obtain ⟨hid, rfl⟩ := clear_eq_ok h
  exact Rearranged.putCards t (fun hr => (hr.shared _ hid).clear) _ _

theorem Rearranged.create (t : RegionTable) : t.Rearranged (Group.create t).2 := by
  refine ⟨rfl, rfl, ?_, fun _ => ⟨_, _, rfl, .inl ⟨rfl, rfl⟩⟩,
    fun h => ⟨h.config, h.own, fun id hid => ?_⟩⟩
  · simp [Group.create, newCards, SharedCards.create]
  · simp only [Group.create, newCards, SharedCards.create, Array.size_push] at hid ⊢
    by_cases hlt : id < t.shared.sets.size
    · simpa [Table.entry, Array.getElem?_push, Nat.ne_of_lt hlt] using h.shared id hlt
    · obtain rfl : id = t.shared.sets.size := by omega
      simpa [Table.entry] using CardSet.fits_create h.config

theorem create_eq_ok {start count bytes : Nat} {config : CardConfig}
    (h : create start count bytes config = .ok t) :
    t.size = count ∧ t.config = config ∧ t.shared.sets = #[] ∧ ∀ i, i < count →
      (t.region i).index = i ∧ (t.region i).kind = .free ∧
        (t.region i).remSet = .create config := by
  simp only [create, Checked.bind_eq_ok, Checked.pure_eq, Except.ok.injEq] at h
  obtain ⟨rs, hrs, rfl⟩ := h
  obtain ⟨hlen, hall⟩ := Checked.mapM_eq_ok hrs
  refine ⟨by simpa [size] using hlen, rfl, rfl, fun i hi => ?_⟩
  obtain ⟨r, hr, hcreate⟩ := hall i i (by simp [hi])
  have hentry : Table.entry rs.toArray i = r :=
    (Table.entry_of_getElem? (by simpa using hr)).2
  simp only [Region.create, Checked.bind_eq_ok, Checked.pure_eq, Except.ok.injEq] at hcreate
  obtain ⟨limit, -, blocks, -, rfl⟩ := hcreate
  simp only [RegionTable.region, hentry]
  exact ⟨trivial, trivial, trivial⟩

theorem roomy_create {start count bytes : Nat} {config : CardConfig}
    (h : create start count bytes config = .ok t) (hf : config.Fits) : t.Roomy := by
  obtain ⟨hsize, hconfig, hshared, hregions⟩ := create_eq_ok h
  refine ⟨hconfig ▸ hf, fun i hi => ?_, fun id hid => ?_⟩
  · rw [(hregions i (hsize ▸ hi)).2.2]
    exact CardSet.fits_create hf
  · rw [hshared] at hid
    cases hid

/-- Every region shares the card set of the group that it is in, and of no other. -/
structure Attached (t : RegionTable) (gs : List Group) : Prop where
  nodup : (gs.flatMap Group.regions).Nodup
  distinct : (gs.map Group.cards).Nodup
  known : ∀ g ∈ gs, g.cards < t.shared.sets.size
  within : ∀ g ∈ gs, ∀ i ∈ g.regions, i < t.size
  shares : ∀ i, i < t.size → ∀ id,
    (t.region i).remSet.group = some id ↔ ∃ g ∈ gs, g.cards = id ∧ i ∈ g.regions

namespace Attached

variable {gs gs' : List Group} {g g' : Group}

/-- A region shares a set exactly if it is in some group. -/
theorem grouped (h : t.Attached gs) (hi : i < t.size) :
    (t.region i).remSet.group ≠ none ↔ i ∈ gs.flatMap Group.regions := by
  rw [Option.ne_none_iff_exists', List.mem_flatMap]
  constructor
  · rintro ⟨id, hid⟩
    obtain ⟨g, hg, -, hig⟩ := (h.shares i hi id).mp hid
    exact ⟨g, hg, hig⟩
  · rintro ⟨g, hg, hig⟩
    exact ⟨g.cards, (h.shares i hi g.cards).mpr ⟨g, hg, rfl, hig⟩⟩

/-- Only which regions a group has, and the number of its card set, matter. -/
theorem of_content (h : t.Attached gs)
    (hp : (gs'.map Group.content).Perm (gs.map Group.content)) : t.Attached gs' := by
  have hregions : ∀ ks : List Group, ks.flatMap Group.regions =
      (ks.map Group.content).flatMap fun c => c.2.map Candidate.region := fun ks => by
    rw [List.flatMap_map]
    rfl
  have hcards : ∀ ks : List Group, ks.map Group.cards = (ks.map Group.content).map Prod.fst :=
    fun ks => by
      rw [List.map_map]
      rfl
  have hmem : ∀ k ∈ gs', ∃ l ∈ gs, l.content = k.content := fun k hk =>
    List.mem_map.mp (hp.mem_iff.mp (List.mem_map_of_mem hk))
  have hmem' : ∀ k ∈ gs, ∃ l ∈ gs', l.content = k.content := fun k hk =>
    List.mem_map.mp (hp.mem_iff.mpr (List.mem_map_of_mem hk))
  have hparts : ∀ {k l : Group}, l.content = k.content →
      l.cards = k.cards ∧ l.regions = k.regions := fun hk =>
    ⟨congrArg Prod.fst hk, congrArg (fun c => c.2.map Candidate.region) hk⟩
  refine ⟨?_, ?_, fun k hk => ?_, fun k hk i hi => ?_, fun i hi id => (h.shares i hi id).trans ?_⟩
  · rw [hregions, (hp.flatMap_right _).nodup_iff, ← hregions]
    exact h.nodup
  · rw [hcards, (hp.map _).nodup_iff, ← hcards]
    exact h.distinct
  · obtain ⟨l, hl, hkl⟩ := hmem k hk
    exact (hparts hkl).1 ▸ h.known l hl
  · obtain ⟨l, hl, hkl⟩ := hmem k hk
    exact h.within l hl i ((hparts hkl).2 ▸ hi)
  · constructor
    · rintro ⟨k, hk, hid, hik⟩
      obtain ⟨l, hl, hkl⟩ := hmem' k hk
      exact ⟨l, hl, (hparts hkl).1.trans hid, (hparts hkl).2 ▸ hik⟩
    · rintro ⟨k, hk, hid, hik⟩
      obtain ⟨l, hl, hkl⟩ := hmem k hk
      exact ⟨l, hl, (hparts hkl).1.trans hid, (hparts hkl).2 ▸ hik⟩

theorem perm (h : t.Attached gs) (hp : gs'.Perm gs) : t.Attached gs' := h.of_content (hp.map _)

theorem frame (h : t.Attached gs) (hsize : t'.size = t.size)
    (hshared : t.shared.sets.size ≤ t'.shared.sets.size)
    (hg : ∀ i, i < t.size → (t'.region i).remSet.group = (t.region i).remSet.group) :
    t'.Attached gs := by
  refine ⟨h.nodup, h.distinct, fun k hk => Nat.lt_of_lt_of_le (h.known k hk) hshared,
    fun k hk i hi => ?_, fun i hi id => ?_⟩
  · rw [hsize]
    exact h.within k hk i hi
  · rw [hsize] at hi
    rw [hg i hi]
    exact h.shares i hi id

theorem create (h : t.Attached gs) : (Group.create t).2.Attached ((Group.create t).1 :: gs) := by
  have hframe : (Group.create t).2.Attached gs :=
    h.frame rfl (Rearranged.create t).shared fun _ _ => rfl
  refine ⟨h.nodup, List.nodup_cons.mpr ⟨fun hm => ?_, h.distinct⟩, fun k hk => ?_,
    fun k hk i hi => ?_, fun i hi id => ?_⟩
  · obtain ⟨k, hk, hcards⟩ := List.mem_map.mp hm
    exact Nat.lt_irrefl _ (hcards ▸ h.known k hk)
  · rcases List.mem_cons.mp hk with rfl | hk
    · simp [Group.create, newCards, SharedCards.create]
    · exact hframe.known k hk
  · rcases List.mem_cons.mp hk with rfl | hk
    · cases hi
    · exact hframe.within k hk i hi
  · rw [hframe.shares i hi id]
    constructor
    · rintro ⟨k, hk, hid⟩
      exact ⟨k, List.mem_cons_of_mem _ hk, hid⟩
    · rintro ⟨k, hk, hid, hik⟩
      rcases List.mem_cons.mp hk with rfl | hk
      · cases hik
      · exact ⟨k, hk, hid, hik⟩

theorem joinGroup {c : Candidate} (h : t.Attached (g :: gs)) (hc : c.region = i)
    (hj : t.joinGroup i g.cards = .ok t') :
    t'.Attached ({ g with members := g.members ++ [c] } :: gs) := by
  have a := Rearranged.joinGroup hj
  obtain ⟨hi, hid, hnone, cards, -, rfl⟩ := joinGroup_eq_ok hj
  have hnew : i ∉ (g :: gs).flatMap Group.regions := mt (h.grouped hi).mpr (by simp [hnone])
  have hregions : ({ g with members := g.members ++ [c] } : Group).regions = g.regions ++ [i] := by
    simp [Group.regions, hc]
  refine ⟨?_, h.distinct, fun k hk => ?_, fun k hk j hj => ?_, fun j hj id => ?_⟩
  · rw [List.flatMap_cons, hregions, List.append_assoc]
    exact List.perm_middle.nodup_iff.mpr (List.nodup_cons.mpr ⟨hnew, h.nodup⟩)
  · refine Nat.lt_of_lt_of_le ?_ a.shared
    rcases List.mem_cons.mp hk with rfl | hk
    · exact h.known g (List.mem_cons_self ..)
    · exact h.known k (List.mem_cons_of_mem _ hk)
  · rw [a.size]
    rcases List.mem_cons.mp hk with rfl | hk
    · rw [hregions, List.mem_append, List.mem_singleton] at hj
      rcases hj with hj | rfl
      · exact h.within g (List.mem_cons_self ..) j hj
      · exact hi
    · exact h.within k (List.mem_cons_of_mem _ hk) j hj
  · rw [a.size] at hj
    rw [region_put (t := t.putCards ..) hi]
    have hold := h.shares j hj id
    simp only [List.mem_cons, exists_eq_or_imp] at hold ⊢
    rw [hregions, List.mem_append, List.mem_singleton]
    split
    · next e =>
      -- the region that joins was in no group, so that it shares the set of the first only
      subst e
      have hne : ∀ k ∈ g :: gs, i ∉ k.regions := fun k hk hik =>
        hnew (List.mem_flatMap.mpr ⟨k, hk, hik⟩)
      have hrest : ¬∃ k ∈ gs, k.cards = id ∧ i ∈ k.regions := by
        rintro ⟨k, hk, -, hik⟩
        exact hne k (List.mem_cons_of_mem _ hk) hik
      simp [hrest]
    · next e =>
      simp only [Ne.symm e, or_false]
      exact hold

theorem releaseAll_eq_ok {rs : List Nat} (h : rs.foldlM Group.release t = .ok t') :
    t.Rearranged t' ∧ t'.shared = t.shared ∧ ∀ j, j < t.size → (t'.region j).remSet.group =
      if j ∈ rs then none else (t.region j).remSet.group := by
  induction rs generalizing t with
  | nil =>
    obtain rfl : t = t' := Except.ok.inj h
    exact ⟨.refl t, rfl, fun j _ => by simp⟩
  | cons i rs ih =>
    rw [List.foldlM_cons] at h
    obtain ⟨t₁, h₁, hrest⟩ := Checked.bind_eq_ok.mp h
    have a := Rearranged.release h₁
    obtain ⟨b, hshared, hgroup⟩ := ih hrest
    obtain ⟨hi, rfl⟩ := release_eq_ok h₁
    refine ⟨a.trans b, hshared, fun j hj => ?_⟩
    rw [hgroup j (a.size ▸ hj), region_put hi]
    by_cases hjr : j ∈ rs
    · simp [hjr]
    · by_cases hij : i = j
      · simp [hij]
      · simp [hjr, hij, Ne.symm hij]

theorem abandon {g' : Group} (h : t.Attached (g :: gs)) (ha : g.abandon t = .ok (g', t')) :
    t.Rearranged t' ∧ t'.Attached gs := by
  obtain ⟨t₁, h₁, hclear⟩ := Checked.bind_eq_ok.mp ha
  obtain ⟨a, -, hgroup⟩ := releaseAll_eq_ok h₁
  have b := Rearranged.clear hclear
  obtain ⟨-, rfl⟩ := clear_eq_ok hclear
  have hapart := (List.nodup_append.mp (List.flatMap_cons ▸ h.nodup)).2
  refine ⟨a.trans b, hapart.1, (List.nodup_cons.mp h.distinct).2, fun k hk => ?_, fun k hk i hi => ?_,
    fun i hi id => ?_⟩
  · exact Nat.lt_of_lt_of_le (h.known k (List.mem_cons_of_mem _ hk)) (a.trans b).shared
  · rw [(a.trans b).size]
    exact h.within k (List.mem_cons_of_mem _ hk) i hi
  · rw [(a.trans b).size] at hi
    have hold := h.shares i hi id
    simp only [List.mem_cons, exists_eq_or_imp] at hold
    refine (iff_of_eq (congrArg (· = some id) (hgroup i hi))).trans ?_
    split
    · next hig =>
      refine iff_of_false (by simp) ?_
      rintro ⟨k, hk, -, hik⟩
      exact hapart.2 i hig i (List.mem_flatMap.mpr ⟨k, hk, hik⟩) rfl
    · next hig => simpa [hig] using hold

theorem abandonList {l l' : GroupList} (h : t.Attached (l.groups ++ gs))
    (ha : l.abandon t = .ok (l', t')) : t.Rearranged t' ∧ t'.Attached gs := by
  have hfold : ∀ (ks : List Group) (t : RegionTable), t.Attached (ks ++ gs) →
      ks.foldlM (fun t g => do return (← Group.abandon g t).2) t = .ok t' →
        t.Rearranged t' ∧ t'.Attached gs := by
    intro ks
    induction ks with
    | nil =>
      intro t h hrun
      obtain rfl : t = t' := Except.ok.inj hrun
      exact ⟨.refl t, h⟩
    | cons k ks ih =>
      intro t h hrun
      rw [List.foldlM_cons] at hrun
      obtain ⟨t₁, h₁, hrest⟩ := Checked.bind_eq_ok.mp hrun
      obtain ⟨p, hp, h₁⟩ := Checked.bind_eq_ok.mp h₁
      cases h₁
      obtain ⟨a, h'⟩ := h.abandon hp
      obtain ⟨b, h''⟩ := ih _ h' hrest
      exact ⟨a.trans b, h''⟩
  obtain ⟨t₁, h₁, h₂⟩ := Checked.bind_eq_ok.mp ha
  cases h₂
  exact hfold _ _ h h₁

theorem clearAll {ks : List Group} (h : t.Attached gs)
    (hc : ks.foldlM (fun t g => do return (← Group.clear g t).2) t = .ok t') :
    t.Rearranged t' ∧ t'.Attached gs := by
  induction ks generalizing t with
  | nil =>
    obtain rfl : t = t' := Except.ok.inj hc
    exact ⟨.refl t, h⟩
  | cons k ks ih =>
    rw [List.foldlM_cons] at hc
    obtain ⟨t₁, h₁, hrest⟩ := Checked.bind_eq_ok.mp hc
    obtain ⟨p, hp, h₁⟩ := Checked.bind_eq_ok.mp h₁
    cases h₁
    have a := Rearranged.clear hp
    have hgroup : ∀ i, i < t.size → (p.2.region i).remSet.group = (t.region i).remSet.group :=
      fun i _ => by
        obtain ⟨-, hp⟩ := clear_eq_ok hp
        rw [hp]
        rfl
    obtain ⟨b, h'⟩ := ih (h.frame a.size a.shared hgroup) hrest
    exact ⟨a.trans b, h'⟩

end Attached

end RegionTable

end RegionHeap
