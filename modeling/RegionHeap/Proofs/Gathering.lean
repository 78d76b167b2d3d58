import RegionHeap.Proofs.Grouping
import RegionHeap.Proofs.Recording

/-!
What a group remembers. The card set of a new group gathers the cards of its regions, of which none
is lost, and what is recorded later through one of the regions is found through all of them.
-/
set_option autoImplicit false

namespace RegionHeap

namespace CardSet.Represents

variable {s s' : CardSet} {xs : List Nat}

theorem addAll {cards : List Nat} (h : s.Represents xs) (ha : s.addAll cards = .ok s') :
    ∃ ys, s'.Represents ys ∧ ∀ x, x ∈ ys ↔ x ∈ xs ∨ x ∈ cards := by
  induction cards generalizing s xs with
  | nil =>
    obtain rfl : s = s' := Except.ok.inj ha
    exact ⟨xs, h, by simp⟩
  | cons card cards ih =>
    rw [CardSet.addAll, List.foldlM_cons] at ha
    obtain ⟨s₁, hfirst, hrest⟩ := Checked.bind_eq_ok.mp ha
    obtain ⟨⟨new, s₂⟩, hadd, h₁⟩ := Checked.bind_eq_ok.mp hfirst
    obtain rfl : s₂ = s₁ := Except.ok.inj h₁
    obtain ⟨ys, hys, hmem⟩ := ih (h.add hadd) hrest
    refine ⟨ys, hys, fun x => ?_⟩
    rw [hmem, List.mem_cons, ← or_assoc]
    split
    · next hc =>
      exact or_congr_left ⟨.inl, fun hx => hx.elim id fun he => he ▸ hc⟩
    · rw [List.mem_append, List.mem_singleton]

end CardSet.Represents

namespace RegionTable

variable {t₀ t t' : RegionTable} {gs : List Group} {g : Group}

/-- The cards that some regions remember on their own. -/
def remembered (t : RegionTable) (regions : List Nat) : Finset Nat :=
  (regions.flatMap fun i => (t.region i).remSet.own.cards).toFinset

theorem mem_remembered {regions : List Nat} {x : Nat} : x ∈ t.remembered regions ↔
    ∃ i ∈ regions, x ∈ (t.region i).remSet.own.cards := by
  rw [remembered, List.mem_toFinset, List.mem_flatMap]

/-- New groups have gathered the cards of their regions, with nothing else changed. -/
structure Gathered (t₀ t : RegionTable) (gs : List Group) : Prop where
  table : t₀.Rearranged t
  distinct : (gs.map Group.cards).Nodup
  fresh : ∀ g ∈ gs, t₀.shared.sets.size ≤ g.cards ∧ g.cards < t.shared.sets.size
  older : ∀ id, id < t₀.shared.sets.size →
    Table.entry t.shared.sets id = Table.entry t₀.shared.sets id
  cards : ∀ g ∈ gs, ∃ xs, (Table.entry t.shared.sets g.cards).Represents xs ∧
    xs.toFinset = t₀.remembered g.regions
  members : ∀ g ∈ gs, ∀ i ∈ g.regions, i < t.size ∧ (t₀.region i).remSet.group = none ∧
    (t.region i).remSet.group = some g.cards ∧ (t.region i).remSet.own.Represents []
  others : ∀ i, i ∉ gs.flatMap Group.regions → t.region i = t₀.region i

namespace Gathered

variable {i : Nat}

theorem refl (t : RegionTable) : t.Gathered t [] :=
  ⟨.refl t, .nil, by simp, fun _ _ => rfl, by simp, by simp, fun _ _ => rfl⟩

theorem create (h : t₀.Gathered t gs) :
    t₀.Gathered (Group.create t).2 (gs ++ [(Group.create t).1]) := by
  have hsets : (Group.create t).2.shared.sets = t.shared.sets.push (.create t.config) := rfl
  have hold : ∀ id, id < t.shared.sets.size →
      Table.entry (Group.create t).2.shared.sets id = Table.entry t.shared.sets id := by
    intro id hid
    rw [hsets, Table.entry, Array.getElem?_push, if_neg (Nat.ne_of_lt hid)]
    rfl
  have hnew : Table.entry (Group.create t).2.shared.sets t.shared.sets.size = .create t.config := by
    rw [hsets, Table.entry, Array.getElem?_push, if_pos rfl]
    rfl
  refine {
    table := h.table.trans (.create t)
    distinct := ?distinct
    fresh := fun g hg => ?fresh
    older := fun id hid => ?older
    cards := fun g hg => ?cards
    members := fun g hg i hi => ?members
    others := fun i hi => h.others i (by simpa [Group.create, Group.regions] using hi) }
  case distinct =>
    rw [List.map_append]
    refine List.nodup_append.mpr ⟨h.distinct, by simp, fun k hk j hj he => ?_⟩
    obtain ⟨g, hg, rfl⟩ := List.mem_map.mp hk
    obtain rfl : j = t.shared.sets.size := List.mem_singleton.mp hj
    exact Nat.lt_irrefl _ (he ▸ (h.fresh g hg).2)
  case fresh =>
    rw [hsets, Array.size_push]
    rcases List.mem_append.mp hg with hg | hg
    · exact ⟨(h.fresh g hg).1, Nat.lt_succ_of_lt (h.fresh g hg).2⟩
    · obtain rfl := List.mem_singleton.mp hg
      exact ⟨h.table.shared, Nat.lt_succ_self _⟩
  case older =>
    rw [hold id (Nat.lt_of_lt_of_le hid h.table.shared), h.older id hid]
  case cards =>
    rcases List.mem_append.mp hg with hg | hg
    · rw [hold _ (h.fresh g hg).2]
      exact h.cards g hg
    · obtain rfl := List.mem_singleton.mp hg
      exact ⟨[], hnew ▸ .create t.config, rfl⟩
  case members =>
    rcases List.mem_append.mp hg with hg | hg
    · exact h.members g hg i hi
    · obtain rfl := List.mem_singleton.mp hg
      cases hi

theorem not_mem (h : t₀.Gathered t gs) (hi : (t.region i).remSet.group = none) :
    i ∉ gs.flatMap Group.regions := fun hm => by
  obtain ⟨g, hg, hig⟩ := List.mem_flatMap.mp hm
  have hgroup := (h.members g hg i hig).2.2.1
  rw [hi] at hgroup
  contradiction

theorem mem_before_join {c : Candidate} {k : Group}
    (hk : k ∈ gs ++ [{ g with members := g.members ++ [c] }]) : ∃ k' ∈ gs ++ [g],
      k'.cards = k.cards ∧ ∀ i ∈ k.regions, c.region ≠ i → i ∈ k'.regions := by
  rcases List.mem_append.mp hk with hk | hk
  · exact ⟨k, List.mem_append_left _ hk, rfl, fun _ hi _ => hi⟩
  · obtain rfl := List.mem_singleton.mp hk
    refine ⟨g, by simp, rfl, fun i hi hne => ?_⟩
    simp only [Group.regions, List.map_append, List.mem_append, List.map_cons, List.map_nil,
      List.mem_singleton] at hi
    exact hi.resolve_right (Ne.symm hne)

/-- A region joins the last of the groups, which gathers its cards. -/
theorem join {c : Candidate} (h : t₀.Gathered t (gs ++ [g]))
    (hj : t.joinGroup c.region g.cards = .ok t') :
    t₀.Gathered t' (gs ++ [{ g with members := g.members ++ [c] }]) := by
  have htable := h.table.trans (.joinGroup hj)
  obtain ⟨hi, hid, hnone, cards, hadd, rfl⟩ := joinGroup_eq_ok hj
  have hnew := h.not_mem hnone
  have hregion : t.region c.region = t₀.region c.region := h.others _ hnew
  have hregions : ({ g with members := g.members ++ [c] } : Group).regions =
      g.regions ++ [c.region] := by simp [Group.regions]
  obtain ⟨xs, hxs, hcards⟩ := h.cards g (by simp)
  obtain ⟨ys, hys, hmem⟩ := (hxs.withRounds t.shared.rounds).addAll hadd
  have hdistinct : (gs.map Group.cards ++ [g.cards]).Nodup := by simpa using h.distinct
  have hother : ∀ k ∈ gs, g.cards ≠ k.cards := fun k hk he =>
    (List.nodup_append.mp hdistinct).2.2 _ (List.mem_map_of_mem hk) _ (List.mem_singleton.mpr rfl)
      he.symm
  have holder : ∀ id, id < t₀.shared.sets.size → g.cards ≠ id := fun id hlt he =>
    Nat.not_lt.mpr (h.fresh g (by simp)).1 (he ▸ hlt)
  refine {
    table := htable
    distinct := by simpa using h.distinct
    fresh := fun k hk => ?fresh
    older := fun id hlt => (Table.entry_set_of_ne _ (holder id hlt) _).trans (h.older id hlt)
    cards := fun k hk => ?cards
    members := fun k hk i hik => ?members
    others := fun i hni => ?others }
  case fresh =>
    obtain ⟨k', hk', he, -⟩ := mem_before_join hk
    simpa [putCards, he] using h.fresh k' hk'
  case cards =>
    rcases List.mem_append.mp hk with hk | hk
    · obtain ⟨zs, hzs, hz⟩ := h.cards k (List.mem_append_left _ hk)
      exact ⟨zs, (Table.entry_set_of_ne t.shared.sets (hother k hk) cards).symm ▸ hzs, hz⟩
    · obtain rfl := List.mem_singleton.mp hk
      refine ⟨ys, (Table.entry_set_self hid cards).symm ▸ hys, Finset.ext fun x => ?_⟩
      rw [hregions, List.mem_toFinset, hmem, ← List.mem_toFinset, hcards, mem_remembered,
        mem_remembered, hregion]
      simp [or_and_right, exists_or]
  case members =>
    -- the region itself is a member of the last group only, as it was in none before
    by_cases he : c.region = i
    · subst he
      have hlast : k = { g with members := g.members ++ [c] } := by
        rcases List.mem_append.mp hk with hk | hk
        · exact absurd (List.mem_flatMap.mpr ⟨k, List.mem_append_left _ hk, hik⟩) hnew
        · exact List.mem_singleton.mp hk
      have hput := region_put_self (t := t.putCards g.cards cards
        ((t.region c.region).remSet.own.withRounds cards.rounds).clear.rounds) hi
      rw [hput, hlast]
      exact ⟨(size_put (t.putCards ..) _ _).symm ▸ hi, hregion ▸ hnone, rfl, .clear _⟩
    · obtain ⟨k', hk', he', hmember⟩ := mem_before_join hk
      rw [region_put (t := t.putCards ..) hi, if_neg he, size_put, ← he']
      exact h.members k' hk' i (hmember i hik he)
  case others =>
    have hni' : i ∉ (gs ++ [g]).flatMap Group.regions ∧ c.region ≠ i := by
      simp only [List.flatMap_append, List.flatMap_cons, List.flatMap_nil, hregions,
        List.append_nil, List.mem_append, List.mem_singleton, not_or] at hni ⊢
      exact ⟨⟨hni.1, hni.2.1⟩, Ne.symm hni.2.2⟩
    rw [region_put (t := t.putCards ..) hi, if_neg hni'.2]
    exact h.others i hni'.1

theorem shares_iff (h : t₀.Gathered t gs) (hr : t₀.Remembers) (hg : g ∈ gs) :
    (t.region i).remSet.group = some g.cards ↔ i ∈ g.regions := by
  refine ⟨fun hi => ?_, fun hi => (h.members g hg i hi).2.2.1⟩
  by_cases hm : i ∈ gs.flatMap Group.regions
  · obtain ⟨k, hk, hik⟩ := List.mem_flatMap.mp hm
    have hcards : k.cards = g.cards := Option.some.inj ((h.members k hk i hik).2.2.1.symm.trans hi)
    exact List.inj_on_of_nodup_map h.distinct hk hg hcards ▸ hik
  · rw [h.others i hm] at hi
    exact absurd (hr.known i _ hi) (Nat.not_lt.mpr (h.fresh g hg).1)

theorem known (h : t₀.Gathered t gs) (hr : t₀.Remembers) (j id : Nat)
    (hj : (t.region j).remSet.group = some id) : id < t.shared.sets.size := by
  by_cases hm : j ∈ gs.flatMap Group.regions
  · obtain ⟨k, hk, hjk⟩ := List.mem_flatMap.mp hm
    exact Option.some.inj ((h.members k hk j hjk).2.2.1.symm.trans hj) ▸ (h.fresh k hk).2
  · rw [h.others j hm] at hj
    exact Nat.lt_of_lt_of_le (hr.known j id hj) h.table.shared

theorem set_eq (h : t₀.Gathered t gs) (hg : g ∈ gs) : ∃ cards, t.cards g.cards = .ok cards ∧
    cards.cards.Nodup ∧ cards.cards.toFinset = t₀.remembered g.regions ∧
      cards.occupied = (t₀.remembered g.regions).card := by
  obtain ⟨xs, hxs, hmem⟩ := h.cards g hg
  refine ⟨_, Table.get_of_lt (h.fresh g hg).2, hxs.cards_perm.nodup_iff.mpr hxs.nodup, ?_, ?_⟩
  · rw [← hmem]
    exact List.toFinset_eq_of_perm _ _ hxs.cards_perm
  · rw [← hmem, hxs.occupied, List.toFinset_card_of_nodup hxs.nodup]

theorem contains (h : t₀.Gathered t gs) (hr : t₀.Remembers) (hg : g ∈ gs) (hi : i ∈ g.regions)
    {refs : List (Nat × Nat)} (ha : t.addReferences refs = .ok t') (slot : Nat) :
    (t'.region i).remSet.contains t'.shared slot =
      .ok (decide (Address.card slot ∈ t₀.remembered g.regions ∨
        ∃ r ∈ refs, r.1 ∈ g.regions ∧ Address.card r.2 = Address.card slot)) := by
  obtain ⟨xs, hxs, hmem⟩ := h.cards g hg
  obtain ⟨hsize, hgroup, ys, hys, hmem'⟩ := addReferences_set ha hxs
  have hshares : (t'.region i).remSet.group = some g.cards :=
    (hgroup i).trans (h.members g hg i hi).2.2.1
  rw [contains_of_shared hshares (hsize ▸ (h.fresh g hg).2) hys]
  refine congrArg Except.ok (decide_eq_decide.mpr ?_)
  rw [hmem', ← hmem, List.mem_toFinset]
  simp only [h.shares_iff hr hg]

/-- A region that remembered a slot by itself adds its card to its group. -/
theorem mem_of_contains (h : t₀.Gathered t gs) (hr : t₀.Remembers) (hg : g ∈ gs)
    (hi : i ∈ g.regions) {slot : Nat}
    (hslot : (t₀.region i).remSet.contains t₀.shared slot = .ok true) :
    Address.card slot ∈ t₀.remembered g.regions := by
  obtain ⟨hlt, hnone, -⟩ := h.members g hg i hi
  obtain ⟨xs, hxs⟩ := hr.own i (h.table.size ▸ hlt)
  simp only [RemSet.contains, RemSet.active, hnone, Checked.pure_eq, Checked.ok_bind, hxs.contains,
    Except.ok.injEq, decide_eq_true_eq] at hslot
  exact mem_remembered.mpr ⟨i, hi, hxs.cards_perm.mem_iff.mpr hslot⟩

end Gathered

/-- The regions still remember when some have come into groups. -/
theorem Remembers.gathered (h : t₀.Remembers) (hg : t₀.Gathered t gs) : t.Remembers := by
  refine ⟨fun i hi => ?_, hg.known h⟩
  by_cases hm : i ∈ gs.flatMap Group.regions
  · obtain ⟨g, hmem, hig⟩ := List.mem_flatMap.mp hm
    exact ⟨[], (hg.members g hmem i hig).2.2.2⟩
  · exact hg.others i hm ▸ h.own i (hg.table.size ▸ hi)

end RegionTable

namespace Selection

variable {s s' : Selection}

theorem Building.gathered_add {b b' : Building} {c : Candidate} {t : RegionTable}
    (h : t.Gathered b.table b.groups) (ha : b.add c = .ok b') :
    t.Gathered b'.table b'.groups := by
  obtain ⟨r, t₁, g, -, -, -, -, hadd, hcases⟩ := Building.add_eq_ok ha
  obtain ⟨r', -, -, -, hgroup, hjoin⟩ := Group.add_eq_ok hadd
  rw [groups, hgroup]
  obtain ⟨rfl, rfl, hregistry⟩ | ⟨hcreate, marking, happend, hregistry⟩ := hcases
  · rw [hregistry]
    exact h.join hjoin
  · obtain ⟨-, -, rfl⟩ := GroupList.append_eq_ok happend
    obtain rfl : g = (Group.create b.table).1 := congrArg Prod.fst hcreate
    obtain rfl : t₁ = (Group.create b.table).2 := congrArg Prod.snd hcreate
    rw [hregistry]
    exact h.create.join hjoin

theorem gathered_fromMarking {cs : List Candidate}
    (hs : s.fromMarking cs = .ok s') : ∃ new, s'.candidates.marking.groups =
        s.candidates.marking.groups ++ new ∧ s'.candidates.retained = s.candidates.retained ∧
      new.flatMap Group.regions = cs.map Candidate.region ∧ s.table.Gathered s'.table new := by
  obtain ⟨rfl, rfl⟩ | ⟨size, b, hb, hempty, marking, happend, rfl⟩ := fromMarking_eq_ok hs
  · exact ⟨[], by simp, rfl, rfl, .refl _⟩
  · have hstart : s.table.Gathered (Group.create s.table).2
        (s.candidates.marking.groups ++ [(Group.create s.table).1]) := by
      rw [hempty]
      exact (RegionTable.Gathered.refl s.table).create
    have hend := Checked.Leaves.foldlM (P := fun b : Building => s.table.Gathered b.table b.groups)
      (fun b c hb b' ha => Building.gathered_add hb ha) cs hstart b hb
    obtain ⟨hregions, hretained⟩ := Building.regions_addAll hb
    obtain ⟨-, -, rfl⟩ := GroupList.append_eq_ok happend
    refine ⟨b.groups, by rw [hempty]; rfl, hretained, hregions.trans ?_, hend⟩
    simp [Building.whole, Building.groups, GroupList.regions, hempty, Group.create, Group.regions]

theorem gathered_retain {i : Nat} (hs : s.retain i = .ok s') :
    ∃ new, s'.candidates.retained.groups = s.candidates.retained.groups ++ new ∧
      s'.candidates.marking = s.candidates.marking ∧
      new.flatMap Group.regions = [i] ∧ s.table.Gathered s'.table new := by
  obtain ⟨e, g, t, -, -, hadd, retained, happend, rfl⟩ := retain_eq_ok hs
  obtain ⟨r, -, -, -, rfl, hjoin⟩ := Group.add_eq_ok hadd
  obtain ⟨-, -, rfl⟩ := GroupList.append_eq_ok happend
  have hcreate : s.table.Gathered (Group.create s.table).2 ([] ++ [(Group.create s.table).1]) :=
    (RegionTable.Gathered.refl s.table).create
  exact ⟨_, rfl, rfl, rfl, hcreate.join (c := { region := i, efficiency := e }) hjoin⟩

/-- Grouping loses no card. The regions that come into new groups have their cards gathered in the
sets of these, and from then on whatever is recorded for one of them is found through all regions of
its group. The other regions remember what they did. -/
theorem grouping_remembers {regions : List Nat} (h : s.table.Remembers)
    (hcall : (∃ cs, s.fromMarking cs = .ok s' ∧ regions = cs.map Candidate.region) ∨
      ∃ i, s.retain i = .ok s' ∧ regions = [i]) :
    ∃ new : List Group, new.flatMap Group.regions = regions ∧
      (s'.candidates.marking.groups = s.candidates.marking.groups ++ new ∧
          s'.candidates.retained = s.candidates.retained ∨
        s'.candidates.retained.groups = s.candidates.retained.groups ++ new ∧
          s'.candidates.marking = s.candidates.marking) ∧
      (∀ g ∈ new, ∃ cards, s'.table.cards g.cards = .ok cards ∧ cards.cards.Nodup ∧
        cards.cards.toFinset = s.table.remembered g.regions ∧
        cards.occupied = (s.table.remembered g.regions).card) ∧
      (∀ g ∈ new, ∀ i ∈ g.regions, (s'.table.region i).remSet.own.cards = [] ∧
        (s'.table.region i).remSet.own.occupied = 0 ∧
        (∀ slot, (s.table.region i).remSet.contains s.table.shared slot = .ok true →
          (s'.table.region i).remSet.contains s'.table.shared slot = .ok true) ∧
        ∀ refs t, s'.table.addReferences refs = .ok t → ∀ slot,
          (t.region i).remSet.contains t.shared slot =
            .ok (decide (Address.card slot ∈ s.table.remembered g.regions ∨
              ∃ r ∈ refs, r.1 ∈ g.regions ∧ Address.card r.2 = Address.card slot))) ∧
      (s.table.Roomy → ∀ refs : List (Nat × Nat), (∀ r ∈ refs, r.1 < s.table.size) →
        ∃ t, s'.table.addReferences refs = .ok t) ∧
      (∀ i, i ∉ regions → s'.table.region i = s.table.region i) ∧
      (∀ id cards, s.table.cards id = .ok cards → s'.table.cards id = .ok cards) ∧
      s'.table.Remembers := by
  obtain ⟨new, hregions, hlists, hg⟩ : ∃ new : List Group, new.flatMap Group.regions = regions ∧
      (s'.candidates.marking.groups = s.candidates.marking.groups ++ new ∧
          s'.candidates.retained = s.candidates.retained ∨
        s'.candidates.retained.groups = s.candidates.retained.groups ++ new ∧
          s'.candidates.marking = s.candidates.marking) ∧ s.table.Gathered s'.table new := by
    obtain ⟨cs, hs, rfl⟩ | ⟨i, hs, rfl⟩ := hcall
    · obtain ⟨new, hmarking, hretained, hregions, hg⟩ := gathered_fromMarking hs
      exact ⟨new, hregions, .inl ⟨hmarking, hretained⟩, hg⟩
    · obtain ⟨new, hretained, hmarking, hregions, hg⟩ := gathered_retain hs
      exact ⟨new, hregions, .inr ⟨hretained, hmarking⟩, hg⟩
  refine ⟨new, hregions, hlists, fun g hmem => hg.set_eq hmem, fun g hmem i hi => ?_,
    fun hroom refs hrefs => RegionTable.addReferences_of (hg.table.roomy hroom) (hg.known h)
      fun r hr => hg.table.size ▸ hrefs r hr, fun i hi => hg.others i (hregions ▸ hi),
    fun id cards hcards => ?_, h.gathered hg⟩
  · have hempty := (hg.members g hmem i hi).2.2.2
    refine ⟨hempty.cards_perm.eq_nil, hempty.occupied, fun slot hslot => ?_,
      fun refs t ha slot => hg.contains h hmem hi ha slot⟩
    have hnothing : s'.table.addReferences [] = .ok s'.table := rfl
    rw [hg.contains h hmem hi hnothing slot]
    exact congrArg Except.ok (decide_eq_true (.inl (hg.mem_of_contains h hmem hi hslot)))
  · obtain ⟨hid, rfl⟩ := RegionTable.cards_eq_ok hcards
    rw [← hg.older id hid]
    exact Table.get_of_lt (Nat.lt_of_lt_of_le hid hg.table.shared)

/-- The regions of the sample when some references into three of them have been recorded. -/
def recorded : Checked Selection := do
  let s ← sample
  let table ← s.table.addReferences [(0, 4096), (1, 4096), (1, 4608), (2, 65536)]
  return { s with table := table }

/-- The region that remembers two cards comes into a group with another. -/
def recordedCandidates : List Candidate :=
  [{ region := 0, efficiency := 3 }, { region := 2, efficiency := 2 },
    { region := 1, efficiency := 1 }]

theorem recorded_remembers : ∃ (s s' : Selection) (new : List Group), s.table.Remembers ∧
    s.fromMarking recordedCandidates = .ok s' ∧ new.flatMap Group.regions = [0, 2, 1] ∧
    (s.table.region 1).remSet.contains s.table.shared 4608 = .ok true ∧
    (s'.table.region 1).remSet.contains s'.table.shared 4608 = .ok true := by
  have hlook : (do
      let s ← recorded
      let _ ← s.fromMarking recordedCandidates
      (s.table.region 1).remSet.contains s.table.shared 4608).toOption = some true := by
    decide +kernel
  simp only [Checked.toOption_eq_some, Checked.bind_eq_ok] at hlook
  obtain ⟨s, hs, s', hrun, hbefore⟩ := hlook
  have hr : s.table.Remembers := by
    simp only [recorded, sample, Checked.bind_eq_ok, Checked.pure_eq, Except.ok.injEq] at hs
    obtain ⟨_, ⟨config, -, t₀, hcreate, c, -, rfl⟩, t, ht, rfl⟩ := hs
    exact (RegionTable.Remembers.create hcreate).addReferences ht
  obtain ⟨new, hregions, -, -, hkeeps, -⟩ := grouping_remembers hr (.inl ⟨_, hrun, rfl⟩)
  obtain ⟨g, hg, hi⟩ := List.mem_flatMap.mp
    (hregions ▸ (by decide : 1 ∈ recordedCandidates.map Candidate.region))
  exact ⟨s, s', new, hr, hrun, hregions, hbefore, (hkeeps g hg 1 hi).2.2.1 4608 hbefore⟩

end Selection

end RegionHeap
