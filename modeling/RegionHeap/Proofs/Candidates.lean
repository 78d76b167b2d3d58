import RegionHeap.Candidates.Operation
import RegionHeap.Proofs.Lockstep

/-!
What an operation on the candidates does to the registry if it passes: which groups come into a
list or leave it, and which origins change.
-/
set_option autoImplicit false

namespace RegionHeap

/-- All of a group but its efficiency. -/
def Group.content (g : Group) : Nat × List Candidate := (g.cards, g.members)

namespace GroupList

variable {l m : GroupList} {g : Group} {taken : List Group}

theorem length_regions (gs : List Group) :
    (gs.flatMap Group.regions).length = totalLength gs := by
  induction gs with
  | nil => rfl
  | cons g gs ih =>
    rw [List.flatMap_cons, List.length_append, ih, Group.regions, List.length_map]
    rfl

theorem append_eq_ok (h : l.append g = .ok m) : g.members ≠ [] ∧
    (∀ k ∈ l.groups, k.cards ≠ g.cards) ∧ m = ⟨l.groups ++ [g], l.regionCount + g.length⟩ := by
  simp only [append, Checked.bind_eq_ok, Fault.unless_eq_ok, Checked.pure_eq, Except.ok.injEq] at h
  obtain ⟨-, hempty, -, hlisted, rfl⟩ := h
  exact ⟨by simpa [Group.isEmpty] using hempty, by simpa using hlisted, rfl⟩

theorem takeFirst_eq_ok {count : Nat} (h : l.takeFirst count = .ok (taken, m)) :
    taken = l.groups.take count ∧
      m = ⟨l.groups.drop count, l.regionCount - totalLength taken⟩ := by
  simp only [takeFirst, Checked.bind_eq_ok, Table.slice, Nat.zero_le, true_and, List.drop_zero,
    Checked.pure_eq, Except.ok.injEq, Prod.mk.injEq] at h
  obtain ⟨gs, hgs, rfl, rfl⟩ := h
  split at hgs
  · exact ⟨(Except.ok.inj hgs).symm, rfl⟩
  · contradiction

theorem split_perm (gs : List Group) (ids : List Nat) :
    ((split gs ids).1 ++ (split gs ids).2.1).Perm gs := by
  induction gs generalizing ids with
  | nil => exact .refl _
  | cons g gs ih =>
    cases ids with
    | nil => exact .refl _
    | cons id ids =>
      unfold split
      split
      · exact (ih ids).cons g
      · exact List.perm_middle.trans ((ih (id :: ids)).cons g)

/-- The groups of a list fall into those that leave it and those that stay. -/
structure Parts (l : GroupList) (taken : List Group) (rest : GroupList) : Prop where
  groups : (taken ++ rest.groups).Perm l.groups
  count : rest.regionCount = l.regionCount - totalLength taken

theorem Parts.regions (p : l.Parts taken m) :
    (taken.flatMap Group.regions ++ m.regions).Perm l.regions := by
  rw [GroupList.regions, ← List.flatMap_append]
  exact p.groups.flatMap_right _

theorem takeFirst_parts {count : Nat} (h : l.takeFirst count = .ok (taken, m)) :
    l.Parts taken m := by
  obtain ⟨rfl, rfl⟩ := takeFirst_eq_ok h
  exact ⟨.of_eq (List.take_append_drop count l.groups), rfl⟩

theorem take_parts {ids : List Nat} (h : l.take ids = .ok (taken, m)) : l.Parts taken m := by
  unfold take at h
  split at h
  · cases h
    exact ⟨.refl _, rfl⟩
  · simp only [Checked.bind_eq_ok, Checked.pure_eq, Except.ok.injEq, Prod.mk.injEq] at h
    obtain ⟨-, -, -, -, rfl, rfl⟩ := h
    exact ⟨split_perm l.groups ids, rfl⟩

/-- The same groups in another order, whose efficiencies may have changed. -/
structure Permuted (l m : GroupList) : Prop where
  groups : (m.groups.map Group.content).Perm (l.groups.map Group.content)
  count : m.regionCount = l.regionCount

theorem withEfficiencies_content {t : RegionTable} {p : Policy}
    (h : l.withEfficiencies t p = .ok m) :
    m.groups.map Group.content = l.groups.map Group.content ∧ m.regionCount = l.regionCount := by
  have hmap : ∀ gs ms : List Group, gs.mapM (fun g => g.withEfficiency t p) = .ok ms →
      ms.map Group.content = gs.map Group.content := by
    intro gs
    induction gs with
    | nil =>
      intro ms hms
      cases hms
      rfl
    | cons g gs ih =>
      intro ms hms
      simp only [List.mapM_cons, Checked.bind_eq_ok, Checked.pure_eq, Except.ok.injEq] at hms
      obtain ⟨k, hk, ks, hks, rfl⟩ := hms
      simp only [Group.withEfficiency, Checked.bind_eq_ok, Checked.pure_eq, Except.ok.injEq] at hk
      obtain ⟨_, -, _, -, rfl⟩ := hk
      simp [ih ks hks, Group.content]
  simp only [withEfficiencies, Checked.bind_eq_ok, Checked.pure_eq, Except.ok.injEq] at h
  obtain ⟨gs, hgs, rfl⟩ := h
  exact ⟨hmap _ _ hgs, rfl⟩

theorem Permuted.regions (p : l.Permuted m) : m.regions.Perm l.regions := by
  have hregions : ∀ k : GroupList, k.regions =
      (k.groups.map Group.content).flatMap fun c => c.2.map Candidate.region := fun k => by
    rw [List.flatMap_map]
    rfl
  rw [hregions, hregions]
  exact p.groups.flatMap_right _

end GroupList

namespace Registry

variable {c c' : Registry} {i : Nat} {o p : Origin}

@[simp] theorem origins_setGroups (c : Registry) (o : Origin) (l : GroupList) :
    (c.setGroups o l).origins = c.origins := by
  cases o <;> rfl

theorem setOrigin_eq_ok (h : c.setOrigin i o = .ok c') :
    i < c.origins.size ∧ c' = { c with origins := c.origins.setIfInBounds i o } := by
  simp only [setOrigin, Checked.bind_eq_ok, Table.set, Array.set!_eq_setIfInBounds, Checked.pure_eq,
    Except.ok.injEq] at h
  obtain ⟨os, hos, rfl⟩ := h
  split at hos
  · next hi => exact ⟨hi, by rw [Except.ok.inj hos]⟩
  · contradiction

theorem contains_eq_ok {b : Bool} :
    c.contains i = .ok b ↔ ∃ o, c.origins[i]? = some o ∧ b = (o != .invalid) := by
  simp only [contains, origin, Checked.bind_eq_ok, Fault.unless_eq_ok, decide_eq_true_eq,
    Table.get_eq_ok, Checked.pure_eq, Except.ok.injEq]
  constructor
  · rintro ⟨-, -, o, ho, rfl⟩
    exact ⟨o, ho, rfl⟩
  · rintro ⟨o, ho, rfl⟩
    exact ⟨(), (Array.getElem?_eq_some_iff.mp ho).1, o, ho, rfl⟩

theorem contains_eq_false : c.contains i = .ok false ↔ c.origins[i]? = some .invalid := by
  rw [contains_eq_ok]
  constructor
  · rintro ⟨o, ho, hb⟩
    obtain rfl : o = .invalid := by simpa using hb.symm
    exact ho
  · exact fun h => ⟨.invalid, h, rfl⟩

end Registry

namespace Group

variable {t t' : RegionTable} {g g' : Group} {i : Nat} {c : Candidate}

theorem add_eq_ok (h : g.add t i c = .ok (g', t')) : ∃ r, t.get i = .ok r ∧
    r.index = c.region ∧ r.kind.isYoung = false ∧ g' = { g with members := g.members ++ [c] } ∧
      t.joinGroup i g.cards = .ok t' := by
  simp only [add, Checked.bind_eq_ok, Fault.unless_eq_ok, beq_iff_eq, Bool.not_eq_true',
    Checked.pure_eq, Except.ok.injEq, Prod.mk.injEq] at h
  obtain ⟨r, hr, -, hindex, -, hyoung, t₁, hjoin, rfl, rfl⟩ := h
  exact ⟨r, hr, hindex, hyoung, rfl, hjoin⟩

theorem addRegion_eq_ok {p : Policy} (h : g.addRegion t p i = .ok (g', t')) :
    ∃ e, g.add t i { region := i, efficiency := e } = .ok (g', t') := by
  simp only [addRegion, Checked.bind_eq_ok] at h
  obtain ⟨e, -, h⟩ := h
  exact ⟨e, h⟩

end Group

namespace Selection

variable {s s' : Selection} {i : Nat} {o : Origin} {taken : List Group}

/-- The groups of a building, of which the last is still growing. -/
def Building.groups (b : Building) : List Group := b.registry.marking.groups ++ [b.group]

/-- The candidate joins the last group, or a new one behind it. -/
theorem Building.add_eq_ok {b b' : Building} {c : Candidate} (h : b.add c = .ok b') :
    ∃ r t g, b.table.get c.region = .ok r ∧ r.index = c.region ∧
      b.registry.origins[c.region]? = some .invalid ∧
      c.region < b.registry.origins.size ∧
      g.add t c.region c = .ok (b'.group, b'.table) ∧
      (t = b.table ∧ g = b.group ∧ b'.registry = { b.registry with
          origins := b.registry.origins.setIfInBounds c.region .marking } ∨
        (g, t) = Group.create b.table ∧ ∃ marking,
          b.registry.marking.append b.group = .ok marking ∧ b'.registry = { b.registry with
            origins := b.registry.origins.setIfInBounds c.region .marking
            marking := marking }) := by
  simp only [Building.add, Checked.bind_eq_ok, Fault.unless_eq_ok, Bool.not_eq_true'] at h
  obtain ⟨r, hr, new, hnew, -, rfl, registry, horigin, h⟩ := h
  obtain ⟨hlt, rfl⟩ := Registry.setOrigin_eq_ok horigin
  have hjoin : ∀ {t : RegionTable} {g : Group}, t.get c.region = b.table.get c.region →
      g.add t c.region c = .ok (b'.group, b'.table) → r.index = c.region ∧
        b.registry.origins[c.region]? = some .invalid := fun ht hadd => by
    obtain ⟨r', hr', hindex, -⟩ := Group.add_eq_ok hadd
    obtain rfl : r = r' := Except.ok.inj (hr.symm.trans (ht.symm.trans hr'))
    exact ⟨hindex, hindex ▸ Registry.contains_eq_false.mp hnew⟩
  split at h
  · simp only [Checked.bind_eq_ok, Checked.pure_eq, Except.ok.injEq] at h
    obtain ⟨marking, hm, _, rfl, ⟨g', t'⟩, hadd, rfl⟩ := h
    have hget : (Group.create b.table).2.get c.region = b.table.get c.region := rfl
    obtain ⟨hindex, hinvalid⟩ := hjoin hget hadd
    exact ⟨r, _, _, hr, hindex, hinvalid, hlt, hadd, .inr ⟨rfl, marking, hm, rfl⟩⟩
  · simp only [Checked.bind_eq_ok, Checked.pure_eq, Except.ok.injEq] at h
    obtain ⟨_, rfl, ⟨g', t'⟩, hadd, rfl⟩ := h
    have hget : b.table.get c.region = b.table.get c.region := rfl
    obtain ⟨hindex, hinvalid⟩ := hjoin hget hadd
    exact ⟨r, _, _, hr, hindex, hinvalid, hlt, hadd, .inl ⟨rfl, rfl, rfl⟩⟩

theorem fromMarking_eq_ok {cs : List Candidate} (h : s.fromMarking cs = .ok s') :
    cs = [] ∧ s' = s ∨ ∃ size b, cs.foldlM Building.add
        ⟨s.candidates, (Group.create s.table).2, (Group.create s.table).1, size⟩ = .ok b ∧
      s.candidates.marking.groups = [] ∧ ∃ marking,
        b.registry.marking.append b.group = .ok marking ∧ s' = { s with
          table := b.table
          candidates := { b.registry with marking := marking, lastMarking := cs.length } } := by
  unfold fromMarking at h
  split at h
  · next hempty => exact .inl ⟨List.isEmpty_iff.mp hempty, (Except.ok.inj h).symm⟩
  · simp only [Checked.bind_eq_ok, Fault.unless_eq_ok, Checked.pure_eq, Except.ok.injEq] at h
    obtain ⟨-, hempty, -, -, b, hb, marking, hm, -, -, -, -, rfl⟩ := h
    exact .inr ⟨_, b, hb, by simpa [GroupList.isEmpty] using hempty, marking, hm, rfl⟩

theorem retain_eq_ok (h : s.retain i = .ok s') : ∃ e g t,
    s.candidates.origins[i]? = some .invalid ∧ i < s.candidates.origins.size ∧
    (Group.create s.table).1.add (Group.create s.table).2 i { region := i, efficiency := e } =
      .ok (g, t) ∧ ∃ retained, s.candidates.retained.append g = .ok retained ∧ s' = { s with
        table := t
        candidates := { s.candidates with
          origins := s.candidates.origins.setIfInBounds i .retained, retained := retained } } := by
  simp only [retain, Checked.bind_eq_ok, Fault.unless_eq_ok, Bool.not_eq_true', Checked.pure_eq,
    Except.ok.injEq] at h
  obtain ⟨r, hr, new, hnew, -, rfl, registry, horigin, ⟨g, t⟩, hadd, retained, happend, rfl⟩ := h
  obtain ⟨hlt, rfl⟩ := Registry.setOrigin_eq_ok horigin
  obtain ⟨e, hadd⟩ := Group.addRegion_eq_ok hadd
  obtain ⟨r', hr', hindex, -⟩ := Group.add_eq_ok hadd
  obtain rfl : r = r' := Except.ok.inj (hr.symm.trans hr')
  obtain rfl : r.index = i := hindex
  exact ⟨e, g, t, Registry.contains_eq_false.mp hnew, hlt, hadd, retained, happend, rfl⟩

theorem sortMarking_eq_ok (h : s.sortMarking = .ok s') : ∃ marking,
    s.candidates.marking.Permuted marking ∧
      s' = { s with candidates := { s.candidates with marking := marking } } := by
  simp only [sortMarking, Checked.bind_eq_ok, Checked.pure_eq, Except.ok.injEq] at h
  obtain ⟨l, hl, marking, hsort, -, -, rfl⟩ := h
  obtain ⟨hcontent, hcount⟩ := GroupList.withEfficiencies_content hl
  obtain ⟨hperm, hcount'⟩ := GroupList.sort_perm hsort
  exact ⟨marking, ⟨hcontent ▸ hperm.map _, hcount'.trans hcount⟩, rfl⟩

theorem sortRetained_eq_ok (h : s.sortRetained = .ok s') : ∃ retained,
    s.candidates.retained.Permuted retained ∧
      s' = { s with candidates := { s.candidates with retained := retained } } := by
  simp only [sortRetained, Checked.bind_eq_ok, Checked.pure_eq, Except.ok.injEq] at h
  obtain ⟨-, -, l, hl, retained, hsort, -, -, rfl⟩ := h
  obtain ⟨hcontent, hcount⟩ := GroupList.withEfficiencies_content hl
  obtain ⟨hperm, hcount'⟩ := GroupList.sort_perm hsort
  exact ⟨retained, ⟨hcontent ▸ hperm.map _, hcount'.trans hcount⟩, rfl⟩

theorem clear_eq_ok (h : s.clear = .ok s') : ∃ t, s' = { s with
    table := t
    candidates := ⟨s.candidates.origins.map fun _ => .invalid, {}, {}, 0⟩ } ∧
      ∃ t₁, s.candidates.retained.abandon s.table = .ok ({}, t₁) ∧
        s.candidates.marking.abandon t₁ = .ok ({}, t) := by
  simp only [clear, GroupList.abandon, Checked.bind_eq_ok, Checked.pure_eq, Except.ok.injEq] at h
  obtain ⟨_, ⟨t₁, h₁, rfl⟩, _, ⟨t, h₂, rfl⟩, rfl⟩ := h
  exact ⟨t, rfl, t₁, Checked.bind_of h₁ _, Checked.bind_of h₂ _⟩

theorem forgetAll_eq_ok {rs : List Nat} (h : rs.foldlM forget s = .ok s') :
    ∃ origins : Array Origin,
    s' = { s with candidates := { s.candidates with origins := origins } } ∧
      origins.size = s.candidates.origins.size ∧
      ∀ j, origins[j]? = if j ∈ rs then some .invalid else s.candidates.origins[j]? := by
  induction rs generalizing s with
  | nil =>
    obtain rfl : s = s' := Except.ok.inj h
    exact ⟨s.candidates.origins, rfl, rfl, fun j => by simp⟩
  | cons i rs ih =>
    rw [List.foldlM_cons] at h
    obtain ⟨s₁, h₁, hrest⟩ := Checked.bind_eq_ok.mp h
    simp only [forget, Checked.bind_eq_ok, Fault.unless_eq_ok, Checked.pure_eq,
      Except.ok.injEq] at h₁
    obtain ⟨-, -, -, -, registry, horigin, rfl⟩ := h₁
    obtain ⟨hlt, rfl⟩ := Registry.setOrigin_eq_ok horigin
    obtain ⟨origins, rfl, hsize, horigins⟩ := ih hrest
    refine ⟨origins, rfl, by simpa using hsize, fun j => ?_⟩
    rw [horigins j, Array.getElem?_setIfInBounds]
    by_cases hj : j ∈ rs
    · simp [hj]
    · by_cases hij : i = j
      · subst hij
        simp [hlt]
      · simp [hj, hij, Ne.symm hij]

theorem takeOut_eq_ok {rest : GroupList} {spent : Bool}
    (h : s.takeOut o taken rest spent = .ok s') : ∃ (t : RegionTable) (origins : Array Origin),
    (if spent then taken.foldlM (fun t g => do return (← Group.clear g t).2) s.table
      else pure s.table) = .ok t ∧
    s' = { s with table := t, candidates := { s.candidates.setGroups o rest with
      origins := origins } } ∧
    origins.size = s.candidates.origins.size ∧
    ∀ j, origins[j]? = if j ∈ taken.flatMap Group.regions then some .invalid
      else s.candidates.origins[j]? := by
  obtain ⟨t, ht, h⟩ : ∃ t, (if spent then taken.foldlM (fun t g => do
      return (← Group.clear g t).2) s.table else pure s.table) = .ok t ∧
      (taken.flatMap Group.regions).foldlM forget { s with
        table := t, candidates := s.candidates.setGroups o rest } = .ok s' := by
    cases spent <;> exact Checked.bind_eq_ok.mp h
  obtain ⟨origins, rfl, hsize, horigins⟩ := forgetAll_eq_ok h
  exact ⟨t, origins, ht, rfl, by simpa using hsize, by simpa using horigins⟩

theorem abandonGroups_eq_ok (h : s.abandonGroups o = .ok s') : ∃ t,
    (s.candidates.groups o).abandon s.table = .ok ({}, t) ∧
      s' = { s with table := t, candidates := s.candidates.setGroups o {} } := by
  simp only [abandonGroups, GroupList.abandon, Checked.bind_eq_ok, Checked.pure_eq,
    Except.ok.injEq] at h
  obtain ⟨_, ⟨t, ht, rfl⟩, rfl⟩ := h
  exact ⟨t, Checked.bind_of ht _, rfl⟩

/-- How an operation on the candidates passes, with the groups that it takes out. -/
inductive Performs (s : Selection) : Operation → List Group → Selection → Prop where
  | fromMarking {cs : List Candidate} {s' : Selection} :
    s.fromMarking cs = .ok s' → Performs s (.fromMarking cs) [] s'
  | retain {region : Nat} {s' : Selection} :
    s.retain region = .ok s' → Performs s (.retain region) [] s'
  | sortMarking {s' : Selection} : s.sortMarking = .ok s' → Performs s .sortMarking [] s'
  | sortRetained {s' : Selection} : s.sortRetained = .ok s' → Performs s .sortRetained [] s'
  | clear {s' : Selection} : s.clear = .ok s' → Performs s .clear [] s'
  | abandon {list : Origin} {s' : Selection} :
    s.abandonGroups list = .ok s' → Performs s (.abandon list) [] s'
  | takeFirst {list : Origin} {count : Nat} {spent : Bool} {taken : List Group} {rest : GroupList}
      {s' : Selection} : (s.candidates.groups list).Parts taken rest →
    s.takeOut list taken rest spent = .ok s' → Performs s (.takeFirst list count spent) taken s'
  | take {list : Origin} {groups : List Nat} {spent : Bool} {taken : List Group} {rest : GroupList}
      {s' : Selection} : (s.candidates.groups list).Parts taken rest →
    s.takeOut list taken rest spent = .ok s' → Performs s (.take list groups spent) taken s'

theorem perform_eq_ok {op : Operation} (h : s.perform op = .ok (taken, s')) :
    s.Performs op taken s' ∨ ∃ c, taken = [] ∧ s.change c = .ok s' := by
  cases op <;> simp only [perform, Checked.bind_eq_ok, Checked.pure_eq, Except.ok.injEq,
    Prod.mk.injEq] at h
  case fromMarking => obtain ⟨_, h, rfl, rfl⟩ := h; exact .inl (.fromMarking h)
  case retain => obtain ⟨_, h, rfl, rfl⟩ := h; exact .inl (.retain h)
  case sortMarking => obtain ⟨_, h, rfl, rfl⟩ := h; exact .inl (.sortMarking h)
  case sortRetained => obtain ⟨_, h, rfl, rfl⟩ := h; exact .inl (.sortRetained h)
  case clear => obtain ⟨_, h, rfl, rfl⟩ := h; exact .inl (.clear h)
  case abandon => obtain ⟨_, h, rfl, rfl⟩ := h; exact .inl (.abandon h)
  case takeFirst =>
    obtain ⟨⟨_, rest⟩, htake, _, h, rfl, rfl⟩ := h
    exact .inl (.takeFirst (GroupList.takeFirst_parts htake) h)
  case take =>
    obtain ⟨⟨_, rest⟩, htake, _, h, rfl, rfl⟩ := h
    exact .inl (.take (GroupList.take_parts htake) h)
  case between c => obtain ⟨_, h, rfl, rfl⟩ := h; exact .inr ⟨c, rfl, h⟩

theorem change_candidates {c : Change} (h : s.change c = .ok s') :
    s'.candidates = s.candidates := by
  cases c with
  | policy p | rounds r => exact Except.ok.inj h ▸ rfl
  | region i r | record i slot | clear i =>
    obtain ⟨t, -, h⟩ := Checked.bind_eq_ok.mp h
    exact Except.ok.inj h ▸ rfl


/-- What every operation keeps, and all that happens in between, holds after all of them. -/
theorem run_induction {P : List Group → Selection → Prop} {ops : List Operation}
    (hstep : ∀ taken s op more s', op ∈ ops → P taken s → s.Performs op more s' →
      P (taken ++ more) s')
    (hchange : ∀ taken s c s', P taken s → s.change c = .ok s' → P taken s')
    (h : P [] s) (hrun : s.run ops = .ok (taken, s')) : P taken s' := by
  have hfold : ∀ (rest : List Operation) (p : List Group × Selection), (∀ op ∈ rest, op ∈ ops) →
      P p.1 p.2 → Checked.Leaves (fun p => P p.1 p.2) (rest.foldlM performNext p) := by
    intro rest
    induction rest with
    | nil => exact fun p _ hp => .ok hp
    | cons op rest ih =>
      intro p hmem hp
      rw [List.foldlM_cons]
      refine .bind (P := fun p => P p.1 p.2) (fun p' hp' => ?_)
        fun p' hp' => ih p' (fun op' hop' => hmem op' (by simp [hop'])) hp'
      obtain ⟨q, h₁, hq⟩ := Checked.bind_eq_ok.mp hp'
      cases hq
      rcases perform_eq_ok h₁ with hs | ⟨c, hnone, hc⟩
      · exact hstep _ _ op q.1 q.2 (hmem op (by simp)) hp hs
      · rw [hnone, List.append_nil]
        exact hchange _ _ c q.2 hp hc
  exact hfold ops ([], s) (fun _ h => h) h (taken, s') hrun

end Selection

end RegionHeap
