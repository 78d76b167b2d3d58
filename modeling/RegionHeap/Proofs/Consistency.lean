import RegionHeap.Heap.Basic
import RegionHeap.Proofs.RegistryChecks

/-!
The registry agrees with its lists of groups. Every operation keeps that up, whatever the regions
and the policy, and then the registry passes its own verification.
-/
set_option autoImplicit false

namespace RegionHeap

/-- No region is in a list twice, the origins tell which list a region is in, and the counts are
those of the regions. -/
structure Registry.Consistent (c : Registry) : Prop where
  nodup : ∀ o, (c.groups o).regions.Nodup
  origin : ∀ o, o ≠ .invalid → ∀ i, c.origins[i]? = some o ↔ i ∈ (c.groups o).regions
  count : ∀ o, (c.groups o).regionCount = (c.groups o).regions.length

namespace Registry

variable {c c' : Registry} {i : Nat} {o : Origin}

/-- What a registry has to be like to pass its own verification, which takes the number of the
retained regions on trust. -/
structure Verified (c : Registry) : Prop where
  nodup : c.regions.Nodup
  origin : ∀ o, ∀ i ∈ (c.groups o).regions, c.origins[i]? = some o
  count : c.marking.regionCount = c.marking.regions.length
  others : ∀ i, i < c.origins.size → i ∉ c.regions → c.origins[i]? = some .invalid

theorem verify_eq_ok : c.verify = .ok () ↔ c.Verified := by
  have htag : ∀ {i : Nat} {o : Origin},
      c.tagged.tags[i]? = some (OriginTag.origin o) ↔ c.origins[i]? = some o := by
    simp [tagged]
  have hsize : c.tagged.tags.size = c.origins.size := by simp [tagged]
  have hcount : GroupList.totalLength c.marking.groups = c.marking.regions.length :=
    (GroupList.length_regions _).symm
  rw [verify_tagged, TaggedRegistry.verify_eq_ok]
  constructor
  · intro h
    refine ⟨h.once, fun o i hi => ?_, h.count.trans hcount, fun i hi hnot => ?_⟩
    · cases o with
      | invalid => cases hi
      | marking => exact htag.mp (h.marking i hi)
      | retained => exact htag.mp (h.retained i hi)
    · rw [regions, List.mem_append, not_or] at hnot
      exact htag.mp (h.others i (hsize.symm ▸ hi) hnot.1 hnot.2)
  · intro h
    refine ⟨h.nodup, fun i hi => htag.mpr (h.origin .marking i hi),
      fun i hi => htag.mpr (h.origin .retained i hi), fun i hi hm hr => ?_,
      h.count.trans hcount.symm⟩
    refine htag.mpr (h.others i (hsize ▸ hi) ?_)
    rw [regions, List.mem_append, not_or]
    exact ⟨hm, hr⟩

namespace Consistent

theorem initial (n : Nat) : (Registry.initial n).Consistent := by
  have hgroups : ∀ o, (Registry.initial n).groups o = {} := fun o => by cases o <;> rfl
  refine ⟨fun o => ?_, fun o ho i => ?_, fun o => ?_⟩
  · rw [hgroups]
    exact .nil
  · rw [hgroups]
    refine iff_of_false (fun h => ho ?_) (List.not_mem_nil)
    simp only [Registry.initial, Array.getElem?_replicate] at h
    split at h
    · exact (Option.some.inj h).symm
    · contradiction
  · rw [hgroups]
    rfl

theorem regions_nodup (h : c.Consistent) : c.regions.Nodup := by
  refine List.nodup_append.mpr ⟨h.nodup .marking, h.nodup .retained, fun i hi j hj e => ?_⟩
  have hm := (h.origin .marking (by decide) i).mpr hi
  rw [(h.origin .retained (by decide) i).mpr (e ▸ hj)] at hm
  contradiction

theorem length (h : c.Consistent) : c.length = c.regions.length := by
  have hmarking : c.marking.regionCount = c.marking.regions.length := h.count .marking
  have hretained : c.retained.regionCount = c.retained.regions.length := h.count .retained
  rw [Registry.length, regions, List.length_append, hmarking, hretained]

theorem count_groups (h : c.Consistent) (o : Origin) :
    (c.groups o).regionCount = GroupList.totalLength (c.groups o).groups :=
  (h.count o).trans (GroupList.length_regions _)

theorem origin_eq (h : c.Consistent) (hi : i < c.origins.size) : c.origins[i]? = some
    (if i ∈ c.marking.regions then .marking else if i ∈ c.retained.regions then .retained
      else .invalid) := by
  have hmarking := h.origin .marking (by decide) i
  have hretained := h.origin .retained (by decide) i
  obtain ⟨o, ho⟩ : ∃ o, c.origins[i]? = some o := ⟨_, Array.getElem?_eq_getElem hi⟩
  rw [ho] at hmarking hretained ⊢
  split
  · next hm => exact hmarking.mpr hm
  · next hm =>
    split
    · next hr => exact hretained.mpr hr
    · next hr =>
      cases o with
      | invalid => rfl
      | marking => exact absurd (hmarking.mp rfl) hm
      | retained => exact absurd (hretained.mp rfl) hr

theorem contains_eq (h : c.Consistent) (hi : i < c.origins.size) :
    c.contains i = .ok (decide (i ∈ c.regions)) := by
  rw [contains_eq_ok]
  refine ⟨_, h.origin_eq hi, ?_⟩
  by_cases hm : i ∈ c.marking.regions
  · simp [regions, hm]
  · by_cases hr : i ∈ c.retained.regions <;> simp [regions, hm, hr]

theorem lt_of_mem (h : c.Consistent) (hi : i ∈ c.regions) : i < c.origins.size := by
  rcases List.mem_append.mp hi with hi | hi
  · exact (Array.getElem?_eq_some_iff.mp ((h.origin .marking (by decide) i).mpr hi)).1
  · exact (Array.getElem?_eq_some_iff.mp ((h.origin .retained (by decide) i).mpr hi)).1

theorem verify (h : c.Consistent) : c.verify = .ok () :=
  verify_eq_ok.mpr ⟨h.regions_nodup, fun o i hi => by
    cases o with
    | invalid => cases hi
    | marking => exact (h.origin .marking (by decide) i).mpr hi
    | retained => exact (h.origin .retained (by decide) i).mpr hi,
    h.count .marking, fun i hi hnot => by
    rw [regions, List.mem_append, not_or] at hnot
    rw [h.origin_eq hi, if_neg hnot.1, if_neg hnot.2]⟩

/-- A region that was no candidate comes into one of the lists. -/
theorem enter (h : c.Consistent) (ho : o ≠ .invalid) (hi : c.origins[i]? = some .invalid)
    (horigins : c'.origins = c.origins.setIfInBounds i o)
    (hregions : (c'.groups o).regions = (c.groups o).regions ++ [i])
    (hcount : (c'.groups o).regionCount = (c.groups o).regionCount + 1)
    (hothers : ∀ p, p ≠ o → c'.groups p = c.groups p) : c'.Consistent := by
  -- a region without an origin is in no list
  have hnew : ∀ p, p ≠ .invalid → i ∉ (c.groups p).regions := fun p hp hm => by
    have := (h.origin p hp i).mpr hm
    rw [hi] at this
    exact hp (Option.some.inj this).symm
  refine ⟨fun p => ?nodup, fun p hp j => ?origin, fun p => ?count⟩
  case nodup =>
    by_cases e : p = o
    · rw [e, hregions, List.nodup_append]
      exact ⟨h.nodup o, by simp, fun a ha b hb e =>
        hnew o ho (List.mem_singleton.mp hb ▸ e ▸ ha)⟩
    · rw [hothers p e]
      exact h.nodup p
  case origin =>
    rw [horigins, Array.getElem?_setIfInBounds]
    have hlt := (Array.getElem?_eq_some_iff.mp hi).1
    by_cases e : p = o
    · rw [e, hregions, List.mem_append, ← h.origin o ho j]
      by_cases hj : i = j
      · subst hj
        simp [hlt]
      · simp [hj, Ne.symm hj]
    · rw [hothers p e, ← h.origin p hp j]
      by_cases hj : i = j
      · subst hj
        rw [if_pos rfl, if_pos hlt, hi]
        simp [Ne.symm e, Ne.symm hp]
      · rw [if_neg hj]
  case count =>
    by_cases e : p = o
    · rw [e, hregions, hcount, h.count o]
      simp
    · rw [hothers p e]
      exact h.count p

theorem of_perm (h : c.Consistent) (horigins : c'.origins = c.origins)
    (hregions : ∀ o, (c'.groups o).regions.Perm (c.groups o).regions)
    (hcount : ∀ o, (c'.groups o).regionCount = (c.groups o).regionCount) : c'.Consistent := by
  refine ⟨fun o => (hregions o).nodup_iff.mpr (h.nodup o), fun o ho i => ?_, fun o => ?_⟩
  · rw [horigins, h.origin o ho i, (hregions o).mem_iff]
  · rw [hcount, h.count, (hregions o).length_eq]

theorem origin_leave (h : c.Consistent) {p : Origin} {l : GroupList} {gone : List Nat}
    {origins : Array Origin} (hperm : (gone ++ l.regions).Perm (c.groups o).regions)
    (horigins : ∀ j, origins[j]? = if j ∈ gone then some .invalid else c.origins[j]?)
    (hp : p ≠ .invalid) (j : Nat) :
    origins[j]? = some p ↔ j ∈ (if p = o ∧ o ≠ .invalid then l else c.groups p).regions := by
  obtain ⟨-, -, hapart⟩ := List.nodup_append.mp (hperm.nodup_iff.mpr (h.nodup o))
  rw [horigins]
  by_cases hj : j ∈ gone
  · have hin : j ∈ (c.groups o).regions := hperm.mem_iff.mp (List.mem_append_left _ hj)
    have ho : o ≠ .invalid := fun e => by
      subst e
      cases hin
    rw [if_pos hj]
    refine iff_of_false (by simpa using Ne.symm hp) ?_
    split
    · exact fun hm => hapart j hj j hm rfl
    · next hne =>
      -- a region has one origin, so that it is in no other list
      intro hm
      have hboth := (h.origin o ho j).mpr hin
      rw [(h.origin p hp j).mpr hm] at hboth
      exact hne ⟨Option.some.inj hboth, ho⟩
  · rw [if_neg hj, h.origin p hp j]
    split
    · next e =>
      rw [e.1, ← hperm.mem_iff, List.mem_append]
      exact or_iff_right hj
    · rfl

theorem leave (h : c.Consistent) {l : GroupList} {taken : List Group} {origins : Array Origin}
    (hl : (c.groups o).Parts taken l)
    (horigins : ∀ j, origins[j]? = if j ∈ taken.flatMap Group.regions then some .invalid
      else c.origins[j]?) :
    ({ c.setGroups o l with origins := origins } : Registry).Consistent := by
  have hcount : l.regionCount = l.regions.length := by
    have hlen := hl.regions.length_eq
    rw [List.length_append] at hlen
    rw [hl.count, h.count o, ← GroupList.length_regions, ← hlen, Nat.add_sub_cancel_left]
  have hgroups : ∀ p, ({ c.setGroups o l with origins := origins } : Registry).groups p =
      if p = o ∧ o ≠ .invalid then l else c.groups p := fun p => by
    cases o <;> cases p <;> rfl
  refine ⟨fun p => ?_, fun p hp j => ?_, fun p => ?_⟩ <;> rw [hgroups]
  · split
    · exact (List.nodup_append.mp (hl.regions.nodup_iff.mpr (h.nodup o))).2.1
    · exact h.nodup p
  · exact h.origin_leave hl.regions horigins hp j
  · split
    · exact hcount
    · exact h.count p

end Consistent

end Registry

namespace Selection

variable {s s' : Selection} {i : Nat} {o : Origin} {taken : List Group}

/-- The registry with the group that is still growing in the list already. -/
def Building.whole (b : Building) : Registry := { b.registry with
  marking := ⟨b.groups, b.registry.marking.regionCount + b.group.length⟩ }

theorem Building.add_whole {b b' : Building} {c : Candidate} (h : b.add c = .ok b') :
    b.whole.origins[c.region]? = some .invalid ∧
      b'.whole.origins = b.whole.origins.setIfInBounds c.region .marking ∧
      b'.whole.marking.regions = b.whole.marking.regions ++ [c.region] ∧
      b'.whole.marking.regionCount = b.whole.marking.regionCount + 1 ∧
      b'.whole.retained = b.whole.retained := by
  obtain ⟨r, t, g, -, -, hinvalid, -, hadd, hcases⟩ := Building.add_eq_ok h
  obtain ⟨-, -, -, -, hgroup, -⟩ := Group.add_eq_ok hadd
  refine ⟨hinvalid, ?_⟩
  obtain ⟨-, rfl, hregistry⟩ | ⟨hcreate, marking, happend, hregistry⟩ := hcases
  · simp only [whole, groups, hregistry, hgroup, GroupList.regions, Group.regions, Group.length,
      List.flatMap_append, List.flatMap_cons, List.flatMap_nil, List.map_append, List.append_assoc,
      List.length_append, List.append_nil]
    exact ⟨trivial, rfl, (Nat.add_assoc ..).symm, trivial⟩
  · obtain ⟨-, -, rfl⟩ := GroupList.append_eq_ok happend
    have hg : g.members = [] := congrArg (fun p => p.1.members) hcreate
    simp only [whole, groups, hregistry, hgroup, hg, GroupList.regions, Group.regions, Group.length,
      List.flatMap_append, List.flatMap_cons, List.flatMap_nil, List.append_assoc,
      List.append_nil]
    exact ⟨trivial, rfl, rfl, trivial⟩

/-- The regions of the candidates join the marking, in whichever groups. -/
theorem Building.regions_addAll {cs : List Candidate} {b b' : Building}
    (h : cs.foldlM Building.add b = .ok b') :
    b'.whole.marking.regions = b.whole.marking.regions ++ cs.map Candidate.region ∧
      b'.whole.retained = b.whole.retained := by
  induction cs generalizing b with
  | nil =>
    obtain rfl := Except.ok.inj h
    simp
  | cons c cs ih =>
    rw [List.foldlM_cons] at h
    obtain ⟨b₁, hadd, hrest⟩ := Checked.bind_eq_ok.mp h
    obtain ⟨-, -, hregions, -, hretained⟩ := Building.add_whole hadd
    obtain ⟨hregions', hretained'⟩ := ih hrest
    exact ⟨by simp [hregions', hregions], hretained'.trans hretained⟩

theorem Building.consistent_add {b b' : Building} {c : Candidate} (hb : b.whole.Consistent)
    (h : b.add c = .ok b') : b'.whole.Consistent := by
  obtain ⟨hinvalid, horigins, hregions, hcount, hretained⟩ := Building.add_whole h
  refine hb.enter (o := .marking) (by decide) hinvalid horigins hregions hcount fun p hp => ?_
  cases p with
  | invalid => rfl
  | marking => contradiction
  | retained => exact hretained

theorem consistent_fromMarking {cs : List Candidate} (hc : s.candidates.Consistent)
    (h : s.fromMarking cs = .ok s') : s'.candidates.Consistent := by
  obtain ⟨-, rfl⟩ | ⟨size, b, hb, -, marking, happend, rfl⟩ := fromMarking_eq_ok h
  · exact hc
  · have hstart : (Building.mk s.candidates (Group.create s.table).2 (Group.create s.table).1
        size).whole.Consistent := by
      refine hc.of_perm rfl (fun p => ?_) fun p => by cases p <;> rfl
      cases p with
      | marking => simp [Registry.groups, Building.whole, Building.groups, GroupList.regions,
          Group.create, Group.regions]
      | invalid | retained => exact .refl _
    have hend := Checked.Leaves.foldlM (P := fun b : Building => b.whole.Consistent)
      (fun b c hb b' h => Building.consistent_add hb h) cs hstart b hb
    obtain ⟨-, -, rfl⟩ := GroupList.append_eq_ok happend
    exact hend.of_perm rfl (fun p => by cases p <;> exact .refl _) fun p => by cases p <;> rfl

theorem consistent_retain (hc : s.candidates.Consistent) (h : s.retain i = .ok s') :
    s'.candidates.Consistent := by
  obtain ⟨e, g, t, hinvalid, -, hadd, retained, happend, rfl⟩ := retain_eq_ok h
  obtain ⟨-, -, -, -, rfl, -⟩ := Group.add_eq_ok hadd
  obtain ⟨-, -, rfl⟩ := GroupList.append_eq_ok happend
  refine hc.enter (o := .retained) (by decide) hinvalid rfl ?_ rfl fun p hp => ?_
  · simp [Registry.groups, GroupList.regions, Group.create, Group.regions]
  · cases p with
    | invalid | marking => rfl
    | retained => contradiction

theorem consistent_sortMarking (hc : s.candidates.Consistent) (h : s.sortMarking = .ok s') :
    s'.candidates.Consistent := by
  obtain ⟨marking, hp, rfl⟩ := sortMarking_eq_ok h
  refine hc.of_perm rfl (fun p => ?_) fun p => ?_ <;> cases p
  · exact .refl _
  · exact hp.regions
  · exact .refl _
  · rfl
  · exact hp.count
  · rfl

theorem consistent_sortRetained (hc : s.candidates.Consistent) (h : s.sortRetained = .ok s') :
    s'.candidates.Consistent := by
  obtain ⟨retained, hp, rfl⟩ := sortRetained_eq_ok h
  refine hc.of_perm rfl (fun p => ?_) fun p => ?_ <;> cases p
  · exact .refl _
  · exact .refl _
  · exact hp.regions
  · rfl
  · rfl
  · exact hp.count

theorem consistent_clear (h : s.clear = .ok s') : s'.candidates.Consistent := by
  obtain ⟨t, rfl, -⟩ := clear_eq_ok h
  have hinvalid : (s.candidates.origins.map fun _ => Origin.invalid) =
      Array.replicate s.candidates.origins.size .invalid := Array.map_const'
  refine (Registry.Consistent.initial s.candidates.origins.size).of_perm hinvalid
    (fun p => by cases p <;> exact .refl _) fun p => by cases p <;> rfl

theorem consistent_takeOut {rest : GroupList} {spent : Bool} (hc : s.candidates.Consistent)
    (hp : (s.candidates.groups o).Parts taken rest)
    (h : s.takeOut o taken rest spent = .ok s') : s'.candidates.Consistent := by
  obtain ⟨t, origins, -, rfl, -, horigins⟩ := takeOut_eq_ok h
  exact hc.leave hp horigins

/-- Every operation keeps the registry consistent, but for dropping groups whose regions are not
forgotten. -/
theorem Performs.consistent {op : Operation} (hop : ∀ list, op ≠ .abandon list)
    (hc : s.candidates.Consistent) (h : s.Performs op taken s') : s'.candidates.Consistent := by
  cases h with
  | fromMarking h => exact consistent_fromMarking hc h
  | retain h => exact consistent_retain hc h
  | sortMarking h => exact consistent_sortMarking hc h
  | sortRetained h => exact consistent_sortRetained hc h
  | clear h => exact consistent_clear h
  | abandon h => exact absurd rfl (hop _)
  | takeFirst hp h => exact consistent_takeOut hc hp h
  | take hp h => exact consistent_takeOut hc hp h

theorem Building.size_add {b b' : Building} {c : Candidate} (h : b.add c = .ok b') :
    b'.registry.origins.size = b.registry.origins.size := by
  obtain ⟨r, t, g, -, -, -, -, -, ⟨-, -, h⟩ | ⟨-, marking, -, h⟩⟩ := Building.add_eq_ok h <;>
    simp [h]

theorem Performs.size {op : Operation} (h : s.Performs op taken s') :
    s'.candidates.origins.size = s.candidates.origins.size := by
  cases h with
  | fromMarking h =>
    obtain ⟨-, rfl⟩ | ⟨size, b, hb, -, marking, happend, rfl⟩ := fromMarking_eq_ok h
    · rfl
    · exact Checked.Leaves.foldlM
        (P := fun b : Building => b.registry.origins.size = s.candidates.origins.size)
        (fun b c hb b' h => (Building.size_add h).trans hb) _ (by rfl) b hb
  | retain h =>
    obtain ⟨e, g, t, -, -, -, retained, -, rfl⟩ := retain_eq_ok h
    simp
  | sortMarking h =>
    obtain ⟨marking, -, rfl⟩ := sortMarking_eq_ok h
    rfl
  | sortRetained h =>
    obtain ⟨retained, -, rfl⟩ := sortRetained_eq_ok h
    rfl
  | clear h =>
    obtain ⟨t, rfl, -⟩ := clear_eq_ok h
    simp
  | abandon h =>
    obtain ⟨t, -, rfl⟩ := abandonGroups_eq_ok h
    simp
  | takeFirst _ h | take _ h =>
    obtain ⟨t, origins, -, rfl, hsize, -⟩ := takeOut_eq_ok h
    exact hsize

theorem allot_eq_ok {n : Nat} {c : Registry} (h : ({} : Registry).allot n = .ok c) :
    c = .initial n := by
  simp only [Registry.allot, Table.replicate, Checked.bind_eq_ok, Checked.pure_eq,
    Except.ok.injEq] at h
  obtain ⟨-, -, _, ⟨-, -, rfl⟩, rfl⟩ := h
  rfl

/-- Whatever is done with a new registry, its groups and its map of origins tell the same. -/
theorem run_consistent {n : Nat} {ops : List Operation}
    (hnew : ({} : Registry).allot n = .ok s.candidates) (hops : ∀ list, .abandon list ∉ ops)
    (hrun : s.run ops = .ok (taken, s')) :
    s'.candidates.regions.Nodup ∧
    (∀ i, i < n → s'.candidates.origin i = .ok
      (if i ∈ s'.candidates.marking.regions then .marking
        else if i ∈ s'.candidates.retained.regions then .retained else .invalid)) ∧
    s'.candidates.marking.regionCount = GroupList.totalLength s'.candidates.marking.groups ∧
    s'.candidates.retained.regionCount = GroupList.totalLength s'.candidates.retained.groups ∧
    s'.candidates.length = s'.candidates.regions.length ∧
    (∀ i, i ∈ s'.candidates.regions ↔ s'.candidates.contains i = .ok true) ∧
    s'.candidates.verify = .ok () ∧
    (∀ s'', s'.sortMarking = .ok s'' → ∃ l, s'.candidates.marking.Permuted l ∧
      s'' = { s' with candidates := { s'.candidates with marking := l } }) ∧
    ∀ s'', s'.sortRetained = .ok s'' → ∃ l, s'.candidates.retained.Permuted l ∧
      s'' = { s' with candidates := { s'.candidates with retained := l } } := by
  have hinitial := allot_eq_ok hnew
  obtain ⟨hc, hsize⟩ := run_induction
    (P := fun _ s => s.candidates.Consistent ∧ s.candidates.origins.size = n)
    (fun _ s op _ s₁ hop ⟨hc, hsize⟩ h =>
      ⟨h.consistent (fun list e => hops list (e ▸ hop)) hc, h.size.trans hsize⟩)
    (fun _ s c s₁ ⟨hc, hsize⟩ h => by
      rw [change_candidates h]
      exact ⟨hc, hsize⟩)
    ⟨hinitial ▸ .initial n, by simp [hinitial, Registry.initial]⟩ hrun
  refine ⟨hc.regions_nodup, fun i hi => Table.get_eq_ok.mpr (hc.origin_eq (hsize ▸ hi)),
    hc.count_groups .marking, hc.count_groups .retained, hc.length, fun i => ⟨fun hi => ?_,
    fun hi => ?_⟩, hc.verify, fun s'' h => sortMarking_eq_ok h, fun s'' h => sortRetained_eq_ok h⟩
  · rw [hc.contains_eq (hc.lt_of_mem hi), decide_eq_true hi]
  · obtain ⟨o, ho, -⟩ := Registry.contains_eq_ok.mp hi
    rw [hc.contains_eq (Array.getElem?_eq_some_iff.mp ho).1] at hi
    simpa using hi

/-- Four free regions, of which none is a candidate. -/
def sample : Checked Selection := do
  let config ← CardSet.configuration { period := 128, delay := 2 }
    { threads := 1, regionSize := 65536 }
  let table ← RegionTable.create (1 <<< 32) 4 65536 config
  return { table := table, candidates := ← ({} : Registry).allot 4, policy := {} }

/-- Two groups of a marking, of which the first is collected, and two retained regions, of which
one is. On the way a reference is recorded, a region is cleared, and the policy changes. -/
def sampleOperations : List Operation :=
  [.between (.record 1 4096),
    .fromMarking [{ region := 0, efficiency := 2 }, { region := 2, efficiency := 1 }], .retain 1,
    .takeFirst .marking 1 true, .between (.clear 0), .sortMarking,
    .between (.policy { mixedTarget := 3 }), .retain 3, .take .retained [2] false, .sortRetained]

theorem sample_candidates (h : sample = .ok s) : ({} : Registry).allot 4 = .ok s.candidates := by
  simp only [sample, Checked.bind_eq_ok, Checked.pure_eq, Except.ok.injEq] at h
  obtain ⟨config, -, table, -, c, hc, rfl⟩ := h
  exact hc

theorem sample_runs : ∃ s taken s', sample = .ok s ∧ s.run sampleOperations = .ok (taken, s') := by
  have hsome : (sample >>= fun s => s.run sampleOperations).toOption.isSome = true := by
    decide +kernel
  obtain ⟨p, hp⟩ := Option.isSome_iff_exists.mp hsome
  obtain ⟨s, hs, hrun⟩ := Checked.bind_eq_ok.mp (Checked.toOption_eq_some.mp hp)
  exact ⟨s, p.1, p.2, hs, hrun⟩

theorem sample_consistent : ∃ (s : Selection) (taken : List Group) (s' : Selection),
    ({} : Registry).allot 4 = .ok s.candidates ∧ (∀ list, .abandon list ∉ sampleOperations) ∧
    s.run sampleOperations = .ok (taken, s') ∧
    s'.candidates.regions.Nodup ∧ s'.candidates.verify = .ok () := by
  obtain ⟨s, taken, s', hs, hrun⟩ := sample_runs
  have hops : ∀ list, .abandon list ∉ sampleOperations := by simp [sampleOperations]
  obtain ⟨hnodup, -, -, -, -, -, hverify, -⟩ := run_consistent (sample_candidates hs) hops hrun
  exact ⟨s, taken, s', sample_candidates hs, hops, hrun, hnodup, hverify⟩

end Selection

end RegionHeap
