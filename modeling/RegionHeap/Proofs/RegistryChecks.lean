import RegionHeap.Candidates.TaggedRegistry
import RegionHeap.Proofs.Candidates

/-!
What a registry has to be like to pass its check. The check passes exactly the registries whose map
and lists agree, whatever state they were brought into; and on the map of a registry of the library
it is the check that the library makes.
-/
set_option autoImplicit false

namespace RegionHeap

namespace TaggedRegistry

variable {c : TaggedRegistry} {o : Origin} {s s' : ListCheck} {i : Nat}

/-- The map of a check with some more regions tagged. -/
def tagAll (met : Array OriginTag) (regions : List Nat) : Array OriginTag :=
  regions.foldl (fun met i => met.set! i .verify) met

@[simp] theorem size_tagAll (met : Array OriginTag) (regions : List Nat) :
    (tagAll met regions).size = met.size := by
  induction regions generalizing met with
  | nil => rfl
  | cons i rest ih => exact (ih _).trans (by simp)

theorem getElem?_tagAll (met : Array OriginTag) (regions : List Nat) (j : Nat) :
    (tagAll met regions)[j]? = if j ∈ regions ∧ j < met.size then some .verify else met[j]? := by
  induction regions generalizing met with
  | nil => simp [tagAll]
  | cons i rest ih =>
    refine (ih _).trans ?_
    simp only [Array.set!_eq_setIfInBounds, Array.size_setIfInBounds, Array.getElem?_setIfInBounds,
      List.mem_cons]
    by_cases hj : j < met.size
    · by_cases e : i = j
      · simp [e, hj]
      · simp [e, Ne.symm e, hj]
    · have hnone : met[j]? = none := Array.getElem?_eq_none (Nat.not_lt.mp hj)
      by_cases e : i = j
      · simp [e, hj]
      · simp [e, hj]

theorem getElem?_set_verify {met : Array OriginTag} {i j : Nat} :
    (met.set! i .verify)[j]? = some (.origin .invalid) ↔
      i ≠ j ∧ met[j]? = some (.origin .invalid) := by
  rw [Array.set!_eq_setIfInBounds, Array.getElem?_setIfInBounds]
  by_cases e : i = j
  · simp [e]
  · simp [e]

theorem meet_eq_ok : c.meet o s i = .ok s' ↔ c.tags[i]? = some (.origin o) ∧
    s.met[i]? = some (.origin .invalid) ∧
    s' = ⟨s.met.set! i .verify, s.fromMarking + if o = .marking then 1 else 0⟩ := by
  simp only [meet, Checked.bind_eq_ok, Fault.unless_eq_ok, beq_iff_eq, Table.get_eq_ok,
    Checked.pure_eq, Except.ok.injEq]
  constructor
  · rintro ⟨_, hfound, -, rfl, _, hbefore, -, rfl, met, hset, rfl⟩
    have hlt := (Array.getElem?_eq_some_iff.mp hbefore).1
    rw [Table.set, if_pos hlt] at hset
    obtain rfl := Except.ok.inj hset
    refine ⟨hfound, hbefore, ?_⟩
    cases o <;> rfl
  · rintro ⟨hfound, hbefore, rfl⟩
    have hlt := (Array.getElem?_eq_some_iff.mp hbefore).1
    refine ⟨_, hfound, (), rfl, _, hbefore, (), rfl, _, if_pos hlt, ?_⟩
    cases o <;> rfl

theorem meetAll_eq_ok {regions : List Nat} : regions.foldlM (c.meet o) s = .ok s' ↔
    (∀ i ∈ regions, c.tags[i]? = some (.origin o)) ∧ regions.Nodup ∧
    (∀ i ∈ regions, s.met[i]? = some (.origin .invalid)) ∧
    s' = ⟨tagAll s.met regions,
      s.fromMarking + if o = .marking then regions.length else 0⟩ := by
  -- by induction on the list, for any regions that were met before it
  induction regions generalizing s with
  | nil =>
    rw [List.foldlM_nil, Checked.pure_eq, Except.ok.injEq]
    simp [tagAll, eq_comm]
  | cons i rest ih =>
    rw [List.foldlM_cons, Checked.bind_eq_ok]
    have hcount : s.fromMarking + (if o = .marking then 1 else 0) +
        (if o = .marking then rest.length else 0) =
          s.fromMarking + if o = .marking then (i :: rest).length else 0 := by
      split
      · rw [List.length_cons]
        omega
      · rfl
    simp only [meet_eq_ok, ih]
    constructor
    · rintro ⟨_, ⟨hi, hfree, rfl⟩, hrest, hnodup, hmets, rfl⟩
      refine ⟨by simpa using ⟨hi, hrest⟩, List.nodup_cons.mpr ⟨fun hm => ?_, hnodup⟩,
        fun j hj => ?_, by rw [hcount]; rfl⟩
      · exact (getElem?_set_verify.mp (hmets i hm)).1 rfl
      · rcases List.mem_cons.mp hj with rfl | hj
        · exact hfree
        · exact (getElem?_set_verify.mp (hmets j hj)).2
    · rintro ⟨hall, hnodup, hmets, rfl⟩
      obtain ⟨hi, hnodup⟩ := List.nodup_cons.mp hnodup
      have hfree := hmets i (by simp)
      refine ⟨_, ⟨hall i (by simp), hfree, rfl⟩, fun j hj => hall j (by simp [hj]), hnodup,
        fun j hj => getElem?_set_verify.mpr ⟨fun e => hi (e ▸ hj), hmets j (by simp [hj])⟩, ?_⟩
      rw [← hcount]
      rfl

theorem checkList_eq (l : GroupList) (met : Array OriginTag) :
    c.checkList o l met = l.regions.foldlM (c.meet o) { met := met } := by
  obtain ⟨groups, count⟩ := l
  unfold checkList GroupList.regions
  generalize ({ met := met } : ListCheck) = s
  induction groups generalizing s with
  | nil => rfl
  | cons g groups ih => simp only [List.foldlM_cons, List.flatMap_cons, List.foldlM_append, ih]

theorem compare_eq_ok {met : Array OriginTag} {verified found : OriginTag}
    (hv : met[i]? = some verified) (hf : c.tags[i]? = some found) : c.compare met i = .ok () ↔
      found = verified ∨ found ≠ .origin .invalid ∧ verified = .verify := by
  rw [compare, Checked.bind_of (Table.get_eq_ok.mpr hv), Checked.bind_of (Table.get_eq_ok.mpr hf),
    Fault.unless_eq_ok, Bool.or_eq_true, Bool.and_eq_true, beq_iff_eq, beq_iff_eq, bne_iff_ne]

/-- No region is in the lists twice, each has the origin of its list, the others have none, and the
marking's regions are counted right. -/
structure Agrees (c : TaggedRegistry) : Prop where
  once : (c.marking.regions ++ c.retained.regions).Nodup
  marking : ∀ i ∈ c.marking.regions, c.tags[i]? = some (.origin .marking)
  retained : ∀ i ∈ c.retained.regions, c.tags[i]? = some (.origin .retained)
  others : ∀ i, i < c.tags.size → i ∉ c.marking.regions → i ∉ c.retained.regions →
    c.tags[i]? = some (.origin .invalid)
  count : c.marking.regionCount = GroupList.totalLength c.marking.groups

/-- What a check has tagged when it has been through both lists. -/
def metAll (c : TaggedRegistry) : Array OriginTag :=
  tagAll (tagAll (Array.replicate c.tags.size (.origin .invalid)) c.marking.regions)
    c.retained.regions

theorem size_metAll (c : TaggedRegistry) : c.metAll.size = c.tags.size := by simp [metAll]

theorem getElem?_metAll (hi : i < c.tags.size) : c.metAll[i]? =
    some (if i ∈ c.marking.regions ∨ i ∈ c.retained.regions then .verify
      else .origin .invalid) := by
  rw [metAll, getElem?_tagAll, getElem?_tagAll]
  by_cases hm : i ∈ c.marking.regions <;> by_cases hr : i ∈ c.retained.regions <;>
    simp [hi, hm, hr]

theorem compare_metAll (hi : i < c.tags.size) : c.compare c.metAll i = .ok () ↔
    (c.tags[i]? = some (.origin .invalid) ↔
      i ∉ c.marking.regions ∧ i ∉ c.retained.regions) := by
  obtain ⟨found, hfound⟩ : ∃ found, c.tags[i]? = some found := ⟨_, Array.getElem?_eq_getElem hi⟩
  rw [compare_eq_ok (getElem?_metAll hi) hfound, hfound, Option.some.injEq, ← not_or]
  by_cases hlisted : i ∈ c.marking.regions ∨ i ∈ c.retained.regions
  · simp only [hlisted, if_true, not_true, iff_false, and_true]
    exact ⟨fun h e => h.elim (fun h => by rw [h] at e; contradiction) fun h => h e, .inr⟩
  · simp [hlisted]

theorem verify_eq_ok : c.verify = .ok () ↔ c.Agrees := by
  have hlength : c.marking.regions.length = GroupList.totalLength c.marking.groups :=
    GroupList.length_regions _
  simp only [verify, checkList_eq, Checked.bind_eq_ok, meetAll_eq_ok, Fault.unless_eq_ok,
    beq_iff_eq, Checked.forM_eq_ok, List.mem_range]
  constructor
  · rintro ⟨_, ⟨hmarking, hmnodup, -, rfl⟩, -, hcount, _, ⟨hretained, hrnodup, hfree, rfl⟩, -, -,
      hall⟩
    refine ⟨List.nodup_append.mpr ⟨hmnodup, hrnodup, fun i hm j hr e => ?_⟩, hmarking, hretained,
      fun i hi hm hr => ?_, ?_⟩
    · subst e
      have hi := (Array.getElem?_eq_some_iff.mp (hretained i hr)).1
      have hmet := hfree i hr
      rw [getElem?_tagAll, if_pos ⟨hm, by simpa using hi⟩] at hmet
      contradiction
    · exact ((compare_metAll hi).mp (hall i (c.size_metAll.symm ▸ hi))).mpr ⟨hm, hr⟩
    · simpa [← hlength] using hcount.symm
  · intro h
    obtain ⟨hmnodup, hrnodup, hapart⟩ := List.nodup_append.mp h.once
    have hinside : ∀ i ∈ c.marking.regions, i < c.tags.size := fun i hi =>
      (Array.getElem?_eq_some_iff.mp (h.marking i hi)).1
    refine ⟨_, ⟨h.marking, hmnodup, fun i hi => by simp [hinside i hi], rfl⟩, (), ?_, _,
      ⟨h.retained, hrnodup, fun i hi => ?_, rfl⟩, (), by simp, fun i hi => ?_⟩
    · simpa [hlength] using h.count.symm
    · have hlt := (Array.getElem?_eq_some_iff.mp (h.retained i hi)).1
      rw [getElem?_tagAll, if_neg fun hm => hapart i hm.1 i hi rfl]
      simp [hlt]
    · have hi : i < c.tags.size := c.size_metAll ▸ hi
      refine (compare_metAll hi).mpr ⟨fun hinvalid => ⟨fun hm => ?_, fun hr => ?_⟩,
        fun hnot => h.others i hi hnot.1 hnot.2⟩
      · rw [h.marking i hm] at hinvalid
        contradiction
      · rw [h.retained i hr] at hinvalid
        contradiction

end TaggedRegistry

namespace Registry

variable {c : Registry} {o : Origin} {seen : List Nat} {s : ListCheck} {i : Nat}

/-- The map of a check of one list holds the regions that were met, each of which has an origin. -/
structure Met (c : Registry) (o : Origin) (seen : List Nat) (s : ListCheck) : Prop where
  size : s.met.size = c.origins.size
  met : ∀ i, i < c.origins.size →
    s.met[i]? = some (if i ∈ seen then .verify else .origin .invalid)
  listed : ∀ i ∈ seen, c.origins[i]? ≠ some .invalid
  counted : s.fromMarking = if o = .marking then seen.length else 0

theorem Met.cons (m : c.Met o seen s) (hi : c.origins[i]? = some o) (ho : o ≠ .invalid) :
    c.Met o (i :: seen)
      ⟨s.met.set! i .verify, if o = .marking then s.fromMarking + 1 else s.fromMarking⟩ := by
  have hlt := (Array.getElem?_eq_some_iff.mp hi).1
  refine ⟨by simp [m.size], fun j hj => ?_, fun j hj => ?_, ?_⟩
  · rw [Array.set!_eq_setIfInBounds, Array.getElem?_setIfInBounds, m.size, m.met j hj]
    by_cases e : i = j
    · simp [e, hj]
    · simp [e, Ne.symm e]
  · rcases List.mem_cons.mp hj with rfl | hj
    · simpa [hi] using ho
    · exact m.listed j hj
  · rw [m.counted]
    split <;> simp

/-- A region is met alike in the list of those seen and in the map. -/
theorem meet_both (ho : o ≠ .invalid) (m : c.Met o seen s) :
    Checked.Both (c.Met o)
      (do
        let found ← c.origin i
        Fault.unless (found == o) (.groupedAs i (.origin found) o)
        Fault.unless (!seen.contains i) (.inTwoGroups i)
        return i :: seen)
      (c.tagged.meet o s i) := by
  unfold Registry.origin TaggedRegistry.meet Registry.tagged Table.get
  by_cases hi : i < c.origins.size
  · obtain ⟨found, hfound⟩ : ∃ found, c.origins[i]? = some found :=
      ⟨_, Array.getElem?_eq_getElem hi⟩
    have hsame : (OriginTag.origin found == .origin o) = (found == o) := by
      rw [Bool.eq_iff_iff]
      simp
    simp only [Array.getElem?_map, hfound, Option.map_some, Checked.ok_bind, hsame]
    refine Checked.Both.bind_same fun _ hgrouped => ?_
    obtain rfl : found = o := by simpa using Fault.unless_eq_ok.mp hgrouped
    have hfree : ((if i ∈ seen then OriginTag.verify else .origin .invalid) ==
        .origin .invalid) = !seen.contains i := by
      by_cases hm : i ∈ seen <;> simp [hm]
    simp only [m.met i hi, Checked.ok_bind, hfree]
    refine Checked.Both.bind_same fun _ _ => ?_
    rw [Table.set, if_pos (m.size.symm ▸ hi)]
    have hnext := m.cons hfound ho
    refine .ok ?_
    simpa using hnext
  · simp only [Array.getElem?_map, Array.getElem?_eq_none (Nat.not_lt.mp hi), Option.map_none]
    exact .error _

theorem checkList_both (ho : o ≠ .invalid) (l : GroupList) (m : c.Met o seen s) :
    Checked.Both (c.Met o) (c.verifyList o l.regions seen)
      (l.regions.foldlM (c.tagged.meet o) s) := by
  unfold verifyList
  refine Checked.Both.foldlM (fun _ => c.Met o) (fun i _ _ _ m => ?_) _ _ _ m
  exact meet_both ho m

/-- The comparison of the two maps finds fault with a region exactly if it has an origin and was
not met. -/
theorem compare_tagged (m : c.Met o seen s) (hi : i < c.origins.size) :
    c.tagged.compare s.met i = (do
      let found ← c.origin i
      Fault.unless (seen.contains i || found == .invalid)
        (.originDiffers i (.origin found) (.origin .invalid))) := by
  obtain ⟨found, hfound⟩ : ∃ found, c.origins[i]? = some found := ⟨_, Array.getElem?_eq_getElem hi⟩
  have hsame : (OriginTag.origin found == .origin .invalid) = (found == .invalid) := by
    rw [Bool.eq_iff_iff]
    simp
  simp only [TaggedRegistry.compare, Registry.origin, tagged, Table.get, m.met i hi,
    Array.getElem?_map, hfound, Option.map_some, Checked.ok_bind]
  by_cases hm : i ∈ seen
  · have ho : found ≠ .invalid := fun e => m.listed i hm (hfound.trans (congrArg some e))
    simp [hm, ho]
  · have hnever : (OriginTag.origin .invalid == .verify) = false := rfl
    simp [hm, hsame, hnever]

/-- On the map of a registry of the library the check is the one that the library makes, and it
refuses for the same reasons. -/
theorem verify_tagged (c : Registry) : c.verify = c.tagged.verify := by
  have hinitial : c.Met .marking []
      ⟨Array.replicate c.tagged.tags.size (.origin .invalid), 0⟩ :=
    ⟨by simp [tagged], fun i hi => by simp [tagged, hi], by simp, rfl⟩
  refine Checked.Both.eq ?_
  unfold Registry.verify TaggedRegistry.verify
  rw [TaggedRegistry.checkList_eq]
  refine (checkList_both (by decide) c.marking hinitial).bind fun seen s _ m => ?_
  rw [m.counted, if_pos rfl]
  refine Checked.Both.bind_same fun _ _ => ?_
  rw [TaggedRegistry.checkList_eq]
  have hmet : c.Met .retained seen ⟨s.met, 0⟩ := ⟨m.size, m.met, m.listed, rfl⟩
  refine (checkList_both (by decide) c.retained hmet).bind fun seen s _ m => ?_
  rw [m.counted, if_neg (by decide), m.size]
  have hcompare := Checked.forM_congr (List.range c.origins.size) fun i hi =>
    compare_tagged m (List.mem_range.mp hi)
  rw [hcompare]
  exact Checked.Both.same fun _ _ => rfl

end Registry

/-- Whatever the map and the lists say, the check passes exactly if they agree; and this is the
check that a registry makes of itself. -/
theorem TaggedRegistry.check_exact (c : TaggedRegistry) :
    (c.verify = .ok () ↔ c.Agrees) ∧ ∀ r : Registry, r.verify = r.tagged.verify :=
  ⟨verify_eq_ok, Registry.verify_tagged⟩

/-- A region with an origin that is in no group is told of. -/
example : TaggedRegistry.verify ⟨#[.origin .invalid, .origin .marking], {}, {}⟩ =
    .error (.originDiffers 1 (.origin .marking) (.origin .invalid)) := rfl

end RegionHeap
