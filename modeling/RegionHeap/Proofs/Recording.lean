import RegionHeap.Proofs.CardSets
import RegionHeap.Proofs.Sharing

/-!
Recording references. The card of a slot comes into the set that the region shares, or else into its
own, and all other sets stay as they are.
-/
set_option autoImplicit false

namespace RegionHeap

namespace RegionTable

variable {t t' : RegionTable} {i slot : Nat} {new : Bool}

/-- Records references, each from a slot into a region. -/
def addReferences (t : RegionTable) (refs : List (Nat × Nat)) : Checked RegionTable :=
  refs.foldlM (fun t r => return (← t.addReference r.1 r.2).2) t

/-- A card comes into the set that the region shares, or else into its own. -/
theorem addReference_eq_ok (h : t.addReference i slot = .ok (new, t')) : i < t.size ∧
    ((∃ id cards, (t.region i).remSet.group = some id ∧ id < t.shared.sets.size ∧
      ((Table.entry t.shared.sets id).withRounds t.shared.rounds).add (Address.card slot) =
        .ok (new, cards) ∧ t' = (t.putCards id cards cards.rounds).put i (t.region i)) ∨
    (t.region i).remSet.group = none ∧ ∃ own,
      ((t.region i).remSet.own.withRounds t.shared.rounds).add (Address.card slot) =
        .ok (new, own) ∧ t' = (t.withRounds own.rounds).put i { t.region i with
          remSet := { (t.region i).remSet with own := own } }) := by
  simp only [addReference, Checked.bind_eq_ok] at h
  obtain ⟨r, hr, ⟨new', remSet, shared⟩, hadd, h⟩ := h
  obtain ⟨hi, rfl⟩ := get_eq_ok hr
  refine ⟨hi, ?_⟩
  obtain ⟨t₁, hset, h⟩ := h
  obtain ⟨-, rfl⟩ := set_eq_ok hset
  clear hset
  obtain ⟨rfl, rfl⟩ : new' = new ∧ _ = t' := by simpa using h
  cases hg : (t.region i).remSet.group with
  | some id =>
    simp only [RemSet.add, hg, SharedCards.add, Checked.bind_eq_ok, Checked.pure_eq,
      Except.ok.injEq, Prod.mk.injEq] at hadd
    obtain ⟨_, ⟨set, hget, ⟨new, cards⟩, hcards, sets, hsets, rfl⟩, rfl, rfl, rfl⟩ := hadd
    obtain ⟨hid, rfl⟩ := cards_eq_ok hget
    obtain rfl : (t.putCards id cards t.shared.rounds).shared = sets := by
      simp [SharedCards.set, Table.set_of_lt hid] at hsets
      exact hsets
    exact .inl ⟨id, cards, rfl, hid, hcards, rfl⟩
  | none =>
    simp only [RemSet.add, hg, Checked.bind_eq_ok, Checked.pure_eq, Except.ok.injEq,
      Prod.mk.injEq] at hadd
    obtain ⟨⟨new, own⟩, hown, rfl, rfl, rfl⟩ := hadd
    exact .inr ⟨rfl, own, hown, by simp only [hg, withRounds]⟩

theorem addReference_region (h : t.addReference i slot = .ok (new, t')) (j : Nat) :
    ∃ own, t'.region j = { t.region j with remSet := { (t.region j).remSet with own := own } } ∧
      (i ≠ j → own = (t.region j).remSet.own) := by
  obtain ⟨hi, ⟨id, cards, -, -, -, rfl⟩ | ⟨-, own, -, rfl⟩⟩ := addReference_eq_ok h
  · refine ⟨(t.region j).remSet.own, ?_, fun _ => rfl⟩
    rw [region_put (t := t.putCards ..) hi]
    split
    · next e => rw [e]
    · rfl
  · rw [region_put (t := t.withRounds own.rounds) hi]
    split
    · next e => exact ⟨own, by rw [e], fun hne => absurd e hne⟩
    · exact ⟨(t.region j).remSet.own, rfl, fun _ => rfl⟩

theorem addReference_group (h : t.addReference i slot = .ok (new, t')) : t'.size = t.size ∧
    t'.shared.sets.size = t.shared.sets.size ∧
      ∀ j, (t'.region j).remSet.group = (t.region j).remSet.group := by
  have hgroup : ∀ j, (t'.region j).remSet.group = (t.region j).remSet.group := fun j => by
    obtain ⟨own, hregion, -⟩ := addReference_region h j
    rw [hregion]
  obtain ⟨-, ⟨id, cards, -, -, -, rfl⟩ | ⟨-, own, -, rfl⟩⟩ := addReference_eq_ok h
  · exact ⟨size_put .., by simp [putCards], hgroup⟩
  · exact ⟨size_put .., rfl, hgroup⟩

theorem addReference_set {id : Nat} {xs : List Nat} (h : t.addReference i slot = .ok (new, t'))
    (hxs : (Table.entry t.shared.sets id).Represents xs) :
    ∃ ys, (Table.entry t'.shared.sets id).Represents ys ∧
      ∀ x, x ∈ ys ↔ x ∈ xs ∨ (t.region i).remSet.group = some id ∧ Address.card slot = x := by
  obtain ⟨hi, ⟨k, cards, hk, hlt, hadd, rfl⟩ | ⟨hnone, own, -, rfl⟩⟩ := addReference_eq_ok h
  · by_cases hid : k = id
    · subst hid
      have hys := (hxs.withRounds t.shared.rounds).add hadd
      refine ⟨_, (Table.entry_set_self hlt cards).symm ▸ hys, fun x => ?_⟩
      split
      · next hc =>
        exact ⟨.inl, fun hx => hx.elim id fun he => he.2 ▸ hc⟩
      · rw [List.mem_append, List.mem_singleton]
        simp [hk, eq_comm]
    · refine ⟨xs, (Table.entry_set_of_ne t.shared.sets hid cards).symm ▸ hxs, fun x => ?_⟩
      simp [hk, hid]
  · exact ⟨xs, hxs, fun x => by simp [hnone]⟩

theorem addReferences_set {id : Nat} {xs : List Nat} {refs : List (Nat × Nat)}
    (h : t.addReferences refs = .ok t') (hxs : (Table.entry t.shared.sets id).Represents xs) :
    t'.shared.sets.size = t.shared.sets.size ∧
    (∀ j, (t'.region j).remSet.group = (t.region j).remSet.group) ∧
    ∃ ys, (Table.entry t'.shared.sets id).Represents ys ∧ ∀ x, x ∈ ys ↔ x ∈ xs ∨
      ∃ r ∈ refs, (t.region r.1).remSet.group = some id ∧ Address.card r.2 = x := by
  induction refs generalizing t xs with
  | nil =>
    obtain rfl : t = t' := Except.ok.inj h
    exact ⟨rfl, fun _ => rfl, xs, hxs, by simp⟩
  | cons r refs ih =>
    rw [addReferences, List.foldlM_cons] at h
    obtain ⟨t₁, hfirst, hrest⟩ := Checked.bind_eq_ok.mp h
    obtain ⟨⟨new, t₂⟩, hadd, h₁⟩ := Checked.bind_eq_ok.mp hfirst
    obtain rfl : t₂ = t₁ := Except.ok.inj h₁
    obtain ⟨-, hsize, hgroup⟩ := addReference_group hadd
    obtain ⟨ys, hys, hmem⟩ := addReference_set hadd hxs
    obtain ⟨hsize', hgroup', zs, hzs, hmem'⟩ := ih hrest hys
    refine ⟨hsize'.trans hsize, fun j => (hgroup' j).trans (hgroup j), zs, hzs, fun x => ?_⟩
    rw [hmem', hmem, or_assoc]
    simp only [hgroup, List.mem_cons, exists_eq_or_imp]

/-- With room for its card, and if the set that its region shares is there, a reference can be
recorded. -/
theorem addReference_of (hroom : t.Roomy)
    (hknown : ∀ j id, (t.region j).remSet.group = some id → id < t.shared.sets.size)
    (hi : i < t.size) (slot : Nat) :
    ∃ new t', t.addReference i slot = .ok (new, t') ∧ t'.Roomy := by
  cases hg : (t.region i).remSet.group with
  | some id =>
    have hid := hknown i id hg
    obtain ⟨new, cards, hadd, hfits⟩ :=
      ((hroom.shared id hid).withRounds t.shared.rounds).add (Address.card slot)
    have hget : t.shared.get id = .ok (Table.entry t.shared.sets id) := Table.get_of_lt hid
    refine ⟨new, (t.putCards id cards cards.rounds).put i (t.region i), ?_,
      (hroom.putCards hfits id _).put (hroom.own i hi) i⟩
    simp only [addReference, get_of_lt hi, Checked.ok_bind, RemSet.add, hg, SharedCards.add, hget,
      hadd, SharedCards.set, Table.set_of_lt hid, Checked.pure_eq]
    exact Checked.bind_of (set_of_lt (t := t.putCards id cards cards.rounds) hi _) _
  | none =>
    obtain ⟨new, own, hadd, hfits⟩ :=
      ((hroom.own i hi).withRounds t.shared.rounds).add (Address.card slot)
    have hroom' : (t.withRounds own.rounds).Roomy := ⟨hroom.config, hroom.own, hroom.shared⟩
    refine ⟨new, (t.withRounds own.rounds).put i { t.region i with
      remSet := { (t.region i).remSet with own := own } }, ?_, hroom'.put hfits i⟩
    simp only [addReference, get_of_lt hi, Checked.ok_bind, RemSet.add, hg, hadd, Checked.pure_eq]
    exact Checked.bind_of (set_of_lt (t := t.withRounds own.rounds) hi _) _

/-- With room for cards, and with all shared sets there, every reference can be recorded. -/
theorem addReferences_of (hroom : t.Roomy)
    (hknown : ∀ j, ∀ id, (t.region j).remSet.group = some id → id < t.shared.sets.size)
    {refs : List (Nat × Nat)} (hrefs : ∀ r ∈ refs, r.1 < t.size) :
    ∃ t', t.addReferences refs = .ok t' := by
  obtain ⟨t', h, -⟩ := Checked.foldlM_of
    (f := fun t (r : Nat × Nat) => do return (← addReference t r.1 r.2).2)
    (fun rest t => t.Roomy ∧ (∀ r ∈ rest, r.1 < t.size) ∧
      ∀ j id, (t.region j).remSet.group = some id → id < t.shared.sets.size)
    (fun r rest t ⟨hroom, hrefs, hknown⟩ => by
      obtain ⟨new, t', hadd, hroom'⟩ := addReference_of hroom hknown (hrefs r (by simp)) r.2
      obtain ⟨hsize, hsets, hgroup⟩ := addReference_group hadd
      refine ⟨t', (Checked.bind_of hadd _).trans rfl, hroom', fun k hk => ?_, fun j id hid => ?_⟩
      · exact hsize ▸ hrefs k (by simp [hk])
      · exact hsets ▸ hknown j id (hgroup j ▸ hid))
    refs t ⟨hroom, hrefs, hknown⟩
  exact ⟨t', h⟩

theorem contains_of_shared {i id : Nat} {xs : List Nat} (hg : (t.region i).remSet.group = some id)
    (hid : id < t.shared.sets.size) (h : (Table.entry t.shared.sets id).Represents xs)
    (slot : Nat) : (t.region i).remSet.contains t.shared slot =
      .ok (decide (Address.card slot ∈ xs)) := by
  have hget : t.shared.get id = .ok (Table.entry t.shared.sets id) := Table.get_of_lt hid
  simp only [RemSet.contains, RemSet.active, hg, hget, Checked.ok_bind, h.contains, Checked.pure_eq]

/-- Every region has a set of cards, and the set that it shares is there. -/
structure Remembers (t : RegionTable) : Prop where
  own : ∀ i, i < t.size → ∃ xs, (t.region i).remSet.own.Represents xs
  known : ∀ i id, (t.region i).remSet.group = some id → id < t.shared.sets.size

namespace Remembers

theorem create {start count bytes : Nat} {config : CardConfig}
    (h : create start count bytes config = .ok t) : t.Remembers := by
  obtain ⟨hsize, -, -, hregions⟩ := create_eq_ok h
  have hnew : ∀ i, i < t.size → (t.region i).remSet = .create config := fun i hi =>
    (hregions i (hsize ▸ hi)).2.2
  refine ⟨fun i hi => ⟨[], hnew i hi ▸ .create config⟩, fun i id hg => ?_⟩
  rw [hnew i (lt_of_group hg)] at hg
  contradiction

theorem addReference (h : t.Remembers)
    (ha : t.addReference i slot = .ok (new, t')) : t'.Remembers := by
  obtain ⟨hsize, hsets, hgroup⟩ := addReference_group ha
  refine ⟨fun j hj => ?_, fun j id hj => hsets ▸ h.known j id (hgroup j ▸ hj)⟩
  rw [hsize] at hj
  obtain ⟨xs, hxs⟩ := h.own j hj
  obtain ⟨hi, ⟨id, cards, -, -, -, rfl⟩ | ⟨-, own, hown, rfl⟩⟩ := addReference_eq_ok ha
  · refine ⟨xs, ?_⟩
    rw [region_put (t := t.putCards ..) hi]
    split
    · next e => exact e ▸ hxs
    · exact hxs
  · rw [region_put (t := t.withRounds own.rounds) hi]
    split
    · next e =>
      subst e
      exact ⟨_, (hxs.withRounds _).add hown⟩
    · exact ⟨xs, hxs⟩

theorem addReferences {refs : List (Nat × Nat)} (h : t.Remembers)
    (ha : t.addReferences refs = .ok t') : t'.Remembers :=
  Checked.Leaves.foldlM (P := Remembers)
    (fun _ _ h => .bind_any fun _ hadd => .ok (h.addReference hadd)) refs h t' ha

end Remembers

end RegionTable

end RegionHeap
