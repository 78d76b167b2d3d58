import Mathlib.Data.Finset.Card
import RegionHeap.Proofs.Fitting
import RegionHeap.Proofs.Sums

/-!
Card sets are finite sets of numbers. A container holds the offsets of the cards that came into its
region, an array in their order and a bitmap without it, and adding a card or dropping all of them
keeps that up.
-/
set_option autoImplicit false

namespace RegionHeap

theorem Bitmap.get_foldl_insert (b : Bitmap) (xs : List Nat) (j : Nat) :
    (xs.foldl insert b).get j = (b.get j || decide (j ∈ xs)) := by
  induction xs generalizing b with
  | nil => simp
  | cons x xs ih =>
    rw [List.foldl_cons, ih, get_insert]
    by_cases h : x = j
    · simp [h]
    · simp [h, Ne.symm h]

theorem flatMap_pick {α : Type} {ks : List Nat} (h : ks.Nodup) (f : Nat → List α) (r : Nat) :
    (ks.flatMap fun k => if k = r then f k else []) = if r ∈ ks then f r else [] := by
  induction ks with
  | nil => rfl
  | cons k ks ih =>
    obtain ⟨hk, hks⟩ := List.nodup_cons.mp h
    rw [List.flatMap_cons, ih hks]
    by_cases hr : k = r
    · subst hr
      simp [hk]
    · simp [hr, Ne.symm hr]

namespace Container

/-- The container holds these offsets, which came in in this order. -/
inductive Holds : Container → List Nat → Prop where
  | array {slot : Nat} {offsets : List Nat} :
    offsets.length ≤ arrayCapacity → Holds (.array slot offsets) offsets
  | bitmap {slot : Nat} {bits : Bitmap} {offsets : List Nat} :
    arrayCapacity < offsets.length → (∀ o, bits.get o = decide (o ∈ offsets)) →
      Holds (.bitmap slot bits) offsets

variable {c c' : Container} {offsets : List Nat}

theorem Holds.contains (h : c.Holds offsets) (o : Nat) :
    c.contains o = decide (o ∈ offsets) := by
  cases h with
  | array _ => simp [Container.contains]
  | bitmap _ hget => exact hget o

/-- An array that overflows becomes a bitmap of what it held and the new offset. -/
theorem Holds.insert (h : c.Holds offsets) {m m' : CardMemory} {o : Nat}
    (hi : c.insert m o = .ok (c', m')) : c'.Holds (offsets ++ [o]) := by
  cases h with
  | array hlen =>
    by_cases hroom : offsets.length < arrayCapacity
    · simp only [Container.insert, if_pos hroom, Checked.pure_eq, Except.ok.injEq,
        Prod.mk.injEq] at hi
      rw [← hi.1]
      exact .array (by simpa using Nat.succ_le_of_lt hroom)
    · simp only [Container.insert, if_neg hroom, Checked.bind_eq_ok, Checked.pure_eq,
        Except.ok.injEq, Prod.mk.injEq] at hi
      obtain ⟨p, -, hc, -⟩ := hi
      rw [← hc]
      refine .bitmap (by simp; omega) fun j => ?_
      rw [Bitmap.get_foldl_insert]
      simp
  | bitmap hlen hget =>
    simp only [Container.insert, Checked.pure_eq, Except.ok.injEq, Prod.mk.injEq] at hi
    rw [← hi.1]
    refine .bitmap (by simp; omega) fun j => ?_
    rw [Bitmap.get_insert, hget]
    by_cases hj : o = j
    · simp [hj]
    · simp [hj, Ne.symm hj]

end Container

namespace CardSet

section Containers

variable {l : List (Nat × Container)}

theorem lookup_entry (k : Nat) (d : Container) (l : List (Nat × Container)) (r : Nat) :
    ((k, d) :: l).lookup r = if r = k then some d else l.lookup r := by
  by_cases h : r = k
  · simp [h]
  · have hne : (r == k) = false := by simpa using h
    simp [List.lookup_cons, h, hne]

theorem lookup_put (region : Nat) (c : Container) (l : List (Nat × Container)) (r : Nat) :
    (put region c l).lookup r = if r = region then some c else l.lookup r := by
  induction l with
  | nil => simp only [put, lookup_entry]
  | cons p l ih =>
    obtain ⟨k, d⟩ := p
    unfold put
    split
    · exact lookup_entry ..
    · split
      · next h =>
        subst h
        rw [lookup_entry, lookup_entry]
        split <;> rfl
      · next h =>
        rw [lookup_entry, lookup_entry, ih]
        by_cases hk : r = k
        · subst hk
          simp [Ne.symm h]
        · simp [hk]

theorem mem_put {region : Nat} {c : Container} {p : Nat × Container} (h : p ∈ put region c l) :
    p.1 = region ∨ p ∈ l := by
  induction l with
  | nil =>
    rw [List.mem_singleton.mp h]
    exact .inl rfl
  | cons q l ih =>
    unfold put at h
    split at h
    · rcases List.mem_cons.mp h with rfl | h
      · exact .inl rfl
      · exact .inr h
    · split at h
      · rcases List.mem_cons.mp h with rfl | h
        · exact .inl rfl
        · exact .inr (List.mem_cons_of_mem _ h)
      · rcases List.mem_cons.mp h with rfl | h
        · exact .inr (List.mem_cons_self ..)
        · exact (ih h).imp id (List.mem_cons_of_mem _)

theorem ascending_put (h : l.Pairwise fun a b => a.1 < b.1) (region : Nat) (c : Container) :
    (put region c l).Pairwise fun a b => a.1 < b.1 := by
  induction l with
  | nil => simp [put]
  | cons p l ih =>
    obtain ⟨hp, hl⟩ := List.pairwise_cons.mp h
    unfold put
    split
    · next hlt =>
      refine List.pairwise_cons.mpr ⟨fun q hq => ?_, h⟩
      rcases List.mem_cons.mp hq with rfl | hq
      · exact hlt
      · exact Nat.lt_trans hlt (hp q hq)
    · split
      · next he => exact List.pairwise_cons.mpr ⟨fun q hq => he ▸ hp q hq, hl⟩
      · refine List.pairwise_cons.mpr ⟨fun q hq => ?_, ih hl⟩
        rcases mem_put hq with he | hq
        · rw [he]
          simp only at *
          omega
        · exact hp q hq

theorem mem_iff_lookup (h : l.Pairwise fun a b => a.1 < b.1) {r : Nat} {c : Container} :
    (r, c) ∈ l ↔ l.lookup r = some c := by
  induction l with
  | nil => simp
  | cons p l ih =>
    obtain ⟨k, d⟩ := p
    obtain ⟨hp, hl⟩ := List.pairwise_cons.mp h
    rw [lookup_entry, List.mem_cons]
    by_cases hr : r = k
    · subst hr
      have hnone : (r, c) ∉ l := fun hc => Nat.lt_irrefl _ (hp (r, c) hc)
      simp [hnone, eq_comm]
    · simp [hr, ih hl]

end Containers

/-- A region's cards are visited in the order in which they came in while they are few, and in
ascending order once there are more. -/
def visitOrder (own : List Nat) : List Nat :=
  if own.length ≤ 15 then own else own.mergeSort (· ≤ ·)

theorem visitOrder_perm (own : List Nat) : (visitOrder own).Perm own := by
  unfold visitOrder
  split
  · exact .refl _
  · exact List.mergeSort_perm own _

/-- The cards that lie in a region. -/
def inRegion (s : CardSet) (xs : List Nat) (region : Nat) : List Nat :=
  xs.filter fun x => s.regionOf x == region

/-- The set holds these cards, which came in in this order. -/
structure Represents (s : CardSet) (xs : List Nat) : Prop where
  nodup : xs.Nodup
  occupied : s.occupied = xs.length
  ascending : s.containers.Pairwise fun a b => a.1 < b.1
  missing : ∀ r, s.containers.lookup r = none ↔ s.inRegion xs r = []
  holds : ∀ r c, s.containers.lookup r = some c → c.Holds ((s.inRegion xs r).map s.offsetOf)

section Cards

variable {s s' : CardSet} {xs : List Nat} {card : Nat} {new : Bool}

theorem cardsPerRegion_pos (s : CardSet) : 0 < s.config.cardsPerRegion := by
  rw [CardConfig.cardsPerRegion, Nat.one_shiftLeft]
  exact Nat.two_pow_pos _

theorem regionOf_eq (s : CardSet) (card : Nat) :
    s.regionOf card = card / s.config.cardsPerRegion := by
  rw [regionOf, CardConfig.cardsPerRegion, Nat.one_shiftLeft, Nat.shiftRight_eq_div_pow]

theorem card_eq (s : CardSet) (card : Nat) :
    s.regionOf card * s.config.cardsPerRegion + s.offsetOf card = card := by
  rw [regionOf_eq, offsetOf]
  exact Nat.div_add_mod' ..

theorem mem_inRegion {r : Nat} : card ∈ s.inRegion xs r ↔ card ∈ xs ∧ s.regionOf card = r := by
  simp [inRegion]

theorem offsetOf_mem {r : Nat} (hr : s.regionOf card = r) :
    s.offsetOf card ∈ (s.inRegion xs r).map s.offsetOf ↔ card ∈ xs := by
  simp only [List.mem_map, mem_inRegion]
  refine ⟨fun ⟨x, ⟨hx, hxr⟩, ho⟩ => ?_, fun h => ⟨card, ⟨h, hr⟩, rfl⟩⟩
  have hc := s.card_eq card
  rw [← ho, hr, ← hxr, s.card_eq x] at hc
  exact hc ▸ hx

theorem add_eq_ok (h : s.add card = .ok (new, s')) :
    ∃ c m, s.container (s.regionOf card) = .ok (c, m) ∧
      (c.contains (s.offsetOf card) = true ∧ new = false ∧ s' = { s with
          containers := put (s.regionOf card) c s.containers, memory := m } ∨
        c.contains (s.offsetOf card) = false ∧ new = true ∧ ∃ c' m',
          c.insert m (s.offsetOf card) = .ok (c', m') ∧ s' = { s with
            containers := put (s.regionOf card) c' s.containers, memory := m'
            occupied := s.occupied + 1 }) := by
  simp only [add, Checked.bind_eq_ok] at h
  obtain ⟨⟨c, m⟩, hc, h⟩ := h
  refine ⟨c, m, hc, ?_⟩
  cases hin : c.contains (s.offsetOf card) with
  | true =>
    simp only [hin, if_true, Checked.pure_eq, Except.ok.injEq, Prod.mk.injEq] at h
    exact .inl ⟨rfl, h.1.symm, h.2.symm⟩
  | false =>
    simp only [hin, Bool.false_eq_true, if_false, Checked.bind_eq_ok, Checked.pure_eq,
      Except.ok.injEq, Prod.mk.injEq] at h
    obtain ⟨⟨c', m'⟩, hi, hn, hs⟩ := h
    exact .inr ⟨rfl, hn.symm, c', m', hi, hs.symm⟩

theorem config_add (h : s.add card = .ok (new, s')) : s'.config = s.config := by
  obtain ⟨c, m, -, ⟨-, -, rfl⟩ | ⟨-, -, c', m', -, rfl⟩⟩ := add_eq_ok h <;> rfl

namespace Represents

theorem container (h : s.Represents xs) {r : Nat} {c : Container} {m : CardMemory}
    (hc : s.container r = .ok (c, m)) : c.Holds ((s.inRegion xs r).map s.offsetOf) := by
  unfold CardSet.container at hc
  cases hl : s.containers.lookup r with
  | some d =>
    simp only [hl, Checked.pure_eq, Except.ok.injEq, Prod.mk.injEq] at hc
    exact hc.1 ▸ h.holds r d hl
  | none =>
    simp only [hl, Checked.bind_eq_ok, Checked.pure_eq, Except.ok.injEq, Prod.mk.injEq] at hc
    obtain ⟨p, -, hc, -⟩ := hc
    rw [(h.missing r).mp hl, ← hc]
    exact .array (by simp)

theorem contains (h : s.Represents xs) (card : Nat) : s.contains card = decide (card ∈ xs) := by
  unfold CardSet.contains
  cases hl : s.containers.lookup (s.regionOf card) with
  | some c => simp only [(h.holds _ c hl).contains, offsetOf_mem rfl]
  | none =>
    have hn := (h.missing _).mp hl
    have hx : card ∉ xs := fun hx => List.not_mem_nil (hn ▸ mem_inRegion.mpr ⟨hx, rfl⟩)
    simp [hx]

theorem add_fst (h : s.Represents xs) (ha : s.add card = .ok (new, s')) :
    new = decide (card ∉ xs) := by
  obtain ⟨c, m, hc, hcases⟩ := add_eq_ok ha
  have hin := (h.container hc).contains (s.offsetOf card)
  simp only [offsetOf_mem] at hin
  obtain ⟨ht, rfl, -⟩ | ⟨hf, rfl, -⟩ := hcases
  · simpa [hin] using ht
  · simpa [hin] using hf

theorem put (h : s.Represents xs) {ys : List Nat} {r : Nat} {c : Container} (m : CardMemory)
    (hn : ys.Nodup) (hc : c.Holds ((s.inRegion ys r).map s.offsetOf)) (hr : s.inRegion ys r ≠ [])
    (hothers : ∀ q, q ≠ r → s.inRegion ys q = s.inRegion xs q) :
    ({ s with
      containers := CardSet.put r c s.containers
      memory := m
      occupied := ys.length } : CardSet).Represents ys := by
  refine ⟨hn, rfl, ascending_put h.ascending _ _, fun q => ?_, fun q d hd => ?_⟩
  · rw [lookup_put]
    split
    · next e => exact iff_of_false (by simp) (e ▸ hr)
    · next e => exact hothers q e ▸ h.missing q
  · rw [lookup_put] at hd
    split at hd
    · next e =>
      cases hd
      exact e ▸ hc
    · next e =>
      have hold := h.holds q d hd
      rw [← hothers q e] at hold
      exact hold

theorem add (h : s.Represents xs) (ha : s.add card = .ok (new, s')) :
    s'.Represents (if card ∈ xs then xs else xs ++ [card]) := by
  obtain ⟨c, m, hc, hcases⟩ := add_eq_ok ha
  have hholds := h.container hc
  have hin := hholds.contains (s.offsetOf card)
  simp only [offsetOf_mem] at hin
  obtain ⟨ht, rfl, rfl⟩ | ⟨hf, rfl, c', m', hi, rfl⟩ := hcases
  · have hx : card ∈ xs := by simpa [hin] using ht
    rw [if_pos hx, h.occupied]
    have hr : s.inRegion xs (s.regionOf card) ≠ [] :=
      List.ne_nil_of_mem (mem_inRegion.mpr ⟨hx, rfl⟩)
    exact h.put m h.nodup hholds hr fun _ _ => rfl
  · have hx : card ∉ xs := by simpa [hin] using hf
    have hown : s.inRegion (xs ++ [card]) (s.regionOf card) =
        s.inRegion xs (s.regionOf card) ++ [card] := by simp [inRegion]
    have hn : (xs ++ [card]).Nodup := List.nodup_append.mpr
      ⟨h.nodup, by simp, fun a ha b hb e => hx (List.mem_singleton.mp hb ▸ e ▸ ha)⟩
    have hc' : c'.Holds ((s.inRegion (xs ++ [card]) (s.regionOf card)).map s.offsetOf) := by
      rw [hown, List.map_append]
      exact hholds.insert hi
    have hput := h.put m' hn hc' (by simp [hown]) fun q hq => by simp [inRegion, Ne.symm hq]
    rw [if_neg hx, h.occupied]
    simpa using hput

theorem clear (s : CardSet) : s.clear.Represents [] :=
  ⟨.nil, rfl, .nil, fun _ => by simp [CardSet.clear, inRegion], fun _ _ hc => by cases hc⟩

theorem create (config : CardConfig) : (create config).Represents [] :=
  ⟨.nil, rfl, .nil, fun _ => by simp [CardSet.create, inRegion], fun _ _ hc => by cases hc⟩

theorem isEmpty (h : s.Represents xs) : s.isEmpty = true ↔ xs = [] := by
  simp [CardSet.isEmpty, h.occupied]

theorem mem_regions (h : s.Represents xs) {r : Nat} :
    r ∈ s.containers.map Prod.fst ↔ ∃ x ∈ xs, s.regionOf x = r := by
  have hown : (∃ x ∈ xs, s.regionOf x = r) ↔ s.inRegion xs r ≠ [] := by
    simp [inRegion, List.filter_eq_nil_iff]
  rw [hown, Ne, ← h.missing r, List.mem_map]
  refine ⟨fun ⟨⟨k, c⟩, hc, hk⟩ hn => ?_, fun hn => ?_⟩
  · rw [← hk, (mem_iff_lookup h.ascending).mp hc] at hn
    cases hn
  · obtain ⟨c, hc⟩ := Option.ne_none_iff_exists'.mp hn
    exact ⟨(r, c), (mem_iff_lookup h.ascending).mpr hc, rfl⟩

theorem regions_ascending (h : s.Represents xs) :
    (s.containers.map Prod.fst).Pairwise (· < ·) := List.pairwise_map.mpr h.ascending

theorem cardsOf (h : s.Represents xs) {r : Nat} {c : Container}
    (hc : s.containers.lookup r = some c) : s.cardsOf r c = visitOrder (s.inRegion xs r) := by
  obtain ⟨own, hown⟩ : ∃ own, s.inRegion xs r = own := ⟨_, rfl⟩
  have hholds := h.holds r c hc
  have hnodup : own.Nodup := hown ▸ h.nodup.filter _
  have hcard : ∀ x ∈ own, r * s.config.cardsPerRegion + s.offsetOf x = x := fun x hx => by
    have hr : s.regionOf x = r := (mem_inRegion.mp (show x ∈ s.inRegion xs r from hown ▸ hx)).2
    rw [← hr]
    exact s.card_eq x
  rw [hown] at hholds ⊢
  cases hholds with
  | array hlen =>
    rw [List.length_map] at hlen
    rw [visitOrder, if_pos (show own.length ≤ 15 from hlen), CardSet.cardsOf, Container.offsets, List.map_map]
    exact (List.map_congr_left hcard).trans (List.map_id _)
  | bitmap hlen hget =>
    rw [List.length_map] at hlen
    rw [visitOrder, if_neg (show ¬own.length ≤ 15 from Nat.not_le.mpr hlen), CardSet.cardsOf, Container.offsets]
    refine eq_of_ascending ?_ (ascending_mergeSort hnodup) fun z => ?_
    · exact List.pairwise_map.mpr
        ((List.pairwise_lt_range.filter _).imp fun hab => Nat.add_lt_add_left hab _)
    · simp only [List.mem_mergeSort, List.mem_map, Bitmap.toList, List.mem_filter, List.mem_range,
        hget, decide_eq_true_eq]
      constructor
      · rintro ⟨o, ⟨-, x, hx, rfl⟩, rfl⟩
        rwa [hcard x hx]
      · exact fun hz => ⟨s.offsetOf z, ⟨Nat.mod_lt _ s.cardsPerRegion_pos, z, hz, rfl⟩, hcard z hz⟩

theorem cards (h : s.Represents xs) :
    s.cards = (s.containers.map Prod.fst).flatMap fun r => visitOrder (s.inRegion xs r) := by
  rw [CardSet.cards, List.flatMap_map]
  exact List.flatMap_congr fun ⟨r, c⟩ hc => h.cardsOf ((mem_iff_lookup h.ascending).mp hc)

/-- The cards of a region are visited in order, among those of the others. -/
theorem cards_inRegion (h : s.Represents xs) (r : Nat) :
    s.inRegion s.cards r = visitOrder (s.inRegion xs r) := by
  have hpick : ∀ k, s.inRegion (visitOrder (s.inRegion xs k)) r =
      if k = r then visitOrder (s.inRegion xs k) else [] := fun k => by
    have hk : ∀ x ∈ visitOrder (s.inRegion xs k), s.regionOf x = k := fun x hx =>
      (mem_inRegion.mp ((visitOrder_perm _).mem_iff.mp hx)).2
    by_cases hr : k = r
    · rw [if_pos hr]
      exact List.filter_eq_self.mpr fun x hx => by simp [hk x hx, hr]
    · rw [if_neg hr]
      exact List.filter_eq_nil_iff.mpr fun x hx => by simp [hk x hx, hr]
  rw [h.cards, inRegion, List.filter_flatMap]
  refine (List.flatMap_congr fun k _ => hpick k).trans ?_
  rw [flatMap_pick (h.regions_ascending.imp Nat.ne_of_lt)]
  split
  · rfl
  · next hr =>
    have hnone : s.inRegion xs r = [] := List.filter_eq_nil_iff.mpr fun x hx he =>
      hr (h.mem_regions.mpr ⟨x, hx, by simpa using he⟩)
    rw [hnone]
    rfl

theorem cards_perm (h : s.Represents xs) : s.cards.Perm xs := by
  refine List.perm_iff_count.mpr fun x => ?_
  have hcount : ∀ ys : List Nat, (s.inRegion ys (s.regionOf x)).count x = ys.count x :=
    fun ys => List.count_filter (by simp)
  rw [← hcount, h.cards_inRegion, (visitOrder_perm _).count_eq, hcount]

theorem cards_ascending (h : s.Represents xs) :
    s.cards.Pairwise fun x y => s.regionOf x ≤ s.regionOf y := by
  have hr : ∀ r, ∀ x ∈ visitOrder (s.inRegion xs r), s.regionOf x = r := fun r x hx =>
    (mem_inRegion.mp ((visitOrder_perm _).mem_iff.mp hx)).2
  rw [h.cards, List.pairwise_flatMap]
  refine ⟨fun r _ => ?_, h.regions_ascending.imp fun hlt x hx y hy => ?_⟩
  · exact List.pairwise_of_forall_mem_list fun x hx y hy => by rw [hr r x hx, hr r y hy]
  · rw [hr _ x hx, hr _ y hy]
    exact Nat.le_of_lt hlt

theorem withRounds (h : s.Represents xs) (r : Rounds) : (s.withRounds r).Represents xs :=
  ⟨h.nodup, h.occupied, h.ascending, h.missing, h.holds⟩

end Represents

end Cards

/-- What happens to a set. The rounds that its memory goes through go on also without it. -/
inductive Operation where
  | add (card : Nat)
  | clear
  | rounds (r : Rounds)
  deriving DecidableEq, Repr

def Operation.perform (s : CardSet) : Operation → Checked CardSet
  | .add card => return (← s.add card).2
  | .clear => return s.clear
  | .rounds r => return s.withRounds r

def run (s : CardSet) (ops : List Operation) : Checked CardSet := ops.foldlM Operation.perform s

/-- The members in the order in which they came in, after one more operation. -/
def Operation.arrange (xs : List Nat) : Operation → List Nat
  | .add card => if card ∈ xs then xs else xs ++ [card]
  | .clear => []
  | .rounds _ => xs

def Operation.apply (S : Finset Nat) : Operation → Finset Nat
  | .add card => insert card S
  | .clear => ∅
  | .rounds _ => S

def inserted (ops : List Operation) : List Nat := ops.foldl Operation.arrange []

def members (ops : List Operation) : Finset Nat := ops.foldl Operation.apply ∅

theorem toFinset_arrange (xs : List Nat) (op : Operation) :
    (op.arrange xs).toFinset = op.apply xs.toFinset := by
  cases op with
  | add card =>
    by_cases hx : card ∈ xs
    · simp [Operation.arrange, Operation.apply, hx]
    · ext c
      simp [Operation.arrange, Operation.apply, hx]
  | clear | rounds r => rfl

theorem toFinset_inserted (ops : List Operation) : (inserted ops).toFinset = members ops := by
  have hfold : ∀ xs : List Nat, (ops.foldl Operation.arrange xs).toFinset =
      ops.foldl Operation.apply xs.toFinset := by
    induction ops with
    | nil => exact fun xs => rfl
    | cons op ops ih =>
      intro xs
      rw [List.foldl_cons, List.foldl_cons, ih, toFinset_arrange]
  exact hfold []

theorem mem_inserted {ops : List Operation} {card : Nat} :
    card ∈ inserted ops ↔ card ∈ members ops := by
  rw [← toFinset_inserted, List.mem_toFinset]

/-- One operation, with enough memory. -/
theorem Operation.perform_of {s : CardSet} {xs : List Nat} (hf : s.Fits) (hrep : s.Represents xs)
    (op : Operation) : ∃ s', op.perform s = .ok s' ∧ s'.Fits ∧ s'.config = s.config ∧
      s'.Represents (op.arrange xs) := by
  cases op with
  | add card =>
    obtain ⟨new, s', hadd, hf'⟩ := hf.add card
    exact ⟨s', (Checked.bind_of hadd _).trans rfl, hf', config_add hadd, hrep.add hadd⟩
  | clear => exact ⟨s.clear, rfl, hf.clear, rfl, .clear s⟩
  | rounds r => exact ⟨s.withRounds r, rfl, hf.withRounds r, rfl, hrep.withRounds r⟩

theorem run_of {config : CardConfig} (hf : config.Fits) (ops : List Operation) :
    ∃ s, (create config).run ops = .ok s ∧ s.Fits ∧ s.config = config ∧
      s.Represents (inserted ops) := by
  obtain ⟨s, hs, hall⟩ := Checked.foldlM_split (f := Operation.perform) (l := ops)
    (fun done s => s.Fits ∧ s.config = config ∧ s.Represents (inserted done))
    (fun done op rest s _ ⟨hfits, hconfig, hrep⟩ => by
      obtain ⟨s', hs', hfits', hconfig', hrep'⟩ := op.perform_of hfits hrep
      rw [inserted, List.foldl_append]
      exact ⟨s', hs', hfits', hconfig'.trans hconfig, hrep'⟩)
    (create config) ⟨fits_create hf, rfl, .create config⟩
  exact ⟨s, hs, hall⟩

/-- A card set for regions of any size is a finite set. -/
theorem run_refines_finset {regionSize : Nat} (h : Options.isRegionSize regionSize) (threads : Nat)
    (rounds : Rounds) (ops : List Operation) : ∃ config s,
      configuration rounds { threads := threads, regionSize := regionSize } = .ok config ∧
      (create config).run ops = .ok s ∧
      (∀ card, ∃ s', s.add card = .ok (decide (card ∉ members ops), s') ∧
        ∀ c, s'.contains c = decide (c ∈ insert card (members ops))) ∧
      (∀ card, s.contains card = decide (card ∈ members ops)) ∧
      s.occupied = (members ops).card ∧
      (s.isEmpty = true ↔ members ops = ∅) ∧
      s.containerCount = ((members ops).image fun card => card / (regionSize / 512)).card ∧
      s.cards.Nodup ∧ s.cards.toFinset = members ops ∧
      (s.cards.Pairwise fun c d => c / (regionSize / 512) ≤ d / (regionSize / 512)) ∧
      ∀ r, (s.cards.filter fun card => card / (regionSize / 512) == r) =
        visitOrder ((inserted ops).filter fun card => card / (regionSize / 512) == r) := by
  have v : Options.Valid { threads := 1, regionSize := regionSize } :=
    ⟨by simp, by simp, h, by simp, by simp, by simp, by simp, by simp⟩
  obtain ⟨config, hconfig, hfits, hcards⟩ :=
    v.fits rounds (show 1 <<< 31 - 1 < 1 <<< 31 by decide)
  obtain ⟨s, hs, hf, hc, hrep⟩ := run_of hfits ops
  have hregion : ∀ x, s.regionOf x = x / (regionSize / 512) := fun x => by
    rw [regionOf_eq, hc, hcards]
  have hown : ∀ xs r, (xs.filter fun card => card / (regionSize / 512) == r) = s.inRegion xs r :=
    fun xs r => List.filter_congr fun x _ => by rw [hregion]
  refine ⟨config, s, hconfig, hs, fun card => ?_, fun card => ?_, ?_, ?_, ?_,
    hrep.cards_perm.nodup_iff.mpr hrep.nodup, ?_, ?_, fun r => ?_⟩
  · obtain ⟨new, s', hadd, -⟩ := hf.add card
    refine ⟨s', ?_, fun c => ?_⟩
    · simp only [hadd, hrep.add_fst hadd, mem_inserted]
    · rw [(hrep.add hadd).contains, decide_eq_decide, ← toFinset_inserted]
      exact List.mem_toFinset.symm.trans
        (toFinset_arrange (inserted ops) (.add card) ▸ Iff.rfl)
  · rw [hrep.contains, decide_eq_decide, mem_inserted]
  · rw [hrep.occupied, ← toFinset_inserted, List.toFinset_card_of_nodup hrep.nodup]
  · rw [hrep.isEmpty, ← toFinset_inserted, List.toFinset_eq_empty_iff]
  · have hkeys : (s.containers.map Prod.fst).toFinset =
        (members ops).image fun card => card / (regionSize / 512) := by
      ext r
      simp only [List.mem_toFinset, hrep.mem_regions, Finset.mem_image, mem_inserted, hregion]
    rw [← hkeys, List.toFinset_card_of_nodup (hrep.regions_ascending.imp Nat.ne_of_lt),
      List.length_map]
    rfl
  · rw [List.toFinset_eq_of_perm _ _ hrep.cards_perm, toFinset_inserted]
  · simpa only [hregion] using hrep.cards_ascending
  · rw [hown, hown, hrep.cards_inRegion]

/-- Cards on both sides of the border between two regions, and one of them twice. -/
theorem run_at_border : Options.isRegionSize 65536 = true ∧ ∃ config s,
    configuration { period := 128, delay := 2 } { threads := 1, regionSize := 65536 } =
      .ok config ∧
    (create config).run [.add 128, .add 127, .add 64, .add 63, .add 127] = .ok s ∧
    s.occupied = 4 ∧ s.containerCount = 2 := by
  have hsize : Options.isRegionSize 65536 = true := by decide
  obtain ⟨config, s, hconfig, hs, -, -, hocc, -, hcount, -⟩ :=
    run_refines_finset hsize 1 { period := 128, delay := 2 }
      [.add 128, .add 127, .add 64, .add 63, .add 127]
  exact ⟨hsize, config, s, hconfig, hs, hocc.trans (by decide), hcount.trans (by decide)⟩

end CardSet

end RegionHeap
