import RegionHeap.Proofs.Lockstep
import RegionHeap.Proofs.Marks

/-!
Liveness maps that agree but for the slices of some regions. What is done with the other regions
gives the same answers in both, and they agree afterwards.
-/
set_option autoImplicit false

namespace RegionHeap.LivenessMap

open Checked

variable {L : Layout} {A : Nat → Prop} {l l' : LivenessMap} {a i : Nat}

/-- The maps lie where the layout says and differ at most in these slices. -/
structure Agree (L : Layout) (A : Nat → Prop) (l l' : LivenessMap) : Prop where
  start : l.start = L.start
  bytes : l.regionBytes = L.bytes
  same : l' = { l with slices := l'.slices, committed := l'.committed }
  size : l'.slices.size = l.slices.size
  slice : ∀ i, ¬A i → l'.slice i = l.slice i

theorem slice_setSlice (l : LivenessMap) (i : Nat) (s : LivenessSlice) (j : Nat) :
    (l.setSlice i s).slice j = if i = j ∧ i < l.slices.size then .ok s else l.slice j := by
  simp only [slice, setSlice, Table.get, Array.getElem?_setIfInBounds]
  by_cases e : i = j
  · subst e
    by_cases hi : i < l.slices.size
    · simp [hi]
    · simp [hi]
  · simp [e]

namespace Agree

theorem refl (hs : l.start = L.start) (hb : l.regionBytes = L.bytes) : Agree L A l l :=
  ⟨hs, hb, rfl, rfl, fun _ _ => rfl⟩

theorem regionOf_eq (h : Agree L A l l') (a : Nat) : l'.regionOf a = l.regionOf a := by
  have hz := h.size
  rw [h.same]
  simp only [regionOf, regions, hz]
  rfl

theorem regionStart_eq (h : Agree L A l l') (i : Nat) : l'.regionStart i = l.regionStart i := by
  rw [h.same]
  rfl

theorem sliceWords_eq (h : Agree L A l l') : l'.sliceWords = l.sliceWords := by
  rw [h.same]
  rfl

theorem clearedBits_eq (h : Agree L A l l') (s : LivenessSlice) :
    l'.clearedBits s = l.clearedBits s := by
  rw [clearedBits, clearedBits, h.sliceWords_eq]

theorem bitOf_eq (h : Agree L A l l') (i a : Nat) : l'.bitOf i a = l.bitOf i a := by
  rw [bitOf, bitOf, h.regionStart_eq]

theorem regionStart (h : Agree L A l l') (i : Nat) : l.regionStart i = L.bottom i := by
  rw [LivenessMap.regionStart, h.start, h.bytes, Layout.bottom]

theorem regionOf (h : Agree L A l l') (hr : l.regionOf a = .ok i) : i = L.regionOf a := by
  simp only [LivenessMap.regionOf, bind_eq_ok, pure_eq, Except.ok.injEq] at hr
  obtain ⟨-, -, -, -, rfl⟩ := hr
  rw [Layout.regionOf, h.start, h.bytes]

theorem setSlice (h : Agree L A l l') (i : Nat) (s : LivenessSlice) :
    Agree L A (l.setSlice i s) (l'.setSlice i s) := by
  refine ⟨h.start, h.bytes, ?_, by simp [LivenessMap.setSlice, h.size], fun j hj => ?_⟩
  · rw [h.same]
    rfl
  · rw [slice_setSlice, slice_setSlice, h.size, h.slice j hj]

theorem addCommitted (h : Agree L A l l') :
    Agree L A { l with committed := l.committed + 1 }
      { l' with committed := l'.committed + 1 } := by
  refine ⟨h.start, h.bytes, ?_, h.size, h.slice⟩
  rw [h.same]

theorem markRegion (h : Agree L A l l') (hi : ¬A i) :
    Both (Agree L A) (l.markRegion i) (l'.markRegion i) := by
  unfold LivenessMap.markRegion
  rw [h.slice i hi]
  refine Both.bind_same fun s _ => Both.ite (fun _ => .ok h) fun _ => ?_
  refine Both.bind_same fun x _ => ?_
  obtain ⟨commit, state⟩ := x
  refine Both.bind_same fun y _ => ?_
  exact Both.ite (fun _ => .ok (h.setSlice i _).addCommitted) fun _ => .ok (h.setSlice i _)

theorem mark (h : Agree L A l l') (ha : ¬A (L.regionOf a)) :
    Both (fun x y => x.1 = y.1 ∧ Agree L A x.2 y.2) (l.mark a) (l'.mark a) := by
  unfold LivenessMap.mark
  rw [h.regionOf_eq]
  refine Both.bind_same fun i hi => ?_
  obtain rfl := h.regionOf hi
  refine Both.bind (h.markRegion ha) fun m m' _ hm => ?_
  rw [hm.bitOf_eq, hm.slice _ ha]
  refine Both.bind_same fun bit _ => Both.bind_same fun s _ => ?_
  exact .ok ⟨rfl, hm.setSlice _ _⟩

theorem tryMark (h : Agree L A l l') (ha : ¬A (L.regionOf a)) :
    Both (fun x y => x.1 = y.1 ∧ Agree L A x.2 y.2) (l.tryMark a) (l'.tryMark a) := by
  refine Both.bind (h.mark ha) fun x y _ ⟨e, hm⟩ => .ok ⟨?_, hm⟩
  simp [e]

theorem isMarked_eq (h : Agree L A l l') (ha : ¬A (L.regionOf a)) :
    l'.isMarked a = l.isMarked a := by
  unfold isMarked
  rw [h.regionOf_eq]
  cases hr : l.regionOf a with
  | error f => rfl
  | ok i =>
    obtain rfl := h.regionOf hr
    simp only [ok_bind, h.slice _ ha, h.bitOf_eq]

theorem clear (h : Agree L A l l') (ha : ¬A (L.regionOf a)) :
    Both (Agree L A) (l.clear a) (l'.clear a) := by
  unfold LivenessMap.clear
  rw [h.regionOf_eq]
  refine Both.bind_same fun i hi => ?_
  obtain rfl := h.regionOf hi
  rw [h.slice _ ha, h.bitOf_eq]
  refine Both.bind_same fun s _ => Both.ite (fun _ => .ok h) fun _ => ?_
  exact Both.bind_same fun bit _ => .ok (h.setSlice _ _)

theorem reset (h : Agree L A l l') (hi : ¬A i) : Both (Agree L A) (l.reset i) (l'.reset i) := by
  unfold LivenessMap.reset
  rw [h.slice i hi]
  refine Both.bind_same fun s _ => Both.ite (fun _ => .ok h) fun _ => ?_
  rw [h.clearedBits_eq]
  exact Both.bind_same fun state _ => .ok (h.setSlice _ _)

theorem nextInRegion_eq (h : Agree L A l l') (hi : ¬A i) (start stop : Nat) :
    l'.nextInRegion i start stop = l.nextInRegion i start stop := by
  simp only [nextInRegion, h.slice i hi, h.sliceWords_eq, h.regionStart_eq]

theorem next_eq (h : Agree L A l l') (hi : ¬A i) {start limit : Nat} (hs : L.bottom i ≤ start)
    (hl : limit ≤ L.bottom i + L.bytes) : l'.next start limit = l.next start limit := by
  unfold next regions
  rw [h.size]
  simp only [nextFrom, h.regionOf_eq, h.regionStart_eq]
  by_cases hle : limit ≤ start
  · rw [if_pos hle, if_pos hle]
  · rw [if_neg hle, if_neg hle]
    cases hr : l.regionOf start with
    | error f => rfl
    | ok j =>
      obtain rfl := h.regionOf hr
      rw [Layout.regionOf_eq hs (by omega)]
      have hstop : ∀ (m : LivenessMap) (n : Nat),
          m.nextFrom limit n (l.regionStart (i + 1)) = .ok limit := by
        intro m n
        rw [h.regionStart, L.bottom_succ]
        cases n with
        | zero => rfl
        | succ n => rw [nextFrom, if_pos hl]; rfl
      simp only [ok_bind, h.nextInRegion_eq hi, hstop]

/-- What a search in a region finds lies there. -/
theorem next_region (h : Agree L A l l') {start limit found : Nat} (hs : L.bottom i ≤ start)
    (hl : limit ≤ L.bottom i + L.bytes) (hn : l.next start limit = .ok found)
    (hlt : found < limit) : L.bottom i ≤ found := by
  unfold next at hn
  rw [nextFrom] at hn
  split at hn
  · obtain rfl := Except.ok.inj hn
    omega
  · next hle =>
    simp only [bind_eq_ok] at hn
    obtain ⟨j, hj, r, hr, hn⟩ := hn
    obtain rfl := h.regionOf hj
    rw [Layout.regionOf_eq hs (by omega)] at hr hn
    cases r with
    | none =>
      simp only at hn
      rw [h.regionStart, L.bottom_succ] at hn
      -- the search goes on behind the region, and so behind the limit
      cases hz : l.regions with
      | zero =>
        rw [hz] at hn
        obtain rfl := Except.ok.inj hn
        omega
      | succ n =>
        rw [hz, nextFrom, if_pos hl] at hn
        obtain rfl := Except.ok.inj hn
        omega
    | some a =>
      obtain rfl := Except.ok.inj hn
      simp only [nextInRegion, bind_eq_ok] at hr
      obtain ⟨s, -, hr⟩ := hr
      split at hr
      · simp at hr
      · obtain ⟨-, -, hr⟩ := bind_eq_ok.mp hr
        simp only [pure_eq, Except.ok.injEq] at hr
        split at hr
        · obtain rfl := Option.some.inj hr
          rw [h.regionStart]
          omega
        · contradiction

end Agree

theorem reset_passes (l : LivenessMap) (hi : i < l.slices.size) :
    ∃ l', l.reset i = .ok l' ∧ l'.slices.size = l.slices.size := by
  have hs : l.slice i = .ok (l.sliceAt i) := Table.get_of_lt hi
  cases hst : (l.sliceAt i).state with
  | marked =>
    refine ⟨l.setSlice i ⟨.initialized, l.clearedBits (l.sliceAt i)⟩, ?_,
      by simp [setSlice]⟩
    rw [reset, bind_of hs, hst]
    rfl
  | _ =>
    refine ⟨l, ?_, rfl⟩
    rw [reset, bind_of hs, hst]
    rfl

theorem resetAll_passes (l : LivenessMap) : ∃ l', l.resetAll = .ok l' := by
  obtain ⟨l', hl, -⟩ := foldlM_range_of (n := l.regions) (f := fun m i => LivenessMap.reset m i)
    (fun _ m => m.slices.size = l.slices.size)
    (fun i m hi hm => by
      obtain ⟨m', he, hz⟩ := m.reset_passes (show i < m.slices.size from hm.symm ▸ hi)
      exact ⟨m', he, hz.trans hm⟩)
    l rfl
  exact ⟨l', hl⟩

section Walk

variable {σ τ : Type} {R : σ → τ → Prop} {map : σ → LivenessMap} {map' : τ → LivenessMap}
  {visit : σ → Nat → Checked (Nat × σ)} {visit' : τ → Nat → Checked (Nat × τ)} {limit : Nat}
  {s : σ} {t : τ}

/-- Walks over a region in which the maps agree, if the visits go in lockstep. -/
theorem walkFrom_both (hmap : ∀ s t, R s t → Agree L A (map s) (map' t)) (hi : ¬A i)
    (hl : limit ≤ L.bottom i + L.bytes)
    (hvisit : ∀ s t a, L.regionOf a = i → R s t →
      Both (fun x y => x.1 = y.1 ∧ R x.2 y.2) (visit s a) (visit' t a))
    {n cursor : Nat} (hc : L.bottom i ≤ cursor) (h : R s t) :
    Both R (walkFrom map visit limit n cursor s) (walkFrom map' visit' limit n cursor t) := by
  induction n generalizing cursor s t with
  | zero => exact .ok h
  | succ n ih =>
    have agree := hmap s t h
    unfold walkFrom
    rw [agree.next_eq hi hc hl]
    refine Both.bind_same fun found hn => Both.ite (fun _ => .ok h) fun hlt => ?_
    have hf := agree.next_region hc hl hn (by omega)
    refine Both.bind (hvisit s t found (Layout.regionOf_eq hf (by omega)) h) fun x y _ hxy => ?_
    obtain ⟨words, s'⟩ := x
    obtain ⟨words', t'⟩ := y
    obtain ⟨rfl, hr⟩ := hxy
    refine Both.bind_same fun _ _ => Both.bind_same fun stop hstop => ih ?_ hr
    have : found ≤ stop := by
      unfold Address.addWords Word.add at hstop
      split at hstop
      · obtain rfl := Except.ok.inj hstop
        omega
      · contradiction
    omega

theorem walk_both (hmap : ∀ s t, R s t → Agree L A (map s) (map' t)) (hi : ¬A i)
    (hl : limit ≤ L.bottom i + L.bytes)
    (hvisit : ∀ s t a, L.regionOf a = i → R s t →
      Both (fun x y => x.1 = y.1 ∧ R x.2 y.2) (visit s a) (visit' t a)) (h : R s t) :
    Both R (walk map visit i limit s) (walk map' visit' i limit t) := by
  have agree := hmap s t h
  unfold walk isRegionMarked
  rw [agree.slice i hi, agree.regionStart_eq]
  refine Both.bind_same fun b _ => Both.ite (fun _ => .ok h) fun _ => ?_
  exact walkFrom_both hmap hi hl hvisit (Nat.le_of_eq (agree.regionStart i).symm) h

end Walk

end RegionHeap.LivenessMap
