import Mathlib.Data.List.Induction
import RegionHeap.Proofs.Fates
import RegionHeap.Proofs.Runs

/-!
Moves of humongous objects, one after the other. What an object leaves may be taken by later ones;
once all have moved, no object has room below its place if each went to the lowest run at its turn.
-/
set_option autoImplicit false

namespace RegionHeap

namespace HumongousMove

/-- A region that the object is in before the move. -/
def Leaves (m : HumongousMove) (k : Nat) : Prop := m.source ≤ k ∧ k < m.source + m.count

/-- A region that the object is in after the move. -/
def Takes (m : HumongousMove) (k : Nat) : Prop := m.target ≤ k ∧ k < m.target + m.count

variable {empty empty' : Nat → Prop} {moves : List HumongousMove} {m : HumongousMove}
  {i j k n : Nat}

/-- What begins in a region begins in another one, or in the same, once the objects have moved. -/
def Lands (moves : List HumongousMove) (i j : Nat) : Prop :=
  (∃ m ∈ moves, m.source = i ∧ m.target = j) ∨ (∀ m ∈ moves, m.source ≠ i) ∧ j = i

theorem Lands.of_snoc (v : Lands (moves ++ [m]) i j) (hi : m.source ≠ i) : Lands moves i j := by
  rcases v with ⟨v, hv, hsource, htarget⟩ | ⟨hno, rfl⟩
  · rcases List.mem_append.mp hv with hv | hv
    · exact .inl ⟨v, hv, hsource, htarget⟩
    · obtain rfl := List.mem_singleton.mp hv
      exact absurd hsource hi
  · exact .inr ⟨fun v hv => hno v (List.mem_append_left _ hv), rfl⟩

theorem Lands.eq_self (v : Lands moves i j) (hm : ∀ m ∈ moves, m.source < i) : j = i := by
  rcases v with ⟨m, hmem, rfl, -⟩ | ⟨-, rfl⟩
  · exact absurd (hm m hmem) (Nat.lt_irrefl _)
  · rfl

theorem Lands.eq_target (v : Lands (moves ++ [m]) m.source j)
    (hm : ∀ m' ∈ moves, m'.source < m.source) : j = m.target := by
  rcases v with ⟨v, hv, hsource, rfl⟩ | ⟨hno, -⟩
  · rcases List.mem_append.mp hv with hv | hv
    · exact absurd (hsource ▸ hm v hv) (Nat.lt_irrefl _)
    · rw [List.mem_singleton.mp hv]
  · exact absurd rfl (hno m (List.mem_append_right _ (List.mem_singleton.mpr rfl)))

/-- A region that nothing is in once the objects have moved. -/
structure Vacated (empty : Nat → Prop) (moves : List HumongousMove) (k : Nat) : Prop where
  vacant : empty k ∨ ∃ m ∈ moves, m.Leaves k
  untaken : ∀ m ∈ moves, ¬m.Takes k

theorem Vacated.mono (v : Vacated empty moves k) (he : empty k → empty' k) :
    Vacated empty' moves k :=
  ⟨v.vacant.imp_left he, v.untaken⟩

theorem Vacated.of_snoc (v : Vacated empty' (moves ++ [m]) k) (hm : m.Leaves k → empty k)
    (he : empty' k → empty k) : Vacated empty moves k := by
  refine ⟨?_, fun v' hv => v.untaken v' (List.mem_append_left _ hv)⟩
  rcases v.vacant with h | ⟨v', hv, hl⟩
  · exact .inl (he h)
  · rcases List.mem_append.mp hv with hv | hv
    · exact .inr ⟨v', hv, hl⟩
    · obtain rfl := List.mem_singleton.mp hv
      exact .inl (hm hl)

/-- An object of so many regions has no room below its place: in every run that begins there is a
region that neither becomes empty nor belongs to the object. -/
def Lowest (empty : Nat → Prop) (moves : List HumongousMove) (place n : Nat) : Prop :=
  ∀ t, t < place → ∃ k, t ≤ k ∧ k < t + n ∧ ¬(place ≤ k ∧ k < place + n) ∧
    ¬Vacated empty moves k

theorem Lowest.of_vacated {moves' : List HumongousMove} (v : Lowest empty moves j n)
    (he : ∀ k, Vacated empty' moves' k → Vacated empty moves k) : Lowest empty' moves' j n := by
  intro t ht
  obtain ⟨k, hfrom, hto, hregion, hk⟩ := v t ht
  exact ⟨k, hfrom, hto, hregion, fun hv => hk (he k hv)⟩

/-- No room is left if what becomes empty is listed, and so is the place of the object, but in
every run that begins lower a region is missing. -/
theorem Lowest.of_lacks {rs : List Nat} (hlacks : ∀ t, t < j → Lacks rs t n)
    (hplace : ∀ k, j ≤ k → k < j + n → k ∈ rs) (hopen : ∀ k, Vacated empty moves k → k ∈ rs) :
    Lowest empty moves j n := by
  intro t ht
  obtain ⟨k, hfrom, hto, hk⟩ := hlacks t ht
  exact ⟨k, hfrom, hto, fun h => hk (hplace k h.1 h.2), fun hv => hk (hopen k hv)⟩

end HumongousMove

/-- Moves that can be carried out one after the other: each object goes down, into regions that are
empty anyway, that earlier moves have left, or that are its own. -/
structure Moves (h : Heap) (L : Layout) (clearSoft : Bool) (empty : Nat → Prop)
    (moves : List HumongousMove) : Prop where
  source : ∀ m ∈ moves, m.source < L.count ∧ h.movable clearSoft m.source ∧
    m.count = h.humongousSpan (h.region m.source)
  down : ∀ m ∈ moves, m.target < m.source
  vacant : ∀ before m after, moves = before ++ m :: after → ∀ k, m.Takes k →
    empty k ∨ m.Leaves k ∨ ∃ m' ∈ before, m'.Leaves k
  ascending : moves.Pairwise fun m m' => m.source < m'.source
  apart : moves.Pairwise fun m m' => ∀ k, m.Takes k → ¬m'.Takes k

namespace Moves

variable {h : Heap} {L : Layout} {clearSoft : Bool} {empty : Nat → Prop}
  {moves : List HumongousMove} {m : HumongousMove}

theorem nil : Moves h L clearSoft empty [] :=
  ⟨by simp, by simp, fun _ _ _ e => by simp at e, .nil, .nil⟩

theorem snoc (v : Moves h L clearSoft empty moves)
    (hs : m.source < L.count ∧ h.movable clearSoft m.source ∧
      m.count = h.humongousSpan (h.region m.source))
    (hd : m.target < m.source)
    (hv : ∀ k, m.Takes k → empty k ∨ m.Leaves k ∨ ∃ m' ∈ moves, m'.Leaves k)
    (ho : ∀ m' ∈ moves, m'.source < m.source)
    (ha : ∀ m' ∈ moves, ∀ k, m'.Takes k → ¬m.Takes k) :
    Moves h L clearSoft empty (moves ++ [m]) := by
  refine ⟨fun m' hm => ?_, fun m' hm => ?_, fun before m' after e k hk => ?_,
    List.pairwise_append.mpr ⟨v.ascending, by simp, by simpa using ho⟩,
    List.pairwise_append.mpr ⟨v.apart, by simp, by simpa using ha⟩⟩
  · rcases List.mem_append.mp hm with hm | hm
    · exact v.source m' hm
    · obtain rfl : m' = m := by simpa using hm
      exact hs
  · rcases List.mem_append.mp hm with hm | hm
    · exact v.down m' hm
    · obtain rfl : m' = m := by simpa using hm
      exact hd
  · rcases List.eq_nil_or_concat after with rfl | ⟨after, last, rfl⟩
    · obtain ⟨rfl, e⟩ := List.append_inj' e rfl
      obtain rfl : m = m' := by simpa using e
      exact hv k hk
    · have e : moves ++ [m] = (before ++ m' :: after) ++ [last] := by simpa using e
      exact v.vacant before m' after (List.append_inj' e rfl).1 k hk

theorem takes_unique (v : Moves h L clearSoft empty moves) {m m' : HumongousMove} {k : Nat}
    (hm : m ∈ moves) (hm' : m' ∈ moves) (hk : m.Takes k) (hk' : m'.Takes k) : m = m' := by
  have hordered : moves.Pairwise fun m m' => ∀ k, m.Takes k → m'.Takes k → m = m' :=
    v.apart.imp fun hap k hk hk' => absurd hk' (hap k hk)
  have hflipped : moves.Pairwise (flip fun m m' => ∀ k, m.Takes k → m'.Takes k → m = m') :=
    v.apart.imp fun hap k hk hk' => absurd hk (hap k hk')
  have hall := List.Pairwise.forall_of_forall_of_flip (fun _ _ _ _ _ => rfl) hordered hflipped
  exact hall hm hm' k hk hk'

/-- Nothing goes below all empty regions. -/
theorem le_target (v : Moves h L clearSoft empty moves) {low : Nat} (he : ∀ k, empty k → low ≤ k)
    (hn : ∀ m ∈ moves, 0 < m.count) : ∀ m ∈ moves, low ≤ m.target := by
  suffices hinitial : ∀ before after, moves = before ++ after → ∀ m ∈ before, low ≤ m.target from
    hinitial moves [] (by simp)
  intro before
  induction before using List.reverseRecOn with
  | nil => simp
  | append_singleton before m ih =>
    intro after hsplit m' hm'
    have hsplit : moves = before ++ m :: after := by simpa using hsplit
    have hbefore := ih (m :: after) hsplit
    rcases List.mem_append.mp hm' with hm' | hm'
    · exact hbefore m' hm'
    · obtain rfl := List.mem_singleton.mp hm'
      have hm : m' ∈ moves := by simp [hsplit]
      have hpos := hn m' hm
      have hdown := v.down m' hm
      rcases v.vacant before m' after hsplit m'.target ⟨Nat.le_refl _, by omega⟩ with
        h | h | ⟨w, hw, h⟩
      · exact he _ h
      · have := h.1
        omega
      · -- an earlier object left the region, and went even lower
        have := hbefore w hw
        have := v.down w (by simp [hsplit, hw])
        have := h.1
        omega

end Moves

/-- Every humongous object that may move goes as low as it can. -/
def AllLowest (h : Heap) (L : Layout) (clearSoft : Bool) (empty : Nat → Prop)
    (moves : List HumongousMove) : Prop :=
  ∀ i, i < L.count → h.movable clearSoft i → ∀ j, HumongousMove.Lands moves i j →
    HumongousMove.Lowest empty moves j (h.humongousSpan (h.region i))

end RegionHeap
