import RegionHeap.BlockTable
import RegionHeap.Proofs.Chain
import RegionHeap.Proofs.Layout

/-!
What block tables know. A table is sound for a sequence of objects if no entry below the top points
behind its card or into an object; then lookups find the object that covers an address, and the
check of the table against a walk passes.
-/
set_option autoImplicit false

namespace RegionHeap.BlockTable

open Object (Chain)

/-- Every card below the top is unknown or points to an object at or before it. -/
def Sound (t : BlockTable) (os : List Nat) (top : Nat) : Prop :=
  ∀ c, c < t.starts.size → t.cardStart c < top →
    Table.entry t.starts c = 0 ∨
      Table.entry t.starts c ∈ os ∧ Table.entry t.starts c ≤ t.cardStart c

/-- The table of a range of whole cards. -/
structure Whole (t : BlockTable) : Prop where
  limit : t.limit = t.bottom + 512 * t.starts.size

theorem Whole.of_laid {r : Region} {L : Layout} {i : Nat} (h : r.Laid L i) : r.blocks.Whole := by
  refine ⟨?_⟩
  have := L.cards
  rw [h.blocksLimit, h.blocksBottom, h.blocks, Layout.bytes]
  omega

variable {t : BlockTable} {m : Memory} {os : List Nat} {top : Nat}

theorem entry_fillFrom (start count card : Nat) (starts : Array Nat) {i : Nat}
    (hi : i < starts.size) : Table.entry (fillFrom start count card starts) i =
      if card ≤ i ∧ i < card + count then start else Table.entry starts i := by
  simp only [Table.entry, getElem?_fillFrom, hi, and_true]
  split <;> rfl

/-- A record reaches exactly the cards whose first word lies in the block. -/
theorem record_of (hw : t.Whole) {start stop : Nat} (h : start < stop) :
    ∃ starts, t.record start stop = .ok { t with starts := starts } ∧
      starts.size = t.starts.size ∧
      ∀ c, c < t.starts.size → Table.entry starts c =
        if start ≤ t.cardStart c ∧ t.cardStart c < stop then start
        else Table.entry t.starts c := by
  have hl := hw.limit
  by_cases he : min stop t.limit ≤ max start t.bottom
  · refine ⟨t.starts, ?_, rfl, fun c hc => ?_⟩
    · simp [record, h, he]
    · rw [if_neg]
      unfold cardStart Address.bytesInCard
      omega
  · have hc : t.cardsIn (max start t.bottom) (min stop t.limit) =
        (Word.divCeil (max start t.bottom - t.bottom) 512,
          (min stop t.limit - 1 - t.bottom) / 512 + 1 -
            Word.divCeil (max start t.bottom - t.bottom) 512) := rfl
    -- the cards to be recorded begin with the first one that starts in the block
    have hd : ∀ c, Word.divCeil (max start t.bottom - t.bottom) 512 ≤ c ↔
        start ≤ t.bottom + c * 512 := by
      intro c
      unfold Word.divCeil
      split <;> omega
    refine ⟨fillFrom start ((min stop t.limit - 1 - t.bottom) / 512 + 1 -
      Word.divCeil (max start t.bottom - t.bottom) 512)
      (Word.divCeil (max start t.bottom - t.bottom) 512) t.starts, ?_, by simp, fun c hc => ?_⟩
    · simp only [record, h, decide_true, Checked.unless_of, Checked.ok_bind, he, if_false, hc]
      rw [Checked.unless_of, Checked.ok_bind]
      · rfl
      · have := hd ((min stop t.limit - 1 - t.bottom) / 512)
        simp only [Bool.or_eq_true, beq_iff_eq, decide_eq_true_eq]
        omega
    · have hi : (Word.divCeil (max start t.bottom - t.bottom) 512 ≤ c ∧
          c < Word.divCeil (max start t.bottom - t.bottom) 512 +
            ((min stop t.limit - 1 - t.bottom) / 512 + 1 -
              Word.divCeil (max start t.bottom - t.bottom) 512)) ↔
          start ≤ t.cardStart c ∧ t.cardStart c < stop := by
        rw [hd]
        have := hd c
        unfold cardStart Address.bytesInCard
        omega
      rw [entry_fillFrom _ _ _ _ hc]
      simp only [hi]

theorem Sound.nil (hb : top ≤ t.bottom) : t.Sound os top := by
  intro c _ hc
  unfold cardStart at hc
  omega

theorem Sound.record {starts : Array Nat} {start stop : Nat} (hs : t.Sound os start)
    (hz : starts.size = t.starts.size)
    (he : ∀ c, c < t.starts.size → Table.entry starts c =
      if start ≤ t.cardStart c ∧ t.cardStart c < stop then start else Table.entry t.starts c) :
    ({ t with starts := starts } : BlockTable).Sound (os ++ [start]) stop := by
  intro c hc hcs
  have hc : c < t.starts.size := hz ▸ hc
  have hcs : t.cardStart c < stop := hcs
  show Table.entry starts c = 0 ∨
    Table.entry starts c ∈ os ++ [start] ∧ Table.entry starts c ≤ t.cardStart c
  rw [he c hc]
  by_cases hle : start ≤ t.cardStart c
  · rw [if_pos ⟨hle, hcs⟩]
    exact .inr ⟨by simp, hle⟩
  · rw [if_neg (fun h => hle h.1)]
    rcases hs c hc (by omega) with h0 | ⟨hm, hl⟩
    · exact .inl h0
    · exact .inr ⟨by simp [hm], hl⟩

theorem entry_of (hw : t.Whole) {a : Nat} (hb : t.bottom ≤ a) (hl : a < t.limit) :
    (a - t.bottom) / 512 < t.starts.size ∧ t.cardStart ((a - t.bottom) / 512) ≤ a ∧
      t.entry a = .ok (if Table.entry t.starts ((a - t.bottom) / 512) = 0 then t.bottom
        else Table.entry t.starts ((a - t.bottom) / 512)) := by
  have hlimit := hw.limit
  have hlt : (a - t.bottom) / 512 < t.starts.size := by omega
  have hcard : t.card a = .ok ((a - t.bottom) / 512) := by
    simp [card, hb, hl, Address.bytesInCard]
  refine ⟨hlt, by unfold cardStart Address.bytesInCard; omega, ?_⟩
  simp only [entry, hcard, Checked.ok_bind, Table.get_of_lt hlt, Checked.pure_eq]

/-- A sound table finds the object that covers an address. -/
theorem blockStart_of (hw : t.Whole) (hc : Chain m t.bottom os top) (hs : t.Sound os top)
    {a o : Nat} (hb : t.bottom ≤ a) (ha : a < top) (hl : a < t.limit) (ho : o ∈ os) (hx : o ≤ a)
    (hx' : a < Object.limit m o) : t.blockStart m a = .ok o := by
  obtain ⟨hlt, hle, hentry⟩ := entry_of hw hb hl
  have hmem : t.bottom ∈ os := hc.first_mem (by omega)
  obtain ⟨s, hse, hsm, hsl⟩ : ∃ s, t.entry a = .ok s ∧ s ∈ os ∧ s ≤ a := by
    rw [hentry]
    split
    · exact ⟨_, rfl, hmem, hb⟩
    · next hz =>
      rcases hs _ hlt (by omega) with h0 | ⟨hm, hle'⟩
      · exact absurd h0 hz
      · exact ⟨_, rfl, hm, by omega⟩
  rw [blockStart, Checked.bind_of hse, Checked.unless_of (decide_eq_true hsl), Checked.ok_bind]
  exact hc.covering_eq hsm ho hsl hx hx'

theorem skipTo_eq {a b x : Nat} (hc : Chain m a os b) (ha : a ≤ x) (hb : x < b) :
    ∃ o rest, skipTo x os = o :: rest ∧ Chain m o (o :: rest) b ∧ o ≤ x ∧
      x < Object.limit m o ∧ ∀ p ∈ o :: rest, p ∈ os := by
  induction hc with
  | nil => omega
  | @cons o b os hs hc ih =>
    cases os with
    | nil =>
      cases hc
      exact ⟨o, [], rfl, .cons hs (.nil _), ha, hb, by simp⟩
    | cons p ps =>
      have hp : p = Object.limit m o := by cases hc; rfl
      by_cases hle : p ≤ x
      · obtain ⟨q, rest, hskip, hchain, hqx, hxq, hmem⟩ := ih (hp ▸ hle) hb
        exact ⟨q, rest, by simp [skipTo, hle, hskip], hchain, hqx, hxq,
          fun y hy => List.mem_cons_of_mem _ (hmem y hy)⟩
      · exact ⟨o, p :: ps, by simp [skipTo, hle], .cons hs hc, ha, by omega, fun y hy => hy⟩

theorem verifyFrom_of (hw : t.Whole) (hc : Chain m t.bottom os top) (hs : t.Sound os top)
    {n card a : Nat} {ps : List Nat} (hn : card + n = t.starts.size) (ha : a ≤ t.cardStart card)
    (hps : Chain m a ps top) (hsub : ∀ p ∈ ps, p ∈ os) :
    t.verifyFrom m top n card ps = .ok none := by
  induction n generalizing card a ps with
  | zero => rfl
  | succ n ih =>
    by_cases hle : top ≤ t.cardStart card
    · simp [verifyFrom, hle]
    · obtain ⟨o, rest, hskip, hchain, hox, hxo, hmem⟩ := skipTo_eq hps ha (by omega)
      have hlimit := hw.limit
      have hf := blockStart_of hw hc hs (a := t.cardStart card) (Nat.le_add_right _ _) (by omega)
        (by unfold cardStart Address.bytesInCard; omega) (hsub o (hmem o (by simp))) hox hxo
      have hm : t.cardStart card ≤ t.cardStart (card + 1) :=
        Nat.add_le_add_left (Nat.mul_le_mul_right _ (Nat.le_succ _)) _
      have hr : t.verifyFrom m top n (card + 1) (o :: rest) = .ok none :=
        ih (a := o) (by omega) (Nat.le_trans hox hm) hchain fun p hp => hsub p (hmem p hp)
      rw [verifyFrom]
      simp only [hle, if_false, hskip, hf, Checked.ok_bind, List.headD_cons, ne_eq, not_true, hr]

theorem verify_of (hw : t.Whole) (hc : Chain m t.bottom os top) (hs : t.Sound os top) :
    t.verify m top = .ok none := by
  rw [verify, hc.walk_eq]
  exact verifyFrom_of hw hc hs (by omega) (Nat.le_add_right _ _) hc fun p hp => hp

end RegionHeap.BlockTable
