import RegionHeap.Proofs.Sites

/-!
Requests for words of a region. A request takes the words above the top if the region has them left,
and changes nothing otherwise. The bytes of a request are counted in one word, whose upper bits are
lost: from a count of 2^61 on, what a request takes is less than what it asks for.
-/
set_option autoImplicit false

namespace RegionHeap.Region

variable {r r' : Region} {words : Nat}

/-- The bytes that a request for so many words takes. -/
def requestBytes (words : Nat) : Nat := (words <<< Address.logBytesInWord) % Word.limit

theorem requestBytes_of_lt (h : words < 1 <<< 61) : requestBytes words = 8 * words := by
  simp only [requestBytes, Address.logBytesInWord, Word.limit, Nat.shiftLeft_eq] at h ⊢
  omega

theorem addWords_eq (a words : Nat) :
    Address.addWords a words = Word.add a (requestBytes words) := rfl

/-- The region has room for what a request takes. -/
def Serves (r : Region) (words : Nat) : Prop :=
  0 < requestBytes words ∧ r.top + requestBytes words ≤ r.limit

namespace Whole

theorem allocate_of (w : r.Whole) (h : r.Serves words) : ∃ starts,
    r.allocate words = .ok (some r.top, { r with
      top := r.top + requestBytes words, blocks := { r.blocks with starts := starts } }) ∧
    ({ r with top := r.top + requestBytes words, blocks := { r.blocks with starts := starts } } :
      Region).Whole ∧
    starts.size = r.blocks.starts.size ∧ ∀ c, c < r.blocks.starts.size → Table.entry starts c =
      if r.top ≤ r.blocks.cardStart c ∧ r.blocks.cardStart c < r.top + requestBytes words then r.top
      else Table.entry r.blocks.starts c := by
  obtain ⟨hpos, hfit⟩ := h
  obtain ⟨starts, hrecord, hsize, hentry⟩ := BlockTable.record_of w.blocks
    (show r.top < r.top + requestBytes words by omega)
  have hw := w.withTop (Nat.le_trans w.bottom_le (Nat.le_add_right _ _)) hfit
  refine ⟨starts, ?_, hw.withStarts hsize, hsize, hentry⟩
  have hadd : Address.addWords r.top words = .ok (r.top + requestBytes words) :=
    Word.add_eq_ok.mpr ⟨Nat.lt_of_le_of_lt hfit w.limit_lt, rfl⟩
  rw [allocate, Checked.bind_of hadd, if_neg (Nat.not_lt.mpr hfit), recordBlock,
    Checked.bind_of hrecord]
  rfl

end Whole

theorem allocate_of_not_serves (h : ¬r.Serves words) {x : Option Nat × Region}
    (hx : r.allocate words = .ok x) : x = (none, r) := by
  obtain ⟨top, hadd, hrest⟩ := Checked.bind_eq_ok.mp hx
  rw [addWords_eq, Word.add_eq_ok] at hadd
  obtain ⟨-, rfl⟩ := hadd
  split at hrest
  · exact (Except.ok.inj hrest).symm
  · next hfit =>
    -- there is room for no bytes at all only, and an empty block is not recorded
    have hnone : requestBytes words = 0 := by
      unfold Serves at h
      omega
    simp only [recordBlock, BlockTable.record, hnone, Nat.add_zero, Nat.lt_irrefl, decide_false]
      at hrest
    contradiction

theorem allocate_full (hlt : r.limit < r.top + requestBytes words)
    (hw : r.top + requestBytes words < Word.limit) : r.allocate words = .ok (none, r) := by
  have hadd : Address.addWords r.top words = .ok (r.top + requestBytes words) :=
    Word.add_eq_ok.mpr ⟨hw, rfl⟩
  rw [allocate, Checked.bind_of hadd, if_pos hlt]
  rfl

/-- The answer to a request and what becomes of the region. A refused request changes nothing. -/
def request (r : Region) (words : Nat) : Option Nat × Region :=
  (r.allocate words).toOption.getD (none, r)

/-- What was taken for a request. -/
structure Block where
  address : Nat
  words : Nat
  deriving DecidableEq, Repr

/-- The end of what was taken. -/
def Block.limit (b : Block) : Nat := b.address + requestBytes b.words

/-- The blocks that are taken for requests, one after the other. -/
def serve (r : Region) : List Nat → List Block × Region
  | [] => ([], r)
  | words :: rest =>
    let (place, r) := r.request words
    let (blocks, r) := r.serve rest
    ((place.map fun a => Block.mk a words).toList ++ blocks, r)

theorem request_of_not_serves (h : ¬r.Serves words) : r.request words = (none, r) := by
  unfold request
  cases hx : r.allocate words with
  | error f => rfl
  | ok x => exact allocate_of_not_serves h hx

/-- A request either takes the block at the top or changes nothing. -/
theorem Whole.request_of (w : r.Whole) (words : Nat) :
    (r.Serves words ∧ ∃ r', r.request words = (some r.top, r') ∧ r'.Whole ∧
      r'.bottom = r.bottom ∧ r'.limit = r.limit ∧ r'.top = r.top + requestBytes words) ∨
    (¬r.Serves words ∧ r.request words = (none, r)) := by
  by_cases h : r.Serves words
  · obtain ⟨starts, hallocate, hw, -⟩ := w.allocate_of h
    refine .inl ⟨h, _, ?_, hw, rfl, rfl, rfl⟩
    rw [request, hallocate]
    rfl
  · exact .inr ⟨h, request_of_not_serves h⟩

/-- Blocks that lie one behind the other between two addresses. -/
structure Stacked (blocks : List Block) (bottom top : Nat) : Prop where
  apart : blocks.Pairwise fun b c => b.limit ≤ c.address
  inside : ∀ b ∈ blocks, bottom ≤ b.address ∧ b.address < b.limit ∧ b.limit ≤ top

/-- What requests take is stacked on the top, which ends up behind the last block. -/
theorem Whole.serve_of (w : r.Whole) (counts : List Nat) :
    Stacked (r.serve counts).1 r.top (r.serve counts).2.top ∧ (r.serve counts).2.Whole ∧
      (r.serve counts).2.limit = r.limit ∧ r.top ≤ (r.serve counts).2.top ∧
      ((r.serve counts).1.map Block.words).Sublist counts := by
  induction counts generalizing r with
  | nil => exact ⟨⟨.nil, by simp [serve]⟩, w, rfl, Nat.le_refl _, .slnil⟩
  | cons words rest ih =>
    rcases w.request_of words with ⟨⟨hpos, -⟩, r', hr, w', -, hlimit, htop⟩ | ⟨-, hr⟩
    · obtain ⟨⟨hapart, hinside⟩, hw, hlimit', hle, hsub⟩ := ih w'
      have hserve : r.serve (words :: rest) =
          (⟨r.top, words⟩ :: (r'.serve rest).1, (r'.serve rest).2) := by
        simp only [serve, hr]
        rfl
      have hend : (Block.mk r.top words).limit = r'.top := htop.symm
      rw [hserve]
      refine ⟨⟨List.pairwise_cons.mpr ⟨fun c hc => hend ▸ (hinside c hc).1, hapart⟩, ?_⟩, hw,
        hlimit'.trans hlimit, by dsimp only; omega, hsub.cons_cons words⟩
      intro b hb
      rcases List.mem_cons.mp hb with rfl | hb
      · exact ⟨Nat.le_refl _, by rw [hend]; dsimp only; omega, hend ▸ hle⟩
      · have := hinside b hb
        exact ⟨by omega, this.2.1, this.2.2⟩
    · obtain ⟨hs, hw, hlimit, hle, hsub⟩ := ih w
      have hserve : r.serve (words :: rest) = r.serve rest := by
        simp only [serve, hr]
        rfl
      rw [hserve]
      exact ⟨hs, hw, hlimit, hle, hsub.cons words⟩

/-- A request takes what its bytes come to at the top, if that is something and the region has it
left, and changes nothing otherwise. Whatever is asked for, the blocks that are taken lie one behind
the other in the region. They are the words that were asked for below a count of 2^61; from there on
the words that were asked for reach beyond the region. -/
theorem Whole.serve_stacks (w : r.Whole) (counts : List Nat) :
    (∀ words,
      (r.Serves words → ∃ r', r.allocate words = .ok (some r.top, r') ∧
        r'.top = r.top + requestBytes words ∧ r'.Whole) ∧
      (¬r.Serves words → ∀ x, r.allocate words = .ok x → x = (none, r))) ∧
    Stacked (r.serve counts).1 r.bottom r.limit ∧
    ((r.serve counts).1.map Block.words).Sublist counts ∧
    ∀ b ∈ (r.serve counts).1, (b.words < 1 <<< 61 → b.limit = b.address + 8 * b.words) ∧
      (1 <<< 61 ≤ b.words → r.limit < b.address + 8 * b.words) := by
  obtain ⟨hs, hw, hlimit, -, hsub⟩ := w.serve_of counts
  have htop := hlimit ▸ hw.top_le
  have hbottom := w.bottom_le
  refine ⟨fun words => ⟨fun h => ?_, fun h x hx => allocate_of_not_serves h hx⟩,
    ⟨hs.apart, fun b hb => ?_⟩, hsub, fun b hb => ⟨fun hlt => ?_, fun hge => ?_⟩⟩
  · obtain ⟨starts, hallocate, hwhole, -⟩ := w.allocate_of h
    exact ⟨_, hallocate, rfl, hwhole⟩
  · have := hs.inside b hb
    exact ⟨by omega, this.2.1, by omega⟩
  · rw [Block.limit, requestBytes_of_lt hlt]
  · have hlt := w.limit_lt
    have hbig : 1 <<< 61 ≤ b.words := hge
    simp only [Word.limit, Nat.shiftLeft_eq] at hlt hbig
    omega

/-- In a region of 8192 words, a request for 2^61 + 1 of them takes the first one, and one for 2^61
takes nothing. -/
theorem serve_sample : ∃ r, create 0 65536 65536 default = .ok r ∧ r.Whole ∧
    (r.serve [1 <<< 61 + 1, 8190, 3, 1 <<< 61, 1]).1 =
      [⟨65536, 1 <<< 61 + 1⟩, ⟨65544, 8190⟩, ⟨131064, 1⟩] ∧
    Stacked (r.serve [1 <<< 61 + 1, 8190, 3, 1 <<< 61, 1]).1 r.bottom r.limit := by
  obtain ⟨r, hr, hserve⟩ : ∃ r, create 0 65536 65536 default = .ok r ∧
      (r.serve [1 <<< 61 + 1, 8190, 3, 1 <<< 61, 1]).1 =
        [⟨65536, 1 <<< 61 + 1⟩, ⟨65544, 8190⟩, ⟨131064, 1⟩] := ⟨_, rfl, by decide +kernel⟩
  have hw := create_whole rfl hr
  exact ⟨r, hr, hw, hserve, (hw.serve_stacks _).2.1⟩

end RegionHeap.Region
