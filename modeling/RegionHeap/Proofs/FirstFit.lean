import RegionHeap.Proofs.FreeRegions
import RegionHeap.Proofs.Placing
import RegionHeap.Proofs.Runs

/-!
First fit. The search for a run of free regions finds the lowest one that is long enough, and the
humongous object takes just the regions of this run. All that this needs of a heap is that its free
list lists the free regions and that these are not in use.
-/
set_option autoImplicit false

namespace RegionHeap.Heap

variable {ids rest : List Nat} {count start length i : Nat}

/-- The run that a search has seen last. It ends before the ids that are left, and nothing below it
is long enough. -/
structure Scanned (ids rest : List Nat) (count start length : Nat) : Prop where
  run : ∀ x, start ≤ x → x < start + length → x ∈ ids
  behind : ∀ x ∈ ids, x < start + length ∨ x ∈ rest
  ahead : ∀ x ∈ rest, x ∈ ids ∧ start + length ≤ x
  lower : ∀ u, u < start → Lacks ids u count

namespace Scanned

theorem passed (s : Scanned ids (i :: rest) count start length)
    (h : (i :: rest).Pairwise (· < ·)) :
    (∀ x ∈ ids, x < i + 1 ∨ x ∈ rest) ∧ ∀ x ∈ rest, x ∈ ids ∧ i + 1 ≤ x := by
  refine ⟨fun x hx => ?_, fun x hx => ⟨(s.ahead x (by simp [hx])).1, ?_⟩⟩
  · have hle := (s.ahead i (by simp)).2
    rcases s.behind x hx with hin | hmem
    · exact .inl (by omega)
    · rcases List.mem_cons.mp hmem with rfl | hmem
      · exact .inl (by omega)
      · exact .inr hmem
  · exact (List.pairwise_cons.mp h).1 x hx

theorem extend (s : Scanned ids ((start + length) :: rest) count start length)
    (h : ((start + length) :: rest).Pairwise (· < ·)) :
    Scanned ids rest count start (length + 1) := by
  obtain ⟨behind, ahead⟩ := s.passed h
  refine ⟨fun x hfrom hto => ?_, behind, ahead, s.lower⟩
  rcases Nat.lt_or_ge x (start + length) with hin | hge
  · exact s.run x hfrom hin
  · obtain rfl : x = start + length := by omega
    exact (s.ahead _ (by simp)).1

theorem lacks (s : Scanned ids rest count start length) (hc : length < count) {u : Nat}
    (hu : ∀ x ∈ rest, u < x) (hgap : start + length ∉ rest) : Lacks ids u count := by
  by_cases hlow : u < start
  · exact s.lower u hlow
  · by_cases hin : u ≤ start + length
    · refine ⟨start + length, hin, by omega, fun hx => ?_⟩
      rcases s.behind _ hx with h | h
      · omega
      · exact hgap h
    · refine ⟨u, Nat.le_refl u, by omega, fun hx => ?_⟩
      rcases s.behind u hx with h | h
      · omega
      · exact Nat.lt_irrefl u (hu u h)

theorem restart (s : Scanned ids (i :: rest) count start length)
    (h : (i :: rest).Pairwise (· < ·)) (hc : length < count)
    (hi : i = start + length → length = 0) :
    Scanned ids rest count i 1 := by
  obtain ⟨hlt, -⟩ := List.pairwise_cons.mp h
  obtain ⟨behind, ahead⟩ := s.passed h
  have hle := (s.ahead i (by simp)).2
  refine ⟨fun x hfrom hto => ?_, behind, ahead, fun u hu => ?_⟩
  · obtain rfl : x = i := by omega
    exact (s.ahead x (by simp)).1
  · have hall : ∀ x ∈ i :: rest, u < x := fun x hx => by
      rcases List.mem_cons.mp hx with rfl | hx
      · exact hu
      · exact Nat.lt_trans hu (hlt x hx)
    by_cases hgap : start + length = i
    · exact s.lower u (by have := hi hgap.symm; omega)
    · refine s.lacks hc hall fun hmem => ?_
      rcases List.mem_cons.mp hmem with he | hmem
      · exact hgap he
      · have := hlt _ hmem
        omega

end Scanned

/-- The lowest run of so many ids, if there is one. -/
def LowestIn (ids : List Nat) (count : Nat) : Option Nat → Prop
  | none => ∀ u, Lacks ids u count
  | some first =>
    (∀ x, first ≤ x → x < first + count → x ∈ ids) ∧ ∀ u, u < first → Lacks ids u count

theorem firstRun_zero (ids : List Nat) (start length : Nat) :
    firstRun 0 ids start length = none := by
  induction ids generalizing start length with
  | nil => rfl
  | cons i ids ih =>
    rw [firstRun]
    split
    next e =>
    split at e <;> obtain ⟨rfl, rfl⟩ := Prod.mk.inj e <;> simp [ih]

theorem firstRun_from (h : rest.Pairwise (· < ·)) (hc : length < count)
    (s : Scanned ids rest count start length) :
    LowestIn ids count (firstRun count rest start length) := by
  induction rest generalizing start length with
  | nil => exact fun u => s.lacks hc (by simp) (by simp)
  | cons i rest ih =>
    -- the run that the id belongs to
    have next : ∀ start length, 0 < count → length ≤ count → Scanned ids rest count start length →
        LowestIn ids count
          (if length = count then some start else firstRun count rest start length) := by
      intro start length _ hle s
      split
      · next e => exact ⟨e ▸ s.run, s.lower⟩
      · exact ih (List.pairwise_cons.mp h).2 (by omega) s
    rw [firstRun]
    split
    next e =>
    split at e
    · next hrun =>
      obtain ⟨rfl, rfl⟩ := Prod.mk.inj e
      obtain ⟨-, rfl⟩ := hrun
      exact next _ _ (by omega) hc (s.extend h)
    · next hrun =>
      obtain ⟨rfl, rfl⟩ := Prod.mk.inj e
      exact next _ _ (by omega) (by omega) (s.restart h hc fun hi => by omega)

/-- The search finds the lowest run that is long enough, or there is none. -/
theorem firstRun_lowest (h : ids.Pairwise (· < ·)) (hc : 0 < count) :
    LowestIn ids count (firstRun count ids 0 0) :=
  firstRun_from h hc ⟨by omega, fun _ hx => .inr hx, fun _ hx => ⟨hx, by omega⟩, by omega⟩

variable {h h' : Heap} {L : Layout} {words : Nat}

/-- What first fit needs of a heap, whatever lies in it. -/
structure Sited (h : Heap) (L : Layout) : Prop where
  words : h.regionWords = L.words
  words_lt : L.words < Object.sizeLimit
  table : h.table.Sited L
  freeList : h.freeList = ⟨(List.range L.count).filter fun i => (h.region i).kind.isFree⟩
  vacant : ∀ i, i < L.count → (h.region i).kind.isFree → (h.region i).Vacant

/-- So many regions from one on are free. -/
def HasFree (h : Heap) (first count : Nat) : Prop :=
  first + count ≤ h.regionCount ∧
    ∀ k, first ≤ k → k < first + count → (h.region k).kind.isFree = true

namespace Sited

variable (s : h.Sited L)

include s

theorem regionCount : h.regionCount = L.count := s.table.size

theorem mem_free : i ∈ h.freeList.ids ↔ i < L.count ∧ (h.region i).kind.isFree = true := by
  simp [s.freeList]

theorem ascending : h.freeList.ids.Pairwise (· < ·) := by
  rw [s.freeList]
  exact List.pairwise_lt_range.filter _

theorem not_hasFree {u : Nat} (hl : Lacks h.freeList.ids u count) : ¬h.HasFree u count := by
  rintro ⟨hin, hfree⟩
  obtain ⟨x, hfrom, hto, hx⟩ := hl
  exact hx (s.mem_free.mpr ⟨by have := s.regionCount; omega, hfree x hfrom hto⟩)

theorem hasFree {first : Nat} (hc : 0 < count)
    (hin : ∀ x, first ≤ x → x < first + count → x ∈ h.freeList.ids) : h.HasFree first count := by
  refine ⟨?_, fun k hfrom hto => (s.mem_free.mp (hin k hfrom hto)).2⟩
  have := (s.mem_free.mp (hin (first + count - 1) (by omega) (by omega))).1
  have := s.regionCount
  omega

/-- A humongous object takes the lowest free regions that hold it, if there are any. -/
theorem allocateHumongous_of (hpos : 0 < words) :
    h.allocateHumongous words = .ok (none, h) ∧ (∀ u, ¬h.HasFree u (h.regionsFor words)) ∨
    ∃ first t', h.allocateHumongous words = .ok (some (L.bottom first), { h with
        freeList := ⟨(List.range L.count).filter fun i => (h.region i).kind.isFree &&
          !decide (first ≤ i ∧ i < first + h.regionsFor words)⟩
        table := t' }) ∧
      h.HasFree first (h.regionsFor words) ∧
      (∀ u, u < first → ¬h.HasFree u (h.regionsFor words)) ∧
      Placed L h.table first (h.regionsFor words) (L.bottom first + 8 * words) t' := by
  have hcount : h.regionsFor words = Word.divCeil words L.words := by
    rw [regionsFor, s.words]
  obtain ⟨n, hn⟩ : ∃ n, h.regionsFor words = n := ⟨_, rfl⟩
  have hnpos := Word.divCeil_pos hpos L.words_pos
  rw [← hcount, hn] at hnpos
  rw [allocateHumongous, hn]
  dsimp only
  cases hrun : firstRun n h.freeList.ids 0 0 with
  | none =>
    have hnone := firstRun_lowest s.ascending hnpos
    rw [hrun] at hnone
    exact .inl ⟨rfl, fun u => s.not_hasFree (hnone u)⟩
  | some first =>
    obtain ⟨hin, hlow⟩ : LowestIn h.freeList.ids n (some first) :=
      hrun ▸ firstRun_lowest s.ascending hnpos
    have hfree := s.hasFree hnpos hin
    have hwithin : first + n ≤ L.count := s.regionCount ▸ hfree.1
    have hfit := L.add_le_bottom first words
    have hneed := L.bottom_lt_add first hpos
    rw [← hcount, hn] at hfit hneed
    obtain ⟨t', hplace, placed⟩ := RegionTable.placeHumongous_of s.table hnpos hwithin
      (fun k hfrom hto => s.vacant k (by omega) (hfree.2 k hfrom hto)) hfit hneed
    refine .inr ⟨first, t', ?_, hfree, fun u hu => s.not_hasFree (hlow u hu), placed⟩
    have hget : h.table.get first = .ok (h.table.region first) := s.table.get_of (by omega)
    have hbottom := (s.table.region first (by omega)).bottom
    dsimp only
    rw [s.freeList, IndexList.eraseRange_filter, Checked.bind_of hget, hbottom,
      Checked.bind_of hplace]
    rfl

end Sited

end RegionHeap.Heap
