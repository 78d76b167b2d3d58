import RegionHeap.Proofs.Entries
import RegionHeap.Proofs.Runs

/-!
The search for a place for a humongous object in a list of regions. It finds the lowest run of
regions that starts before the object exactly if there is one, and whether the object moves or not,
the regions that it ends up in are those that leave the list.
-/
set_option autoImplicit false

namespace RegionHeap

variable {rs before after : List Nat} {pos pos' first first' region n : Nat}

/-- Regions in ascending order, in a list that fits into memory. -/
structure RegionList (rs : List Nat) : Prop where
  ascending : rs.Pairwise (· < ·)
  words : ∀ x ∈ rs, x < Word.limit
  length : rs.length < Word.limit

/-- So many entries with consecutive numbers stand from a position on. -/
def RunAt (rs : List Nat) (pos first n : Nat) : Prop :=
  ∀ k, k < n → rs[pos + k]? = some (first + k)

/-- A run from a position on that starts before a region. -/
def RunBelow (rs : List Nat) (region n pos : Nat) : Prop :=
  ∃ first, first < region ∧ RunAt rs pos first n

theorem IsRun.runAt (r : IsRun rs before after first n) : RunAt rs before.length first n := by
  intro k hk
  rw [r.split, List.getElem?_append_right (Nat.le_add_right _ _), Nat.add_sub_cancel_left,
    List.getElem?_append_left (by simpa using hk), List.getElem?_range' hk, Nat.one_mul]

theorem RunAt.not_lacks (r : RunAt rs pos first n) : ¬Lacks rs first n := by
  rintro ⟨x, hx, hlt, hnot⟩
  have hget := r (x - first) (by omega)
  rw [show first + (x - first) = x by omega] at hget
  exact hnot (List.mem_of_getElem? hget)

theorem RunAt.first_lt (h : rs.Pairwise (· < ·)) (hn : 0 < n) (r : RunAt rs pos first n)
    (r' : RunAt rs pos' first' n) (hlt : pos' < pos) : first' < first := by
  obtain ⟨hpos, hfirst⟩ := List.getElem?_eq_some_iff.mp (r 0 hn)
  obtain ⟨hpos', hfirst'⟩ := List.getElem?_eq_some_iff.mp (r' 0 hn)
  have := List.pairwise_iff_getElem.mp h _ _ hpos' hpos (by omega)
  omega

namespace CompactionPoint

namespace LowestRun

variable {found : Option Nat} (l : LowestRun rs region n found)

include l

theorem eq_none_iff : found = .none ↔ ∀ pos, ¬RunBelow rs region n pos := by
  refine ⟨fun e pos ⟨first, hlt, r⟩ => r.not_lacks (l.none e first hlt), fun h => ?_⟩
  cases hf : found with
  | none => rfl
  | some start =>
    obtain ⟨t, before, after, hlt, -, r, -⟩ := l.some start hf
    exact absurd ⟨t, hlt, r.runAt⟩ (h _)

theorem lowest (h : rs.Pairwise (· < ·)) (hn : 0 < n) (hf : found = .some pos) :
    RunBelow rs region n pos ∧ ∀ pos', pos' < pos → ¬RunBelow rs region n pos' := by
  obtain ⟨t, before, after, hlt, rfl, r, hlacks⟩ := l.some pos hf
  refine ⟨⟨t, hlt, r.runAt⟩, fun pos' hpos ⟨first, _, r'⟩ => r'.not_lacks (hlacks first ?_)⟩
  exact r.runAt.first_lt h hn r' hpos

theorem eq_some_iff (h : rs.Pairwise (· < ·)) (hn : 0 < n) : found = .some pos ↔
    RunBelow rs region n pos ∧ ∀ pos', pos' < pos → ¬RunBelow rs region n pos' := by
  refine ⟨l.lowest h hn, fun ⟨hrun, hlowest⟩ => ?_⟩
  cases hf : found with
  | none => exact absurd hrun (l.eq_none_iff.mp hf pos)
  | some start =>
    -- two runs of which none stands before the other
    obtain ⟨hstart, hbefore⟩ := l.lowest h hn hf
    have hnot : ¬start < pos := fun hlt => hlowest start hlt hstart
    have hnot' : ¬pos < start := fun hlt => hbefore pos hlt hrun
    rw [show start = pos by omega]

end LowestRun

/-- So many regions from one on have left the list, and nothing else has changed. -/
structure Drained (p p' : CompactionPoint) (dest n : Nat) : Prop where
  same : p' = { p with regions := p'.regions }
  regions : p'.regions = p.regions.filter fun x => ¬(dest ≤ x ∧ x < dest + n)
  length : p'.regions.length + n = p.regions.length
  ascending : p'.regions.Pairwise (· < ·)

namespace Drained

variable {p p' : CompactionPoint} {dest x : Nat}

theorem of_run (h : p.regions.Pairwise (· < ·)) (r : IsRun p.regions before after dest n) :
    p.Drained { p with regions := before ++ after } dest n := by
  have hascending := r.ascending_removed h
  refine ⟨rfl, ?_, ?_, hascending⟩
  · refine eq_of_ascending hascending (h.filter _) fun x => ?_
    rw [r.mem_removed h, List.mem_filter, decide_eq_true_eq]
  · rw [r.split]
    simp only [List.length_append, List.length_range']
    omega

theorem mem_iff (d : p.Drained p' dest n) :
    x ∈ p'.regions ↔ x ∈ p.regions ∧ ¬(dest ≤ x ∧ x < dest + n) := by
  rw [d.regions, List.mem_filter, decide_eq_true_eq]

end Drained

end CompactionPoint

/-- Notes in an object where it goes, if it moves. -/
def RegionTable.sent (t : RegionTable) (region : Nat) (target : Option Nat) : RegionTable :=
  match target with
  | none => t
  | some j =>
    { t with memory := Object.forwardTo t.memory (t.region region).bottom (t.region j).bottom }

namespace CompactionPoint

variable {p : CompactionPoint} {t : RegionTable}

/-- A humongous object moves to the run that is found, if there is one, and otherwise stays. The
regions that it ends up in leave the list. -/
theorem forwardHumongous_eq (h : RegionList p.regions) (hn : 0 < n)
    (own : IsRun p.regions before after region n) (hin : ∀ x ∈ p.regions, x < t.size)
    (hk : (t.region region).kind.isStartsHumongous = true) {found : Option Nat}
    (hf : p.runBefore region n = .ok found) (l : LowestRun p.regions region n found) :
    ∃ target p', p.forwardHumongous t region n = .ok (target, p', t.sent region target) ∧
      target = found.bind (p.regions[·]?) ∧ p.Drained p' (target.getD region) n := by
  have hget := RegionTable.get_of_lt (hin region (own.mem_of (Nat.le_refl _) (by omega)))
  cases found with
  | none =>
    have hadd : Word.add before.length n = .ok (before.length + n) :=
      Word.add_eq_ok.mpr ⟨Nat.lt_of_le_of_lt own.end_le h.length, rfl⟩
    refine ⟨none, { p with regions := before ++ after }, ?_, rfl, .of_run h.ascending own⟩
    rw [forwardHumongous]
    simp only [hget, hk, Checked.unless_true, Checked.ok_bind, hf, own.idxOf h.ascending hn, hadd,
      own.removed, Checked.pure_eq, RegionTable.sent]
  | some start =>
    obtain ⟨j, before', after', hj, rfl, r, -⟩ := l.some start rfl
    have htarget := RegionTable.get_of_lt (hin j (r.mem_of (Nat.le_refl _) (by omega)))
    refine ⟨some j, { p with regions := before' ++ after' }, ?_, (r.get hn).symm,
      .of_run h.ascending r⟩
    rw [forwardHumongous]
    simp only [hget, hk, Checked.unless_true, Checked.ok_bind, hf, r.get hn, Option.getD_some,
      htarget, r.removed, Checked.pure_eq, RegionTable.sent]

/-- The search for an object of so many regions that are in the list answers with the position of
the lowest run that starts before the object, and with none exactly if there is no such run. The
regions that the object ends up in are the ones that leave the list; those of an object that starts
above it and shares no region with it stay. -/
theorem run_search_exact (h : RegionList p.regions) (hn : 0 < n)
    (hown : ∀ k, k < n → region + k ∈ p.regions) :
    ∃ found, p.runBefore region n = .ok found ∧
      (∀ pos, found = some pos ↔ RunBelow p.regions region n pos ∧
        ∀ pos', pos' < pos → ¬RunBelow p.regions region n pos') ∧
      (found = none ↔ ∀ pos, ¬RunBelow p.regions region n pos) ∧
      ∀ t : RegionTable, (∀ x ∈ p.regions, x < t.size) →
        (t.region region).kind.isStartsHumongous = true →
        ∃ target p', p.forwardHumongous t region n = .ok (target, p', t.sent region target) ∧
          target = found.bind (p.regions[·]?) ∧ p.Drained p' (target.getD region) n ∧
          ∀ start span, region < start →
            (∀ x, start ≤ x → x < start + span → ¬(region ≤ x ∧ x < region + n)) →
            ∀ x ∈ p.regions, start ≤ x → x < start + span → x ∈ p'.regions := by
  obtain ⟨before, after, own⟩ := exists_isRun (t := region) h.ascending hn fun x hx hlt => by
    have hx' := hown (x - region) (by omega)
    rwa [show region + (x - region) = x by omega] at hx'
  obtain ⟨found, hf, l⟩ := runBefore_of h.ascending hn own h.words h.length
  refine ⟨found, hf, fun pos => l.eq_some_iff h.ascending hn, l.eq_none_iff, fun t hin hk => ?_⟩
  obtain ⟨target, p', hp, htarget, d⟩ := forwardHumongous_eq h hn own hin hk hf l
  refine ⟨target, p', hp, htarget, d, fun start span hstart hapart x hx hfrom hto => ?_⟩
  -- the object ends up no higher than where it was
  have hdest : target.getD region ≤ region := by
    cases found with
    | none => rw [htarget]; exact Nat.le_refl _
    | some pos =>
      obtain ⟨j, before', _, hj, rfl, r, -⟩ := l.some pos rfl
      rw [htarget, Option.bind_some, r.get hn]
      exact Nat.le_of_lt hj
  have := hapart x hfrom hto
  exact d.mem_iff.mpr ⟨hx, by omega⟩

/-- An object of three regions slides down by one. -/
theorem run_search_slide :
    let p : CompactionPoint := { regions := [7, 8, 9, 10, 12] }
    let t : RegionTable :=
      { regions := Array.replicate 13 { (default : Region) with kind := .startsHumongous },
        shared := default, config := default }
    p.runBefore 8 3 = .ok (some 0) ∧
      ∃ p', p.forwardHumongous t 8 3 = .ok (some 7, p', t.sent 8 (some 7)) ∧
        p.Drained p' 7 3 ∧ 12 ∈ p'.regions := by
  intro p t
  have hp : RegionList p.regions := ⟨by decide, by decide, by decide⟩
  have hown : ∀ k, k < 3 → 8 + k ∈ p.regions := by decide
  obtain ⟨found, hf, -, -, hmove⟩ := run_search_exact hp (by decide) hown
  have hfound : p.runBefore 8 3 = .ok (some 0) := rfl
  obtain rfl : some 0 = found := Except.ok.inj (hfound.symm.trans hf)
  obtain ⟨target, p', hto, htarget, d, hrest⟩ := hmove t (by decide) rfl
  obtain rfl : target = some 7 := htarget
  exact ⟨hfound, p', hto, d, hrest 12 1 (by decide) (by omega) 12 (by decide) (by decide)
    (by decide)⟩

end CompactionPoint

end RegionHeap
