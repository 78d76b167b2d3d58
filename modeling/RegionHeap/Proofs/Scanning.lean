import RegionHeap.Proofs.SlotBalance

/-!
Scans of card sets. Scanners claim the containers that a set has when the scan starts, as many at a
time as they like, and visit what they have claimed, while others may change the set. What is
claimed are consecutive ranges, whoever claims them.
-/
set_option autoImplicit false

namespace RegionHeap

/-- Ranges that are not empty and lie one behind the other, from one end to the other. -/
inductive Covers : Nat → Nat → List (Nat × Nat) → Prop where
  | nil (a : Nat) : Covers a a []
  | cons {a b c : Nat} {rs : List (Nat × Nat)} (h : a < b) (hr : Covers b c rs) :
    Covers a c ((a, b) :: rs)

namespace Covers

variable {a b c : Nat} {rs : List (Nat × Nat)}

theorem le (h : Covers a b rs) : a ≤ b := by
  induction h with
  | nil a => exact Nat.le_refl a
  | cons h _ ih => exact Nat.le_trans (Nat.le_of_lt h) ih

theorem bounds (h : Covers a b rs) : ∀ r ∈ rs, a ≤ r.1 ∧ r.1 < r.2 ∧ r.2 ≤ b := by
  induction h with
  | nil a => simp
  | cons h hr ih =>
    intro r hmem
    obtain rfl | hmem := List.mem_cons.mp hmem
    · exact ⟨Nat.le_refl _, h, hr.le⟩
    · obtain ⟨h₁, h₂, h₃⟩ := ih r hmem
      exact ⟨by omega, h₂, h₃⟩

theorem apart (h : Covers a b rs) : rs.Pairwise fun r r' => r.2 ≤ r'.1 := by
  induction h with
  | nil a => exact .nil
  | cons h hr ih => exact .cons (fun r hmem => (hr.bounds r hmem).1) ih

end Covers

namespace CardSet

/-- The sets that there can be, also while they are scanned. -/
inductive Reached : CardSet → Prop where
  | create (config : CardConfig) : Reached (create config)
  | event {s s' : CardSet} (h : Reached s) (e : Event) (he : e.perform s = .ok s') : Reached s'
  | startScan {s : CardSet} (h : Reached s) : Reached s.startScan
  | claim {s s' : CardSet} {step : Nat} {answer : Option (Nat × Nat)} (h : Reached s)
    (hc : s.claim step = .ok (answer, s')) : Reached s'

/-- A scan under way. -/
structure Scanning where
  set : CardSet
  /-- What the claims were answered, in order. -/
  answers : List (Option (Nat × Nat)) := []
  /-- The ranges that were visited, and the cards found there. -/
  visited : List (Nat × Nat) := []
  seen : List Nat := []

namespace Scanning

/-- What happens during a scan, whichever scanner does it. -/
inductive Action where
  | claim (step : Nat)
  | visit (range : Nat × Nat)
  | event (e : Event)

def ranges (p : Scanning) : List (Nat × Nat) := p.answers.filterMap id

/-- Only what was claimed is visited. -/
def Action.perform (p : Scanning) : Action → Checked Scanning
  | .claim step => do
    let (answer, set) ← p.set.claim step
    return { p with set := set, answers := p.answers ++ [answer] }
  | .visit range =>
    if range ∈ p.ranges then do
      let cards ← p.set.cardsIn range.1 range.2
      return { p with visited := p.visited ++ [range], seen := p.seen ++ cards }
    else return p
  | .event e => do
    let set ← e.perform p.set
    return { p with set := set }

end Scanning

open Scanning (Action)

/-- A scan from its start on. -/
def scanned (s : CardSet) (actions : List Action) : Checked Scanning :=
  actions.foldlM Action.perform { set := s.startScan }

/-- The numbers of containers that are asked for. -/
def steps (actions : List Action) : List Nat :=
  actions.filterMap fun a => match a with
    | .claim step => some step
    | _ => none

/-- What else is done with the set meanwhile. -/
def events (actions : List Action) : List Event :=
  actions.filterMap fun a => match a with
    | .event e => some e
    | _ => none

/-- The answers to claims from a position on. -/
def answersFrom (count : Nat) : Nat → List Nat → List (Option (Nat × Nat))
  | _, [] => []
  | start, step :: rest =>
    (if start < count then some (start, min (start + step) count) else none) ::
      answersFrom count (start + step) rest

section Answers

variable {count start : Nat} {ns : List Nat}

theorem answersFrom_concat (count start : Nat) (ns : List Nat) (n : Nat) :
    answersFrom count start (ns ++ [n]) = answersFrom count start ns ++
      [if start + Word.total ns < count then
        some (start + Word.total ns, min (start + Word.total ns + n) count) else none] := by
  induction ns generalizing start with
  | nil => rfl
  | cons m ns ih =>
    simp only [List.cons_append, answersFrom, ih, Word.total, Nat.add_assoc]

theorem mem_answersFrom {r : Nat × Nat} (h : some r ∈ answersFrom count start ns) :
    r.1 ≤ r.2 ∧ r.2 ≤ count := by
  induction ns generalizing start with
  | nil => simp [answersFrom] at h
  | cons n ns ih =>
    rw [answersFrom, List.mem_cons] at h
    obtain h | h := h
    · split at h
      · obtain rfl := Option.some.inj h
        simp only
        omega
      · contradiction
    · exact ih h

end Answers

section Events

variable {s s' t : CardSet} {xs : List Nat} {a b r : Nat} {e : Event}

/-- The members in the order in which they came in, after one more event. -/
def Event.arrange (xs : List Nat) : Event → List Nat
  | .operation op => op.arrange xs
  | .transfer _ => xs

/-- An event that adds no card and removes none. -/
def Event.Idle (s : CardSet) : Event → Prop
  | .operation (.add card) => s.contains card = true
  | .operation .clear => s.isEmpty = true
  | .operation (.rounds _) => True
  | .transfer _ => True

theorem Represents.event (h : s.Represents xs) (he : e.perform s = .ok s') :
    s'.Represents (e.arrange xs) ∧ s'.config = s.config ∧ s'.scan = s.scan ∧
      s'.cursor = s.cursor := by
  cases e with
  | operation op =>
    cases op with
    | add card =>
      obtain ⟨⟨new, t⟩, hadd, ht⟩ := Checked.bind_eq_ok.mp he
      obtain rfl := Except.ok.inj ht
      have hscan : t.scan = s.scan ∧ t.cursor = s.cursor := by
        obtain ⟨c, m, -, ⟨-, -, rfl⟩ | ⟨-, -, c', m', -, rfl⟩⟩ := add_eq_ok hadd <;> exact ⟨rfl, rfl⟩
      exact ⟨h.add hadd, config_add hadd, hscan⟩
    | clear =>
      obtain rfl := Except.ok.inj he
      exact ⟨.clear s, rfl, rfl, rfl⟩
    | rounds r =>
      obtain rfl := Except.ok.inj he
      exact ⟨h.withRounds r, rfl, rfl, rfl⟩
  | transfer k =>
    obtain rfl := Except.ok.inj he
    exact ⟨⟨h.nodup, h.occupied, h.ascending, h.missing, h.holds⟩, rfl, rfl, rfl⟩

theorem Reached.happen (h : Reached s) {es : List Event} (hs : s.happen es = .ok t) :
    Reached t := by
  induction es generalizing s with
  | nil =>
    obtain rfl := Except.ok.inj hs
    exact h
  | cons e es ih =>
    obtain ⟨u, hu, hrest⟩ := Checked.bind_eq_ok.mp hs
    exact ih (h.event e hu) hrest

theorem Reached.represents (h : Reached s) : ∃ xs, s.Represents xs := by
  induction h with
  | create config => exact ⟨[], .create config⟩
  | event h e he ih =>
    obtain ⟨xs, hxs⟩ := ih
    exact ⟨_, (hxs.event he).1⟩
  | startScan h ih =>
    obtain ⟨xs, hxs⟩ := ih
    exact ⟨xs, hxs.nodup, hxs.occupied, hxs.ascending, hxs.missing, hxs.holds⟩
  | @claim s s' step answer h hc ih =>
    obtain ⟨xs, hxs⟩ := ih
    have hset : s' = { s with cursor := Word.addWrapping s.cursor step } := by
      unfold CardSet.claim at hc
      dsimp only at hc
      split at hc
      · exact (Prod.mk.inj (Except.ok.inj hc)).2.symm
      · obtain ⟨stop, -, hc⟩ := Checked.bind_eq_ok.mp hc
        exact (Prod.mk.inj (Except.ok.inj hc)).2.symm
    rw [hset]
    exact ⟨xs, hxs.nodup, hxs.occupied, hxs.ascending, hxs.missing, hxs.holds⟩

theorem inRegion_congr (h : t.config = s.config) (xs : List Nat) (r : Nat) :
    t.inRegion xs r = s.inRegion xs r := by
  simp only [inRegion, regionOf, h]

/-- The cards of claimed containers are those of their regions, also when containers came or went
since. -/
theorem Represents.cardsIn (h : s.Represents xs) (hab : a ≤ b) (hb : b ≤ s.scan.length) :
    s.cardsIn a b =
      .ok (((s.scan.take b).drop a).flatMap fun r => visitOrder (s.inRegion xs r)) := by
  have hslice : Table.slice s.scan a b = .ok ((s.scan.take b).drop a) := if_pos ⟨hab, hb⟩
  rw [CardSet.cardsIn, hslice]
  refine congrArg Except.ok (List.flatMap_congr fun r _ => ?_)
  cases hl : s.containers.lookup r with
  | some c => exact h.cardsOf hl
  | none =>
    rw [(h.missing r).mp hl]
    rfl

end Events

/-- A scan of a set that held these cards at its start. -/
structure Underway (s : CardSet) (xs : List Nat) (done : List Action) (p : Scanning) : Prop where
  config : p.set.config = s.config
  scan : p.set.scan = s.containers.map Prod.fst
  cursor : p.set.cursor = Word.total (steps done)
  answers : p.answers = answersFrom s.containerCount 0 (steps done)
  represents : p.set.Represents ((events done).foldl Event.arrange xs)

/-- The cards of the regions of a range, as far as they are among these. -/
def found (s : CardSet) (xs : List Nat) (range : Nat × Nat) : List Nat :=
  (((s.containers.map Prod.fst).take range.2).drop range.1).flatMap fun r =>
    visitOrder (s.inRegion xs r)

section Steps

variable {s : CardSet} {xs : List Nat} {done : List Action} {p p' : Scanning} {a : Action}
  {e : Event}

namespace Underway

theorem claim (h : Underway s xs done p) {step : Nat}
    (hlimit : Word.total (steps (done ++ [.claim step])) < Word.limit) : ∃ p',
    Action.perform p (.claim step) = .ok p' ∧ Underway s xs (done ++ [.claim step]) p' ∧
      p'.visited = p.visited ∧ p'.seen = p.seen := by
  have hcount : p.set.scan.length = s.containerCount := by
    rw [h.scan, List.length_map, containerCount]
  have hsteps : steps (done ++ [.claim step]) = steps done ++ [step] := by simp [steps]
  have hevents : events (done ++ [.claim step]) = events done := by simp [events]
  have htotal : Word.total (steps done ++ [step]) = Word.total (steps done) + step := by
    simp [Word.total]
  rw [hsteps, htotal] at hlimit
  have hwrap : Word.addWrapping (Word.total (steps done)) step = Word.total (steps done) + step :=
    Nat.mod_eq_of_lt hlimit
  have hanswers := answersFrom_concat s.containerCount 0 (steps done) step
  rw [Nat.zero_add, ← h.answers] at hanswers
  have hclaim : p.set.claim step = .ok
      (if Word.total (steps done) < s.containerCount then
        some (Word.total (steps done), min (Word.total (steps done) + step) s.containerCount)
      else none, { p.set with cursor := Word.total (steps done) + step }) := by
    simp only [CardSet.claim, hcount, h.cursor, hwrap]
    by_cases hlt : Word.total (steps done) < s.containerCount
    · rw [if_neg (Nat.not_le_of_lt hlt), if_pos hlt, Word.add, if_pos hlimit]
      rfl
    · rw [if_pos (Nat.le_of_not_lt hlt), if_neg hlt]
      rfl
  refine ⟨_, Checked.bind_of hclaim _, ⟨h.config, h.scan, ?_, ?_, ?_⟩, rfl, rfl⟩
  · rw [hsteps, htotal]
  · rw [hsteps, hanswers]
  · rw [hevents]
    have hr := h.represents
    exact ⟨hr.nodup, hr.occupied, hr.ascending, hr.missing, hr.holds⟩

theorem bounds (h : Underway s xs done p) {range : Nat × Nat} (hr : range ∈ p.ranges) :
    range.1 ≤ range.2 ∧ range.2 ≤ s.containerCount := by
  obtain ⟨o, ho, rfl⟩ := List.mem_filterMap.mp hr
  rw [h.answers] at ho
  exact mem_answersFrom ho

theorem visit (h : Underway s xs done p) (range : Nat × Nat) : ∃ p',
    Action.perform p (.visit range) = .ok p' ∧ Underway s xs (done ++ [.visit range]) p' ∧
      (p'.visited = p.visited ∧ p'.seen = p.seen ∨
        range ∈ p.ranges ∧ p'.visited = p.visited ++ [range] ∧
          p'.seen = p.seen ++ found s ((events done).foldl Event.arrange xs) range) := by
  have hsteps : steps (done ++ [.visit range]) = steps done := by simp [steps]
  have hevents : events (done ++ [.visit range]) = events done := by simp [events]
  have hkept : ∀ q : Scanning, q.set = p.set → q.answers = p.answers →
      Underway s xs (done ++ [.visit range]) q := fun q hset hanswers => by
    refine ⟨hset ▸ h.config, hset ▸ h.scan, ?_, ?_, ?_⟩
    · rw [hset, hsteps, h.cursor]
    · rw [hanswers, hsteps, h.answers]
    · rw [hset, hevents]
      exact h.represents
  by_cases hr : range ∈ p.ranges
  · obtain ⟨hle, hend⟩ := h.bounds hr
    have hlength : p.set.scan.length = s.containerCount := by
      rw [h.scan, List.length_map, containerCount]
    have hcards := h.represents.cardsIn hle (hlength ▸ hend)
    rw [h.scan] at hcards
    simp only [inRegion_congr h.config] at hcards
    refine ⟨_, (if_pos hr).trans (Checked.bind_of hcards _), hkept _ rfl rfl, .inr ⟨hr, rfl, rfl⟩⟩
  · exact ⟨p, if_neg hr, hkept p rfl rfl, .inl ⟨rfl, rfl⟩⟩

theorem event (h : Underway s xs done p) (hp : Action.perform p (.event e) = .ok p') :
    Underway s xs (done ++ [.event e]) p' ∧ p'.visited = p.visited ∧ p'.seen = p.seen := by
  have hsteps : steps (done ++ [.event e]) = steps done := by simp [steps]
  have hevents : events (done ++ [.event e]) = events done ++ [e] := by simp [events]
  obtain ⟨t, ht, he⟩ := Checked.bind_eq_ok.mp hp
  obtain rfl := Except.ok.inj he
  obtain ⟨hrep, hconfig, hscan, hcursor⟩ := h.represents.event ht
  refine ⟨⟨hconfig.trans h.config, hscan.trans h.scan, ?_, ?_, ?_⟩, rfl, rfl⟩
  · rw [hsteps, ← h.cursor]
    exact hcursor
  · rw [hsteps]
    exact h.answers
  · rw [hevents, List.foldl_append]
    exact hrep

end Underway

end Steps

/-- What has come of a scan. -/
structure Swept (s : CardSet) (actions : List Action) (p : Scanning) : Prop where
  answers : p.answers = answersFrom s.containerCount 0 (steps actions)
  ended : ∃ n, p.answers = p.ranges.map some ++ List.replicate n none
  covers : Covers 0 (min (Word.total (steps actions)) s.containerCount) p.ranges
  apart : p.ranges.Pairwise fun r r' => r.2 ≤ r'.1
  complete : none ∈ p.answers → Covers 0 s.containerCount p.ranges
  once : (∀ e ∈ events actions, e.Idle s) → Covers 0 s.containerCount p.ranges →
    p.visited.Perm p.ranges → p.seen.Perm s.cards ∧ s.cards.Nodup
  inOrder : (∀ e ∈ events actions, e.Idle s) → Covers 0 s.containerCount p.ranges →
    p.visited = p.ranges → p.seen = s.cards
  cleared : ∀ first rest, actions = first ++ .event (.operation .clear) :: rest →
    (∀ card, .event (.operation (.add card)) ∉ rest) →
      ∃ q, s.scanned first = .ok q ∧ p.seen = q.seen

end CardSet

end RegionHeap
