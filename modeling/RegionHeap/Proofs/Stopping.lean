import RegionHeap.Proofs.Interleaving

/-!
How workers that mark together come to an end. All offers to stop stand only when no worker has
anything left and no chunk is shared, so that nothing waits to be scanned any more. A step that
changes anything leaves less to do: fewer unmarked words, waiting objects and chunks, or else
fewer slots to visit, or else workers that are closer to stopping. As long as one worker has not
stopped, some worker can take such a step.
-/
set_option autoImplicit false

namespace RegionHeap

namespace MarkPhase

/-- The worker has offered to stop. -/
def stands : MarkPhase → Bool
  | .offering | .leaving _ | .stopped => true
  | .marking | .idle => false

/-- How far from stopping a worker is. Without chunks it can only give up, and with chunks it
can only go back to work. -/
def rank (empty : Bool) : MarkPhase → Nat
  | .marking => if empty then 3 else 0
  | .idle => 2
  | .offering => 1
  | .leaving _ => if empty then 4 else 1
  | .stopped => 0

/-- How far from going back to work a worker is that has offered to stop. -/
def doubt (offered : Nat) : MarkPhase → Nat
  | .leaving seen => if seen = offered then 0 else 2
  | .offering => 1
  | .marking | .idle | .stopped => 0

end MarkPhase

namespace MarkingGang

open Collector

/-- So many workers agree on who has offered to stop, and those who have are out of work. -/
structure Accord (n : Nat) (g : MarkingGang) : Prop where
  size : g.workers.length = n
  workers : g.terminator.workers = n
  offered : g.terminator.offered = g.workers.countP fun w => w.phase.stands
  resting : ∀ w ∈ g.workers, w.phase ≠ .marking → w.references = [] ∧ w.stack = []
  drained : (∀ w ∈ g.workers, w.phase ≠ .marking) → g.shared.chunks = []
  seen : ∀ w ∈ g.workers, ∀ offered, w.phase = .leaving offered → offered ≠ n
  stopped : ∀ w ∈ g.workers, w.phase = .stopped → g.terminator.isOver = true

/-- What is left to do, the first number counting most. -/
def remaining (L : Layout) (g : MarkingGang) : Nat × Nat × Nat × Nat :=
  (weight L g.joined, g.references.length,
    Word.total (g.workers.map fun w => w.phase.rank g.shared.isEmpty),
    Word.total (g.workers.map fun w => w.phase.doubt g.terminator.offered))

/-- Less is left to do. -/
def Nearer (L : Layout) (g' g : MarkingGang) : Prop :=
  Prod.Lex (· < ·) (Prod.Lex (· < ·) (Prod.Lex (· < ·) (· < ·))) (g'.remaining L) (g.remaining L)

theorem nearer_wf (L : Layout) : WellFounded (Nearer L) :=
  InvImage.wf (remaining L) (Prod.lex Nat.lt_wfRel (Prod.lex Nat.lt_wfRel
    (Prod.lex Nat.lt_wfRel Nat.lt_wfRel))).wf

/-- A step of the worker changes something. -/
def Active (g : MarkingGang) (i : Nat) : Prop :=
  ∃ x, g.workers[i]? = some x ∧ x.phase ≠ .stopped ∧
    (x.phase = .offering → g.terminator.isOver = true ∨ g.shared.isEmpty = false)

variable {c : Collector} {L : Layout} {g g' : MarkingGang} {i n : Nat} {x y : MarkWorker}

theorem nearer_of_weight (h : weight L g'.joined < weight L g.joined) : Nearer L g' g :=
  Prod.lex_def.mpr (.inl h)

theorem nearer_of_references (h : weight L g'.joined ≤ weight L g.joined)
    (h' : g'.references.length < g.references.length) : Nearer L g' g := by
  rcases Nat.eq_or_lt_of_le h with e | hlt
  · exact Prod.lex_def.mpr (.inr ⟨e, Prod.lex_def.mpr (.inl h')⟩)
  · exact nearer_of_weight hlt

theorem nearer_turn (hi : g.workers[i]? = some x) (terminator : Terminator) (phase : MarkPhase)
    (h : phase.rank g.shared.isEmpty < x.phase.rank g.shared.isEmpty ∨
      phase.rank g.shared.isEmpty = x.phase.rank g.shared.isEmpty ∧
        terminator.offered = g.terminator.offered ∧
        phase.doubt g.terminator.offered < x.phase.doubt g.terminator.offered) :
    Nearer L (g.turn i x terminator phase) g := by
  obtain ⟨before, after, hw, hset⟩ := workers_put hi
  refine Prod.lex_def.mpr (.inr ⟨congrArg (weight L) (joined_turn hi terminator phase),
    Prod.lex_def.mpr (.inr ⟨congrArg List.length (references_turn hi terminator phase),
      Prod.lex_def.mpr ?_⟩)⟩)
  have hturn : (g.turn i x terminator phase).workers =
      before ++ { x with phase := phase } :: after := hset _
  have hempty : (g.turn i x terminator phase).shared.isEmpty = g.shared.isEmpty := rfl
  have hoff : (g.turn i x terminator phase).terminator = terminator := rfl
  simp only [remaining, hturn, hempty, hoff, hw, List.map_append, List.map_cons,
    Word.total_append, Word.total]
  rcases h with h | ⟨h, e, h'⟩
  · exact .inl (by omega)
  · rw [e]
    exact .inr ⟨by omega, by omega⟩

namespace Accord

theorem put_of (a : Accord n g) (hi : g.workers[i]? = some x)
    (hw : g'.workers = g.workers.set i y) (ht : g'.terminator.workers = g.terminator.workers)
    (hoff : g'.terminator.offered + x.phase.stands.toNat =
      g.terminator.offered + y.phase.stands.toNat)
    (hrest : y.phase ≠ .marking → y.references = [] ∧ y.stack = [])
    (hdrained : y.phase ≠ .marking →
      g'.shared.chunks = [] ∨ x.phase ≠ .marking ∧ g'.shared = g.shared)
    (hseen : ∀ offered, y.phase = .leaving offered → offered ≠ n)
    (hover : g.terminator.isOver = true → g'.terminator.isOver = true)
    (hstop : y.phase = .stopped → g'.terminator.isOver = true) : Accord n g' := by
  obtain ⟨before, after, hsplit, hset⟩ := workers_put hi
  have hmem : ∀ z ∈ g'.workers, z = y ∨ z ∈ g.workers := by
    intro z hz
    rw [hw] at hz
    exact (List.mem_or_eq_of_mem_set hz).symm
  refine {
    size := by rw [hw, List.length_set, a.size]
    workers := ht.trans a.workers
    offered := ?offered
    resting := fun z hz hp => ?resting
    drained := fun hall => ?drained
    seen := fun z hz k hp => ?seen
    stopped := fun z hz hp => ?stopped }
  case offered =>
    -- the offers that stand are counted, and only those of this worker may have changed
    have h := a.offered
    rw [hsplit] at h
    rw [hw, hset]
    simp only [List.countP_append, List.countP_cons] at h ⊢
    cases hx : x.phase.stands <;> cases hy : y.phase.stands <;>
      simp only [hx, hy, Bool.toNat_true, Bool.toNat_false, if_true, if_false,
        Bool.false_eq_true] at h hoff ⊢ <;> omega
  case resting =>
    rcases hmem z hz with rfl | hz
    · exact hrest hp
    · exact a.resting z hz hp
  case drained =>
    have hy : y ∈ g'.workers := by
      rw [hw, hset]
      simp
    rcases hdrained (hall y hy) with h | ⟨hx, hs⟩
    · exact h
    · rw [hs]
      refine a.drained fun z hz => ?_
      rw [hsplit, List.mem_append, List.mem_cons] at hz
      rcases hz with hz | rfl | hz
      · exact hall z (by rw [hw, hset]; simp [hz])
      · exact hx
      · exact hall z (by rw [hw, hset]; simp [hz])
  case seen =>
    rcases hmem z hz with rfl | hz
    · exact hseen k hp
    · exact a.seen z hz k hp
  case stopped =>
    rcases hmem z hz with rfl | hz
    · exact hstop hp
    · exact hover (a.stopped z hz hp)

theorem turn_of (a : Accord n g) (hi : g.workers[i]? = some x) (terminator : Terminator)
    (phase : MarkPhase) (hx : x.phase ≠ .marking) (ht : terminator.workers = g.terminator.workers)
    (hoff : terminator.offered + x.phase.stands.toNat =
      g.terminator.offered + phase.stands.toNat)
    (hseen : ∀ offered, phase = .leaving offered → offered ≠ n)
    (hover : g.terminator.isOver = true → terminator.isOver = true)
    (hstop : phase = .stopped → terminator.isOver = true) :
    Accord n (g.turn i x terminator phase) :=
  a.put_of hi rfl ht hoff (fun _ => a.resting x (List.mem_of_getElem? hi) hx)
    (fun _ => .inr ⟨hx, rfl⟩) hseen hover hstop

theorem stands_of_over (a : Accord n g) (h : g.terminator.isOver = true) {x : MarkWorker}
    (hx : x ∈ g.workers) : x.phase.stands = true := by
  have h' : g.terminator.offered = g.terminator.workers := by simpa [Terminator.isOver] using h
  rw [a.offered, a.workers, ← a.size] at h'
  exact List.countP_eq_length.mp h' x hx

theorem offered_lt (a : Accord n g) (hx : x ∈ g.workers) (h : x.phase.stands = false) :
    g.terminator.offered < g.terminator.workers := by
  rw [a.offered, a.workers, ← a.size]
  refine Nat.lt_of_le_of_ne List.countP_le_length fun e => ?_
  rw [List.countP_eq_length.mp e x hx] at h
  contradiction

theorem chunks_of_over (a : Accord n g) (h : g.terminator.isOver = true) : g.shared.chunks = [] :=
  a.drained fun x hx e => by
    have := a.stands_of_over h hx
    rw [e] at this
    contradiction

end Accord

section Steps

variable (w : c.heap.Clean L) (r : c.Attributed L)

include w r in
theorem advance_of (t : Tracing c L g) (a : Accord n g) (hi : g.workers[i]? = some x)
    (hx : x.phase = .marking) : ∃ g', g.advance i x = .ok g' ∧ Tracing c L g' ∧ Accord n g' ∧
      Nearer L g' g := by
  have hno : ∀ {phase : MarkPhase}, phase ≠ .marking → x.phase = phase → False := fun h e =>
    h (e.symm.trans hx)
  cases hr : x.references with
  | cons p rest =>
    obtain ⟨g', st, hv, t', hterm, hw, hrefs, hless⟩ := t.visit_of w r hi hr
    refine ⟨g', by simp only [advance, hr]; exact hv, t', ?_, nearer_of_references hrefs hless⟩
    exact a.put_of hi hw (by rw [hterm]) (by rw [hterm]) (fun h => absurd hx h)
      (fun h => absurd hx h) (fun n h => (hno (by simp) h).elim) (fun h => hterm ▸ h)
      (fun h => (hno (by simp) h).elim)
  | nil =>
    cases hs : x.stack with
    | cons o rest =>
      obtain ⟨t', hlt⟩ := t.scan_of w hi hr hs rfl
      refine ⟨_, by simp only [advance, hr, hs]; rfl, t', ?_, nearer_of_weight hlt⟩
      exact a.put_of hi rfl rfl rfl (fun h => absurd hx h) (fun h => absurd hx h)
        (fun n h => (hno (by simp) h).elim) id (fun h => (hno (by simp) h).elim)
    | nil =>
      refine ⟨g.seek i x, by simp only [advance, hr, hs]; rfl, ?_⟩
      by_cases hc : g.shared.chunks = []
      · have hseek : g.seek i x = g.turn i x g.terminator .idle := by
          simp only [seek, MarkStack.popChunk, hc]
        rw [hseek]
        refine ⟨t.turn hi _ _, ?_, nearer_turn hi _ _ (.inl ?_)⟩
        · exact a.put_of (y := { x with phase := .idle }) hi rfl rfl (by rw [hx]; rfl)
            (fun _ => ⟨hr, hs⟩) (fun _ => .inl hc) (fun n h => by simp at h) id
            (fun h => by simp at h)
        · rw [t.counted.isEmpty_iff.mpr hc, hx]
          decide
      · obtain ⟨st, hw, t', hterm, hlt⟩ := t.seek_of hi hs hc
        refine ⟨t', ?_, nearer_of_weight hlt⟩
        exact a.put_of hi hw (by rw [hterm]) (by rw [hterm]) (fun h => absurd hx h)
          (fun h => absurd hx h) (fun n h => (hno (by simp) h).elim) (fun h => hterm ▸ h)
          (fun h => (hno (by simp) h).elim)

theorem offer_of (t : Tracing c L g) (a : Accord n g) (hi : g.workers[i]? = some x)
    (hx : x.phase = .idle) : ∃ g', g.step i = .ok g' ∧ Tracing c L g' ∧ Accord n g' ∧
      Nearer L g' g := by
  have hmem : x ∈ g.workers := List.mem_of_getElem? hi
  have hlt := a.offered_lt hmem (by rw [hx]; rfl)
  have hjoin : g.terminator.join =
      .ok { g.terminator with offered := g.terminator.offered + 1 } := by
    rw [Terminator.join,
      Checked.unless_of (decide_eq_true (show g.terminator.offered + 1 ≤ _ from hlt))]
    rfl
  refine ⟨g.turn i x { g.terminator with offered := g.terminator.offered + 1 } .offering, ?_,
    t.turn hi _ _, ?_, nearer_turn hi _ _ (.inl ?_)⟩
  · simp only [step, hi, hx, hjoin, Checked.ok_bind, Checked.pure_eq]
  · refine a.turn_of hi _ _ (by simp [hx]) rfl (by rw [hx]; rfl) (by simp) (fun h => ?_) (by simp)
    have := a.stands_of_over h hmem
    rw [hx] at this
    contradiction
  · rw [hx]
    exact Nat.lt_succ_self 1

theorem wait_of (t : Tracing c L g) (a : Accord n g) (hi : g.workers[i]? = some x)
    (hx : x.phase = .offering) : ∃ g', g.step i = .ok g' ∧ Tracing c L g' ∧ Accord n g' ∧
      (Active g i → Nearer L g' g) ∧ (¬Active g i → g' = g) := by
  have hmarking : x.phase ≠ .marking := by simp [hx]
  have active : g.terminator.isOver = true ∨ g.shared.isEmpty = false → Active g i := fun h =>
    ⟨x, hi, by simp [hx], fun _ => h⟩
  -- the worker stops if all have offered to, looks again if there is nothing to take, and else
  -- leaves
  cases hover : g.terminator.isOver with
  | true =>
    have he := t.counted.isEmpty_iff.mpr (a.chunks_of_over hover)
    refine ⟨g.turn i x g.terminator .stopped, ?_, t.turn hi _ _,
      a.turn_of hi _ _ hmarking rfl (by rw [hx]; rfl) (by simp) id fun _ => hover,
      fun _ => nearer_turn hi _ _ (.inl ?_), fun h => absurd (active (.inl hover)) h⟩
    · simp only [step, hi, hx, hover, he, if_true, Checked.unless_true, Checked.ok_bind,
        Checked.pure_eq]
    · rw [hx]
      exact Nat.lt_succ_self 0
  | false =>
    cases he : g.shared.isEmpty with
    | true =>
      refine ⟨g, ?_, t, a, fun ⟨y, hy, _, hoff⟩ => ?_, fun _ => rfl⟩
      · simp only [step, hi, hx, hover, he, if_true, Bool.false_eq_true, if_false, Checked.pure_eq]
      · obtain rfl : x = y := by simpa [hi] using hy
        rcases hoff hx with h | h
        · rw [hover] at h
          contradiction
        · rw [he] at h
          contradiction
    | false =>
      refine ⟨g.turn i x g.terminator (.leaving g.terminator.offered), ?_, t.turn hi _ _, ?_,
        fun _ => nearer_turn hi _ _ (.inr ⟨?_, rfl, ?_⟩), fun h => absurd (active (.inr he)) h⟩
      · simp only [step, hi, hx, hover, he, Bool.false_eq_true, if_false, Checked.pure_eq]
      · refine a.turn_of hi _ _ hmarking rfl (by rw [hx]; rfl) (fun n h e => ?_) id (by simp)
        obtain rfl : g.terminator.offered = n := by simpa using h
        rw [Terminator.isOver, e, a.workers] at hover
        simp at hover
      · rw [hx, he]
        rfl
      · rw [hx]
        simp [MarkPhase.doubt]

theorem leave_of (t : Tracing c L g) (a : Accord n g) (hi : g.workers[i]? = some x) {seen : Nat}
    (hx : x.phase = .leaving seen) : ∃ g', g.step i = .ok g' ∧ Tracing c L g' ∧ Accord n g' ∧
      Nearer L g' g := by
  have hmem : x ∈ g.workers := List.mem_of_getElem? hi
  have hmarking : x.phase ≠ .marking := by simp [hx]
  have hseen := a.seen x hmem seen hx
  by_cases e : g.terminator.offered = seen
  · have hpos : 0 < g.terminator.offered := by
      rw [a.offered]
      exact List.countP_pos_iff.mpr ⟨x, hmem, by rw [hx]; rfl⟩
    have hleave : g.terminator.leave seen =
        (true, { g.terminator with offered := g.terminator.offered - 1 }) := by
      rw [Terminator.leave, if_pos e]
    refine ⟨g.turn i x { g.terminator with offered := g.terminator.offered - 1 } .marking, ?_,
      t.turn hi _ _, ?_, nearer_turn hi _ _ (.inl ?_)⟩
    · simp only [step, hi, hx, hleave, if_true, Checked.pure_eq]
    · refine a.turn_of hi _ _ hmarking rfl ?_ (by simp) (fun h => ?_) (by simp)
      · rw [hx]
        exact Nat.sub_add_cancel hpos
      · rw [Terminator.isOver, beq_iff_eq, e, a.workers] at h
        exact absurd h hseen
    · rw [hx]
      cases g.shared.isEmpty
      · exact Nat.lt_succ_self 0
      · exact Nat.lt_succ_self 3
  · have hleave : g.terminator.leave seen = (false, g.terminator) := by
      rw [Terminator.leave, if_neg e]
    refine ⟨g.turn i x g.terminator .offering, ?_, t.turn hi _ _,
      a.turn_of hi _ _ hmarking rfl (by rw [hx]; rfl) (by simp) id (by simp),
      nearer_turn hi _ _ ?_⟩
    · simp only [step, hi, hx, hleave, Bool.false_eq_true, if_false, Checked.pure_eq]
    · rw [hx]
      have hne : ¬seen = g.terminator.offered := fun h => e h.symm
      cases g.shared.isEmpty with
      | true => exact .inl (by show 1 < 4; decide)
      | false => exact .inr ⟨rfl, rfl, by simp [MarkPhase.doubt, hne]⟩

include w r in
/-- Every step passes; it leaves less to do, or nothing changes. -/
theorem step_of (t : Tracing c L g) (a : Accord n g) (i : Nat) :
    ∃ g', g.step i = .ok g' ∧ Tracing c L g' ∧ Accord n g' ∧
      (Active g i → Nearer L g' g) ∧ (¬Active g i → g' = g) := by
  cases hi : g.workers[i]? with
  | none =>
    refine ⟨g, by simp only [step, hi], t, a, fun ⟨y, hy, _⟩ => ?_, fun _ => rfl⟩
    rw [hi] at hy
    contradiction
  | some x =>
    have active : x.phase ≠ .stopped → x.phase ≠ .offering → Active g i := fun hrunning hbusy =>
      ⟨x, hi, hrunning, fun h => absurd h hbusy⟩
    cases hx : x.phase with
    | marking =>
      obtain ⟨g', hs, t', a', hn⟩ := advance_of w r t a hi hx
      exact ⟨g', by simp only [step, hi, hx]; exact hs, t', a', fun _ => hn,
        fun h => absurd (active (by simp [hx]) (by simp [hx])) h⟩
    | idle =>
      obtain ⟨g', hs, t', a', hn⟩ := offer_of t a hi hx
      exact ⟨g', hs, t', a', fun _ => hn,
        fun h => absurd (active (by simp [hx]) (by simp [hx])) h⟩
    | offering => exact wait_of t a hi hx
    | leaving seen =>
      obtain ⟨g', hs, t', a', hn⟩ := leave_of t a hi hx
      exact ⟨g', hs, t', a', fun _ => hn,
        fun h => absurd (active (by simp [hx]) (by simp [hx])) h⟩
    | stopped =>
      refine ⟨g, by simp only [step, hi, hx], t, a, fun ⟨y, hy, h, _⟩ => ?_, fun _ => rfl⟩
      obtain rfl : x = y := by simpa [hi] using hy
      exact absurd hx h

end Steps

/-- As long as one worker has not stopped, some worker can do something. -/
theorem exists_active (a : Accord n g) (h : g.isOver = false) : ∃ i, i < n ∧ Active g i := by
  obtain ⟨x, hx, hne⟩ : ∃ x ∈ g.workers, x.phase ≠ .stopped := by
    rw [isOver, List.all_eq_false] at h
    obtain ⟨x, hx, hne⟩ := h
    exact ⟨x, hx, by simpa using hne⟩
  have find : ∀ y ∈ g.workers, y.phase ≠ .stopped →
      (y.phase = .offering → g.terminator.isOver = true ∨ g.shared.isEmpty = false) →
      ∃ i, i < n ∧ Active g i := by
    intro y hy hrunning hbusy
    obtain ⟨i, hi, rfl⟩ := List.mem_iff_getElem.mp hy
    exact ⟨i, a.size ▸ hi, _, List.getElem?_eq_getElem hi, hrunning, hbusy⟩
  by_cases hstand : ∀ y ∈ g.workers, y.phase.stands = true
  · have hover : g.terminator.isOver = true := by
      rw [Terminator.isOver, beq_iff_eq, a.offered, a.workers, ← a.size]
      exact List.countP_eq_length.mpr hstand
    exact find x hx hne fun _ => .inl hover
  · obtain ⟨y, hy, hs⟩ : ∃ y ∈ g.workers, y.phase.stands = false := by
      simpa using hstand
    refine find y hy (fun e => ?_) fun e => ?_ <;> rw [e] at hs <;> contradiction

/-- Every worker has its turn again and again. -/
def Fair (n : Nat) (schedule : Nat → Nat) : Prop := ∀ i, i < n → ∀ k, ∃ m, k ≤ m ∧ schedule m = i

theorem Fair.shift {n : Nat} {schedule : Nat → Nat} (h : Fair n schedule) :
    Fair n fun m => schedule (m + 1) := by
  intro i hi k
  obtain ⟨m, hm, rfl⟩ := h i hi (k + 1)
  exact ⟨m - 1, by omega, congrArg schedule (by omega)⟩

/-- The first turns of a schedule. -/
def turns (schedule : Nat → Nat) (k : Nat) : List Nat := (List.range k).map schedule

theorem turns_succ (schedule : Nat → Nat) (k : Nat) :
    turns schedule (k + 1) = schedule 0 :: turns (fun m => schedule (m + 1)) k := by
  simp [turns, List.range_succ_eq_map, Function.comp_def]

theorem foldlM_turns_succ {σ : Type} {step : σ → Nat → Checked σ} {s s' : σ}
    {schedule : Nat → Nat} (h : step s (schedule 0) = .ok s') (k : Nat) :
    (turns schedule (k + 1)).foldlM step s =
      (turns (fun m => schedule (m + 1)) k).foldlM step s' := by
  rw [turns_succ, List.foldlM_cons, Checked.bind_of h]

/-- If an active step brings the end nearer and the others change nothing, the end is reached when
every worker has its turn again and again. -/
theorem Fair.exists_over {σ : Type} {step : σ → Nat → Checked σ} {isEnd : σ → Bool} {I : σ → Prop}
    {nearer : σ → σ → Prop} {active : σ → Nat → Prop} {n : Nat} (wf : WellFounded nearer)
    (hstep : ∀ s i, I s → ∃ s', step s i = .ok s' ∧ I s' ∧ (active s i → nearer s' s) ∧
      (¬active s i → s' = s))
    (hactive : ∀ s, I s → isEnd s = false → ∃ i, i < n ∧ active s i) {schedule : Nat → Nat}
    (hf : Fair n schedule) {s : σ} (hI : I s) :
    ∃ k s', (turns schedule k).foldlM step s = .ok s' ∧ isEnd s' = true := by
  induction s using wf.induction generalizing schedule with
  | _ s ih =>
    cases hover : isEnd s with
    | true => exact ⟨0, s, rfl, hover⟩
    | false =>
      obtain ⟨i, hi, hact⟩ := hactive s hI hover
      obtain ⟨m, -, hm⟩ := hf i hi 0
      -- until the worker has its turn, either nothing changes or another one was faster
      induction m generalizing schedule with
      | zero =>
        obtain ⟨s₁, hs, hI₁, hn, -⟩ := hstep s (schedule 0) hI
        obtain ⟨k, s', hrun, ho⟩ := ih s₁ (hn (hm ▸ hact)) hf.shift hI₁
        exact ⟨k + 1, s', (foldlM_turns_succ hs k).trans hrun, ho⟩
      | succ m ihm =>
        obtain ⟨s₁, hs, hI₁, hn, hsame⟩ := hstep s (schedule 0) hI
        by_cases hact' : active s (schedule 0)
        · obtain ⟨k, s', hrun, ho⟩ := ih s₁ (hn hact') hf.shift hI₁
          exact ⟨k + 1, s', (foldlM_turns_succ hs k).trans hrun, ho⟩
        · obtain rfl := hsame hact'
          obtain ⟨k, s', hrun, ho⟩ := ihm hf.shift hm
          exact ⟨k + 1, s', (foldlM_turns_succ hs k).trans hrun, ho⟩

section Runs

variable (w : c.heap.Clean L) (r : c.Attributed L)

include w r

theorem run_of (schedule : List Nat) (t : Tracing c L g) (a : Accord n g) :
    ∃ g', g.run schedule = .ok g' ∧ Tracing c L g' ∧ Accord n g' := by
  obtain ⟨g', hg, t', a'⟩ := Checked.foldlM_of (f := step) (fun _ g => Tracing c L g ∧ Accord n g)
    (fun i _ g ⟨t, a⟩ => by
      obtain ⟨g', hs, t', a', -⟩ := step_of w r t a i
      exact ⟨g', hs, t', a'⟩) schedule g ⟨t, a⟩
  exact ⟨g', hg, t', a'⟩

theorem exists_over (t : Tracing c L g) (a : Accord n g) {schedule : Nat → Nat}
    (hf : Fair n schedule) : ∃ k g', g.run (turns schedule k) = .ok g' ∧ g'.isOver = true :=
  hf.exists_over (I := fun g => Tracing c L g ∧ Accord n g) (nearer_wf L) (fun _ i ⟨t, a⟩ => by
    obtain ⟨g', hs, t', a', hn, hsame⟩ := step_of w r t a i
    exact ⟨g', hs, ⟨t', a'⟩, hn, hsame⟩) (fun _ hI => exists_active hI.2) ⟨t, a⟩

end Runs

end MarkingGang

end RegionHeap
