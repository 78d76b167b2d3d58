import RegionHeap.Collection.MarkingGang
import RegionHeap.Proofs.Marking

/-!
Marking by workers that take turns in any order. What was said of one marking worker holds of all
of them together, with their stacks put one behind the other, except that some slots of scanned
objects are still to be visited.
-/
set_option autoImplicit false

namespace RegionHeap

theorem Marker.counted_of_share {k k' : Marker} (hs : k.share = .ok k') (h : k.shared.Counted) :
    k'.shared.Counted := by
  unfold share at hs
  split at hs
  · obtain rfl := Except.ok.inj hs
    exact h
  · obtain ⟨x, hp, hs⟩ := Checked.bind_eq_ok.mp hs
    obtain rfl := Except.ok.inj hs
    exact h.push hp

theorem Marker.counted_of_markReference {k k' : Marker} {p : Nat} (h : k.shared.Counted)
    (hm : k.markReference p = .ok k') : k'.shared.Counted := by
  unfold markReference mark at hm
  split at hm
  · obtain rfl := Except.ok.inj hm
    exact h
  · obtain ⟨-, -, hm⟩ := Checked.bind_eq_ok.mp hm
    obtain ⟨_, -, hm⟩ := Checked.bind_eq_ok.mp hm
    obtain ⟨_, -, hm⟩ := Checked.bind_eq_ok.mp hm
    split at hm
    · obtain ⟨-, -, hm⟩ := Checked.bind_eq_ok.mp hm
      obtain rfl := Except.ok.inj hm
      exact h
    · obtain ⟨_, -, hm⟩ := Checked.bind_eq_ok.mp hm
      dsimp only at hm
      split at hm
      · obtain rfl := Except.ok.inj hm
        exact h
      · obtain ⟨_, -, hm⟩ := Checked.bind_eq_ok.mp hm
        obtain ⟨_, -, hm⟩ := Checked.bind_eq_ok.mp hm
        exact counted_of_share hm h

namespace Collector

variable {c : Collector} {L : Layout} {s s' : List Nat} {sh sh' : MarkStack} {st st' : List Nat}

section SetAside

variable {k : Collector} {before after : List Nat} {o : Nat}

theorem mem_pending_append : o ∈ Marker.pending ⟨k, sh, before ++ (st ++ after)⟩ ↔
    o ∈ Marker.pending ⟨k, sh, st⟩ ∨ o ∈ before ++ after := by
  simp only [Marker.pending, List.mem_append]
  grind

theorem Marking.setAside (hk : c.Marking L s ⟨k, sh, before ++ (st ++ after)⟩) :
    c.Marking L (s ++ (before ++ after)) ⟨k, sh, st⟩ := by
  refine hk.exchange hk.capacity (fun o ho => hk.waiting o (mem_pending_append.mpr (.inl ho)))
    fun o hwait hscan => ?_
  rw [List.mem_append, not_or] at hscan
  rw [mem_pending_append, not_or]
  exact ⟨⟨hwait, hscan.2⟩, hscan.1⟩

theorem Marking.putBack (hk : c.Marking L (s ++ (before ++ after)) ⟨k, sh, st⟩)
    (hwait : ∀ o ∈ before ++ after, L.IsWord o ∧ k.liveness.marked L o = true) :
    c.Marking L s ⟨k, sh, before ++ (st ++ after)⟩ := by
  refine hk.exchange hk.capacity (fun o ho => ?_) fun o hnew hscan => ?_
  · exact (mem_pending_append.mp ho).elim (hk.waiting o) (hwait o)
  · rw [mem_pending_append, not_or] at hnew
    rw [List.mem_append, not_or]
    exact ⟨hnew.1, hscan, hnew.2⟩

end SetAside

theorem weight_eq (k : Collector) (sh : MarkStack) (st : List Nat) :
    weight L ⟨k, sh, st⟩ = weight L ⟨k, sh, []⟩ + st.length := by
  have h : Marker.liveness ⟨k, sh, st⟩ = Marker.liveness ⟨k, sh, []⟩ := rfl
  simp only [weight, h, Marker.pending, List.length_append, List.nil_append]
  omega

end Collector

namespace MarkingGang

open Collector

/-- What all workers have still to visit. -/
def references (g : MarkingGang) : List Nat := g.workers.flatMap MarkWorker.references

/-- One worker with the stacks of all. -/
def joined (g : MarkingGang) : Marker :=
  ⟨g.collector, g.shared, g.workers.flatMap MarkWorker.stack⟩

/-- Every slot of a root or of a scanned object was visited or is going to be. -/
structure Tracing (c : Collector) (L : Layout) (g : MarkingGang) : Prop where
  marking : ∃ scanning, c.Marking L scanning g.joined ∧
    ∀ o ∈ scanning, ∀ p ∈ Object.referents c.memory o,
      c.Settled L g.collector.liveness p ∨ p ∈ g.references
  followable : ∀ p ∈ g.references, c.Followable p
  rooted : ∀ p ∈ c.markingRoots, c.Settled L g.collector.liveness p ∨ p ∈ g.references
  counted : g.shared.Counted

variable {c : Collector} {L : Layout} {g g' : MarkingGang} {i : Nat} {x y : MarkWorker}

theorem workers_put (hi : g.workers[i]? = some x) : ∃ before after,
    g.workers = before ++ x :: after ∧ ∀ y, g.workers.set i y = before ++ y :: after :=
  split_of_getElem? hi

theorem references_eq {before after : List MarkWorker} (h : g.workers = before ++ x :: after) :
    g.references = before.flatMap MarkWorker.references ++
      (x.references ++ after.flatMap MarkWorker.references) := by
  simp [references, h]

theorem joined_eq {before after : List MarkWorker} (h : g.workers = before ++ x :: after) :
    g.joined = ⟨g.collector, g.shared, before.flatMap MarkWorker.stack ++
      (x.stack ++ after.flatMap MarkWorker.stack)⟩ := by
  simp [joined, h]

section Steps

variable (w : c.heap.Clean L) (r : c.Attributed L)

include w r in
theorem Tracing.visit_of (t : Tracing c L g) (hi : g.workers[i]? = some x) {p : Nat}
    {rest : List Nat} (hr : x.references = p :: rest) :
    ∃ g' st, g.visit i x p rest = .ok g' ∧ Tracing c L g' ∧ g'.terminator = g.terminator ∧
      g'.workers = g.workers.set i { x with references := rest, stack := st } ∧
      weight L g'.joined ≤ weight L g.joined ∧ g'.references.length < g.references.length := by
  obtain ⟨before, after, hw, hset⟩ := workers_put hi
  obtain ⟨scanning, hm, hs⟩ := t.marking
  have hrefs := references_eq hw
  have hwait := hm.waiting
  rw [hr] at hrefs
  rw [joined_eq hw] at hm hwait
  obtain ⟨⟨k, sh, st⟩, hmark, hk, hsettled, hadv⟩ := markReference_of w r hm.setAside
    (t.followable p (by rw [hrefs]; simp))
  let y : MarkWorker := { x with references := rest, stack := st }
  let g' : MarkingGang := { g with collector := k, shared := sh }.put i y
  have hrefs' : g'.references = before.flatMap MarkWorker.references ++
      (rest ++ after.flatMap MarkWorker.references) := references_eq (x := y) (hset y)
  have hjoined' : g'.joined = ⟨k, sh, before.flatMap MarkWorker.stack ++
      (st ++ after.flatMap MarkWorker.stack)⟩ := joined_eq (x := y) (hset y)
  -- a slot that is not settled is still to be visited
  have hleft : ∀ q, c.Settled L g.collector.liveness q ∨ q ∈ g.references →
      c.Settled L k.liveness q ∨ q ∈ g'.references := by
    intro q hq
    rcases hq with hq | hq
    · exact .inl (hq.mono hadv.marks)
    · rw [hrefs']
      simp only [hrefs, List.mem_append, List.mem_cons] at hq ⊢
      by_cases e : q = p
      · exact .inl (e ▸ hsettled)
      · grind
  refine ⟨g', st, Checked.bind_of hmark _, ⟨⟨scanning, ?_, fun o ho q hq => hleft q (hs o ho q hq)⟩,
    fun q hq => t.followable q ?_, fun q hq => hleft q (t.rooted q hq),
    Marker.counted_of_markReference t.counted hmark⟩, rfl, rfl, ?_, ?_⟩
  · rw [hjoined']
    refine hk.putBack fun o ho => ?_
    obtain ⟨hword, hmarked⟩ := hwait o (mem_pending_append.mpr (.inr ho))
    exact ⟨hword, hadv.marks o hword hmarked⟩
  · rw [hrefs'] at hq
    simp only [hrefs, List.mem_append, List.mem_cons] at hq ⊢
    grind
  · have := hadv.weight
    rw [hjoined', joined_eq hw, weight_eq, weight_eq g.collector]
    rw [weight_eq, weight_eq g.collector] at this
    simp only [List.length_append]
    omega
  · rw [hrefs', hrefs]
    simp

include w in
/-- A worker takes an object off its stack to visit its slots. -/
theorem Tracing.scan_of (t : Tracing c L g) (hi : g.workers[i]? = some x) {o : Nat}
    {rest : List Nat} (hr : x.references = []) (hx : x.stack = o :: rest) {k : MarkWorker}
    (hk : k = { x with
      references := (Object.slots g.collector.memory o).map g.collector.memory.read
      stack := rest }) :
    Tracing c L (g.put i k) ∧ weight L (g.put i k).joined < weight L g.joined := by
  obtain ⟨before, after, hw, hset⟩ := workers_put hi
  obtain ⟨scanning, hm, hs⟩ := t.marking
  have hmem : g.collector.memory = c.memory := by
    rw [show g.collector = _ from hm.same]
    rfl
  have hk' : k.references = Object.referents c.memory o ∧ k.stack = rest := by
    rw [hk, hmem]
    exact ⟨rfl, rfl⟩
  have hrefs := references_eq hw
  have hrefs' : (g.put i k).references = _ := references_eq (hset k)
  have hstack := joined_eq hw
  have hstack' : (g.put i k).joined = ⟨g.collector, g.shared, _⟩ := joined_eq (hset k)
  have hwait := hm.waiting
  rw [hr, List.nil_append] at hrefs
  rw [hk'.1] at hrefs'
  rw [hx] at hstack
  rw [hk'.2] at hstack'
  rw [hstack] at hm hwait
  have ho : L.IsWord o ∧ g.collector.liveness.marked L o = true :=
    hwait o (by simp [Marker.pending])
  have hstay : ∀ q, q ∈ g.references → q ∈ (g.put i k).references := by
    intro q hq
    rw [hrefs']
    simp only [hrefs, List.mem_append] at hq ⊢
    grind
  -- the object waits no more but is being scanned, until its last slot has been visited
  refine ⟨{
    marking := ⟨o :: scanning, ?waiting, fun p hp q hq => ?scanning⟩
    followable := fun q hq => ?followable
    rooted := fun q hq => (t.rooted q hq).imp_right (hstay q)
    counted := t.counted }, ?less⟩
  case waiting =>
    rw [hstack']
    refine hm.exchange hm.capacity (fun p hp => hwait p ?_) fun p hwait' hscan => ?_
    · simp only [Marker.pending, List.mem_append, List.mem_cons] at hp ⊢
      grind
    · simp only [Marker.pending, List.mem_append, List.mem_cons] at hwait' hscan ⊢
      grind
  case scanning =>
    rcases List.mem_cons.mp hp with rfl | hp
    · exact .inr (by rw [hrefs']; simp [hq])
    · exact (hs p hp q hq).imp_right (hstay q)
  case followable =>
    by_cases hold : q ∈ g.references
    · exact t.followable q hold
    · refine followable_of_referent w (hm.sound o ho.1 ho.2) ?_
      rw [hrefs'] at hq
      simp only [hrefs, List.mem_append] at hq hold
      grind
  case less =>
    rw [hstack', hstack, weight_eq, weight_eq g.collector g.shared (_ ++ _)]
    simp only [List.length_append, List.length_cons]
    omega

theorem references_turn (hi : g.workers[i]? = some x) (terminator : Terminator)
    (phase : MarkPhase) : (g.turn i x terminator phase).references = g.references :=
  flatMap_set_of_eq hi rfl

theorem joined_turn (hi : g.workers[i]? = some x) (terminator : Terminator) (phase : MarkPhase) :
    (g.turn i x terminator phase).joined = g.joined :=
  congrArg (Marker.mk g.collector g.shared) (flatMap_set_of_eq hi rfl)

theorem Tracing.turn (t : Tracing c L g) (hi : g.workers[i]? = some x) (terminator : Terminator)
    (phase : MarkPhase) : Tracing c L (g.turn i x terminator phase) := by
  have hrefs := references_turn hi terminator phase
  have hjoined := joined_turn hi terminator phase
  obtain ⟨scanning, hm, hs⟩ := t.marking
  refine ⟨⟨scanning, hjoined ▸ hm, fun o ho p hp => ?_⟩, hrefs ▸ t.followable, fun p hp => ?_,
    t.counted⟩
  · rw [hrefs]
    exact hs o ho p hp
  · rw [hrefs]
    exact t.rooted p hp

/-- A worker takes a chunk. -/
theorem Tracing.seek_of (t : Tracing c L g) (hi : g.workers[i]? = some x) (hr : x.stack = [])
    (hne : g.shared.chunks ≠ []) : ∃ st,
      (g.seek i x).workers = g.workers.set i { x with stack := st } ∧
      Tracing c L (g.seek i x) ∧ (g.seek i x).terminator = g.terminator ∧
      weight L (g.seek i x).joined < weight L g.joined := by
  obtain ⟨before, after, hw, hset⟩ := workers_put hi
  obtain ⟨scanning, hm, hs⟩ := t.marking
  obtain ⟨chunk, rest, hc⟩ := List.exists_cons_of_ne_nil hne
  obtain ⟨sh, hsh⟩ : ∃ sh, g.shared.withoutChunk chunk rest = sh := ⟨_, rfl⟩
  let y : MarkWorker := { x with stack := chunk.words.reverse }
  have hseek : g.seek i x = { g with shared := sh }.put i y := by
    simp only [seek, MarkStack.popChunk_of hc, List.append_nil, hsh, y]
  have hrefs : (g.seek i x).references = g.references := by
    rw [hseek]
    exact flatMap_set_of_eq hi rfl
  have hsame : (g.seek i x).collector = g.collector := by
    rw [hseek]
    rfl
  have hjoined := joined_eq hw
  have hjoined' : (g.seek i x).joined = ⟨g.collector, sh, before.flatMap MarkWorker.stack ++
      (y.stack ++ after.flatMap MarkWorker.stack)⟩ := by
    rw [hseek]
    exact joined_eq (hset y)
  have hwait := hm.waiting
  rw [hr] at hjoined
  rw [hjoined] at hm hwait
  -- one worker takes the chunk while what the others have is set aside
  obtain ⟨hm', hlt⟩ := hm.setAside.takeChunk hc
  rw [hsh] at hm' hlt
  refine ⟨y.stack, by rw [hseek]; rfl, ⟨⟨scanning, ?_, fun o ho p hp => ?_⟩, hrefs ▸ t.followable,
    fun p hp => ?_, ?_⟩, by rw [hseek]; rfl, ?_⟩
  · rw [hjoined']
    exact hm'.putBack fun o ho => hwait o (mem_pending_append.mpr (.inr ho))
  · rw [hrefs, hsame]
    exact hs o ho p hp
  · rw [hrefs, hsame]
    exact t.rooted p hp
  · rw [hseek, ← hsh]
    show g.shared.count - 1 = rest.length
    rw [t.counted, hc]
    rfl
  · rw [hjoined', hjoined, weight_eq, weight_eq g.collector g.shared (_ ++ _)]
    rw [weight_eq] at hlt
    simp only [List.length_append, List.length_nil, y]
    omega

end Steps

end MarkingGang

end RegionHeap
