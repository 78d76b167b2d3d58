import Mathlib.Data.List.Perm.Basic
import RegionHeap.Proofs.NodeChains

/-!
Nodes are lent to callers and come back. Whatever callers do, and whenever transfers take effect,
every node that was carved and is still there is with a caller, free, pending, on the way from the
pending ones to the free ones or on its way back to memory, and only once.
-/
set_option autoImplicit false

namespace RegionHeap

namespace FreeList

variable {l : FreeList} {held : List Nat} {moved : List Nat}

/-- A transfer takes effect only in an event that settles it. -/
theorem moving_perform (hm : l.moving = some moved) {event : NodeEvent}
    (he : event.settles = false) : (l.perform held event).2.1.moving = some moved := by
  cases event with
  | allocate settles =>
    obtain rfl : settles = false := he
    cases hfree : l.free <;> simp [perform, settle, allocate, reuse?, carve, hfree, hm]
  | release place =>
    cases hplace : held[place]? with
    | none => simp [perform, hplace, hm]
    | some node =>
      simp only [perform, hplace, release]
      split <;> simp [startTransfer, hm]
  | transfer => simp [perform, startTransfer, hm]
  | reduce goal settles =>
    obtain rfl : settles = false := he
    simp [perform, settle, startTransfer, takeFree, hm]
  | depart place => exact hm
  | flush | reset | complete => contradiction

theorem moving_run (hm : l.moving = some moved) {events : List NodeEvent}
    (he : ∀ event ∈ events, event.settles = false) :
    (l.run held events).2.1.moving = some moved := by
  induction events generalizing l held with
  | nil => exact hm
  | cons event events ih =>
    exact ih (moving_perform hm (he event (by simp))) fun e hmem => he e (by simp [hmem])

end FreeList

namespace NodeChains

variable {c : NodeChains} {l : FreeList} {held : List Nat}

namespace Represents

theorem perform (h : c.Represents l held) (event : NodeEvent) : ∃ c',
    c.perform held event = .ok ((l.perform held event).1, c', (l.perform held event).2.2) ∧
      c'.Represents (l.perform held event).2.1 (l.perform held event).2.2 := by
  cases event with
  | allocate settles =>
    obtain ⟨c', hrun, h'⟩ := h.allocate settles
    exact ⟨c', by simp [NodeChains.perform, hrun, FreeList.perform], h'⟩
  | release place =>
    cases hplace : held[place]? with
    | none => exact ⟨c, by simp [NodeChains.perform, FreeList.perform, hplace], by
        simpa [FreeList.perform, hplace] using h⟩
    | some node =>
      obtain ⟨hlt, hget⟩ := List.getElem?_eq_some_iff.mp hplace
      have hperm := (List.getElem_cons_eraseIdx_perm hlt).symm
      rw [hget] at hperm
      obtain ⟨c', hrun, h'⟩ := (h.perm hperm).release
      exact ⟨c', by simp [NodeChains.perform, FreeList.perform, hplace, hrun], by
        simpa [FreeList.perform, hplace] using h'⟩
  | transfer =>
    obtain ⟨hcould, h'⟩ := h.startTransfer
    exact ⟨_, by simp [NodeChains.perform, FreeList.perform, hcould], h'⟩
  | reduce goal settles =>
    obtain ⟨c', hrun, h', -⟩ := h.reduce goal settles
    exact ⟨c', by simp [NodeChains.perform, hrun, FreeList.perform, FreeList.takeFree], h'⟩
  | flush =>
    obtain ⟨c', hrun, h'⟩ := h.flush
    exact ⟨c', by simp [NodeChains.perform, hrun, FreeList.perform], h'⟩
  | reset =>
    obtain ⟨c', hrun, h'⟩ := h.reset
    exact ⟨c', by simp [NodeChains.perform, hrun, FreeList.perform], h'⟩
  | complete =>
    obtain ⟨c', hrun, h', -⟩ := h.complete
    exact ⟨c', by simp [NodeChains.perform, hrun, FreeList.perform], h'⟩
  | depart place =>
    obtain ⟨c', hrun, h'⟩ := h.depart place
    exact ⟨c', by simp [NodeChains.perform, hrun, FreeList.perform], h'⟩

theorem run (h : c.Represents l held) (events : List NodeEvent) : ∃ c',
    c.run held events = .ok ((l.run held events).1, c', (l.run held events).2.2) ∧
      c'.Represents (l.run held events).2.1 (l.run held events).2.2 := by
  induction events generalizing c l held with
  | nil => exact ⟨c, rfl, h⟩
  | cons event events ih =>
    obtain ⟨c₁, hstep, h₁⟩ := h.perform event
    obtain ⟨c', hrun, h'⟩ := ih h₁
    exact ⟨c', by simp [NodeChains.run, hstep, hrun, FreeList.run], h'⟩

end Represents

/-- What the chains of an allocator guarantee, given the lists that they spell. -/
structure Conserves (c : NodeChains) (l : FreeList) (held : List Nat) : Prop where
  free : Trail c.memory.link c.freeHead l.free
  pending : Holds c.memory (c.lists c.active) l.pending
  moving : Holds c.memory (c.lists !c.active) (l.moving.getD [])
  /-- A node that is there is in one place. -/
  apart : (held ++ l.free ++ l.pending ++ l.moving.getD [] ++ c.leaving.flatten).Nodup
  live : ∀ node, node ∈ c.memory.live ↔
    node ∈ held ++ l.free ++ l.pending ++ l.moving.getD [] ++ c.leaving.flatten
  freeCount : c.freeCount = l.free.length
  pendingCount : c.pendingCount = l.pending.length + (l.moving.getD []).length
  oneTransfer : c.deferred.length ≤ 1 ∧ (c.deferred = [] ↔ l.moving = none)
  allocate : ∀ settles, ∃ node c', c.allocate settles = .ok (node, c') ∧ node ∉ held ∧
    (l.free ≠ [] → c'.memory.carved = c.memory.carved)
  startTransfer : ∃ c', c.startTransfer = (l.moving.isNone, c') ∧ (l.moving = none →
    Holds c'.memory (c'.lists !c'.active) l.pending ∧ Holds c'.memory (c'.lists c'.active) [])
  /-- What is moved stays together until it comes in front of the free nodes, and nodes released
  meanwhile stay pending. -/
  transfer : ∀ moved events, l.moving = some moved →
    (∀ event ∈ events, event.settles = false) →
    ∃ answers c' c'' l' held', c.run held events = .ok (answers, c', held') ∧
      l.run held events = (answers, l', held') ∧ c'.complete = .ok c'' ∧
      Trail c''.memory.link c''.freeHead (moved ++ l'.free) ∧
      Holds c''.memory (c''.lists c''.active) l'.pending
  flush : ∃ c', c.flush = .ok c' ∧ c'.locked = false ∧ c'.deferred = []
  reduce : ∀ goal settles, ∃ start c', start = (l.startTransfer.2.settle settles).free ∧
    c.reduce goal settles = .ok (min goal start.length, c') ∧
    Trail c'.memory.link c'.freeHead (start.drop goal) ∧
    c'.leaving.flatten = c.leaving.flatten ++ start.take goal

theorem Represents.conserves (h : c.Represents l held) : c.Conserves l held where
  free := h.free
  pending := h.pending
  moving := h.moving
  apart := by simpa [FreeList.idle] using h.nodup
  live node := by simpa [FreeList.idle] using h.nodes.mem_iff.symm
  freeCount := h.freeCount
  pendingCount := by
    have hpending := h.pending.count
    have hmoving := h.moving.count
    cases ha : c.active <;> simp_all [pendingCount, Nat.add_comm]
  oneTransfer := by
    rw [h.deferred, h.locked]
    cases l.moving <;> simp
  allocate settles := by
    obtain ⟨c', hrun, h'⟩ := h.allocate settles
    refine ⟨_, c', hrun, ?_, fun hfree => ?_⟩
    · exact (List.nodup_cons.mp (List.nodup_append.mp (List.nodup_append.mp h'.nodup).1).1).1
    · rw [h'.carved, h.carved]
      cases hf : l.free with
      | nil => exact absurd hf hfree
      | cons node rest =>
        cases settles with
        | false => simp [FreeList.settle, FreeList.allocate, FreeList.reuse?, hf]
        | true =>
          cases hm : l.moving.getD [] <;>
            simp [FreeList.settle, FreeList.finishTransfer, FreeList.allocate, FreeList.reuse?, hf,
              hm]
  startTransfer := by
    obtain ⟨hcould, h'⟩ := h.startTransfer
    refine ⟨c.startTransfer.2, Prod.ext ?_ rfl, fun hm => ?_⟩
    · rw [hcould, FreeList.startTransfer]
      cases l.moving <;> rfl
    · have hmoving := h'.moving
      have hpending := h'.pending
      simp only [FreeList.startTransfer, hm] at hmoving hpending
      exact ⟨hmoving, hpending⟩
  transfer moved events hm he := by
    obtain ⟨c', hrun, h'⟩ := h.run events
    obtain ⟨c'', hcomplete, h'', -⟩ := h'.complete
    refine ⟨_, c', c'', _, _, hrun, rfl, hcomplete, ?_, ?_⟩
    · simpa [FreeList.finishTransfer, FreeList.moving_run hm he] using h''.free
    · simpa [FreeList.finishTransfer] using h''.pending
  flush := by
    obtain ⟨c', hrun, h'⟩ := h.flush
    have hlocked : c'.locked = false := h'.locked
    exact ⟨c', hrun, hlocked, by simp [h'.deferred, hlocked]⟩
  reduce goal settles := by
    obtain ⟨c', hrun, h', hleaving⟩ := h.reduce goal settles
    exact ⟨_, c', rfl, hrun, h'.free, hleaving⟩

theorem run_conserves (threshold : Nat) (events : List NodeEvent) : ∃ answers c l held,
    NodeChains.run { threshold := threshold } [] events = .ok (answers, c, held) ∧
      FreeList.run { threshold := threshold } [] events = (answers, l, held) ∧
      c.Conserves l held := by
  obtain ⟨c, hrun, h⟩ := (Represents.start threshold).run events
  exact ⟨_, c, _, _, hrun, rfl, h.conserves⟩

/-- A node that was taken out is there until its memory goes back, and no list and no count has
it. -/
theorem live_after_reduce : ∃ c, NodeChains.run {} []
    [.allocate false, .release 0, .reduce 0 false, .flush, .reduce 1 false] =
      .ok ([.node 0, .done, .count 0, .done, .count 1], c, []) ∧
    c.memory.live = [0] ∧ c.freeHead = none ∧ (c.lists false).head = none ∧
    (c.lists true).head = none ∧ c.freeCount = 0 ∧ c.pendingCount = 0 :=
  ⟨_, rfl, rfl, rfl, rfl, rfl, rfl, rfl⟩

end NodeChains

end RegionHeap
