import Mathlib.Data.List.Nodup
import RegionHeap.Alloc.NodeChains
import RegionHeap.Proofs.Checked
import RegionHeap.Proofs.Trail

/-!
The chains of an allocator spell its lists: the free nodes, those released since the last transfer
started, and those that this transfer moves. With the nodes that callers hold and those on their
way back to memory they are all nodes there are.
-/
set_option autoImplicit false

namespace RegionHeap

namespace Trail

variable {step step' : Nat → Checked (Option Nat)} {start : Option Nat} {xs ys : List Nat} {z : Nat}

theorem join {start' : Option Nat} (h : Trail step start (xs ++ [z]))
    (hs : ∀ x ∈ xs, step' x = step x) (hz : step' z = .ok start') (h' : Trail step' start' ys) :
    Trail step' start (xs ++ [z] ++ ys) := by
  induction xs generalizing start with
  | nil =>
    cases h with
    | pass _ _ => exact .pass hz h'
  | cons x xs ih =>
    cases h with
    | pass hx h =>
      exact .pass ((hs x (by simp)).trans hx) (ih h fun y hy => hs y (by simp [hy]))

end Trail

namespace NodeMemory

/-- The nodes whose memory has not been given back. -/
def live (m : NodeMemory) : List Nat :=
  (List.range m.cells.size).filter fun node => m.cells[node]?.join.isSome

variable {m : NodeMemory} {node other : Nat} {start : Option Nat} {xs ys : List Nat}

theorem mem_live : node ∈ m.live ↔ ∃ next, m.link node = .ok next := by
  simp only [live, List.mem_filter, List.mem_range, link]
  by_cases h : node < m.cells.size
  · cases hc : m.cells[node] <;> simp [h, hc]
  · simp [h]

theorem nodup_live (m : NodeMemory) : m.live.Nodup := List.nodup_range.filter _

theorem lt_carved (h : node ∈ m.live) : node < m.carved :=
  List.mem_range.mp (List.mem_filter.mp h).1

theorem length_le (h : (xs ++ ys).Perm m.live) : xs.length ≤ m.carved := by
  have hlive : m.live.length ≤ (List.range m.cells.size).length := List.length_filter_le _ _
  have hlength := h.length_eq
  simp only [List.length_append, List.length_range] at hlength hlive
  exact Nat.le_trans (by omega) hlive

theorem link_carve (h : other ≠ m.carved) : m.carve.link other = m.link other := by
  have ho : other ≠ m.cells.size := h
  simp [link, carve, Array.getElem?_push, ho]

theorem live_carve (m : NodeMemory) : m.carve.live = m.live ++ [m.carved] := by
  rw [live, carve, Array.size_push, List.range_succ, List.filter_append]
  congr 1
  · exact List.filter_congr fun n hn => by
      simp [Array.getElem?_push, Nat.ne_of_lt (List.mem_range.mp hn)]
  · simp [carved]

theorem setLink_of (h : node ∈ m.live) (next : Option Nat) : ∃ m',
    m.setLink node next = .ok m' ∧ m'.carved = m.carved ∧ m'.live = m.live ∧
      m'.link node = .ok next ∧ ∀ other, other ≠ node → m'.link other = m.link other := by
  obtain ⟨old, hold⟩ := mem_live.mp h
  have hlt : node < m.cells.size := lt_carved h
  refine ⟨⟨m.cells.set! node (some next)⟩, by simp [setLink, hold], by simp [carved], ?_, ?_,
    fun other ho => ?_⟩
  · simp only [live, Array.set!_eq_setIfInBounds, Array.size_setIfInBounds]
    refine List.filter_congr fun n hn => ?_
    by_cases hnode : node = n
    · subst hnode
      rw [Array.getElem?_setIfInBounds_self_of_lt hlt, (List.mem_filter.mp h).2]
      rfl
    · simp [hnode]
  · simp [link, hlt]
  · simp [link, Ne.symm ho]

theorem discard_of (h : (node :: xs).Perm m.live) : ∃ m', m.discard node = .ok m' ∧
    m'.carved = m.carved ∧ xs.Perm m'.live ∧ ∀ x ∈ xs, m'.link x = m.link x := by
  obtain ⟨old, hold⟩ := mem_live.mp (h.mem_iff.mp (.head xs))
  have hout : node ∉ xs := (List.nodup_cons.mp (h.nodup_iff.mpr m.nodup_live)).1
  have hlive : live ⟨m.cells.set! node none⟩ = m.live.erase node := by
    rw [m.nodup_live.erase_eq_filter, live, live, List.filter_filter]
    simp only [Array.set!_eq_setIfInBounds, Array.size_setIfInBounds]
    refine List.filter_congr fun n hn => ?_
    by_cases hnode : node = n
    · subst hnode
      simp [List.mem_range.mp hn]
    · simp [hnode, Ne.symm hnode]
  refine ⟨⟨m.cells.set! node none⟩, by simp [discard, hold], by simp [carved], ?_, fun x hx => ?_⟩
  · rw [hlive]
    simpa using h.erase node
  · have hne : node ≠ x := fun e => hout (e ▸ hx)
    simp [link, hne]

theorem discardAll_of (h : (xs ++ ys).Perm m.live) : ∃ m', xs.foldlM discard m = .ok m' ∧
    m'.carved = m.carved ∧ ys.Perm m'.live ∧ ∀ y ∈ ys, m'.link y = m.link y := by
  induction xs generalizing m with
  | nil => exact ⟨m, rfl, rfl, h, fun _ _ => rfl⟩
  | cons x xs ih =>
    obtain ⟨m₁, hdiscard, hcarved, hperm, hlink⟩ := discard_of h
    obtain ⟨m', hrun, hcarved', hperm', hlink'⟩ := ih hperm
    refine ⟨m', ?_, hcarved'.trans hcarved, hperm', fun y hy => ?_⟩
    · simp [List.foldlM_cons, hdiscard, hrun]
    · rw [hlink' y hy, hlink y (List.mem_append_right _ hy)]

theorem discardChain_of (ht : Trail m.link start xs) (h : (xs ++ ys).Perm m.live) {bound : Nat}
    (hb : xs.length ≤ bound) : ∃ m', m.discardChain bound start = .ok m' ∧
      m'.carved = m.carved ∧ ys.Perm m'.live ∧ ∀ y ∈ ys, m'.link y = m.link y := by
  induction xs generalizing m start bound with
  | nil =>
    obtain rfl : start = none := ht.head
    exact ⟨m, by cases bound <;> rfl, rfl, h, fun _ _ => rfl⟩
  | cons x xs ih =>
    obtain rfl : start = some x := ht.head
    obtain ⟨next, hnext, ht'⟩ := ht.uncons
    obtain ⟨m₁, hdiscard, hcarved, hperm, hlink⟩ := discard_of h
    cases bound with
    | zero => simp at hb
    | succ bound =>
      obtain ⟨m', hrun, hcarved', hperm', hlink'⟩ :=
        ih (ht'.congr fun y hy => hlink y (List.mem_append_left _ hy)) hperm (by simpa using hb)
      refine ⟨m', ?_, hcarved'.trans hcarved, hperm', fun y hy => ?_⟩
      · simp [discardChain, hnext, hdiscard, hrun]
      · rw [hlink' y hy, hlink y (List.mem_append_right _ hy)]

end NodeMemory

namespace NodeChains

/-- A chain of pending nodes, with its end and its count. -/
structure Holds (m : NodeMemory) (p : PendingChain) (nodes : List Nat) : Prop where
  chain : Trail m.link p.head nodes
  tail : p.tail = nodes.getLast?
  count : p.count = nodes.length

/-- The chains spell the lists, and no node is lost or doubled. -/
structure Represents (c : NodeChains) (l : FreeList) (held : List Nat) : Prop where
  threshold : c.threshold = l.threshold
  carved : c.memory.carved = l.carved
  free : Trail c.memory.link c.freeHead l.free
  freeCount : c.freeCount = l.free.length
  pending : Holds c.memory (c.lists c.active) l.pending
  moving : Holds c.memory (c.lists !c.active) (l.moving.getD [])
  locked : c.locked = l.moving.isSome
  deferred : c.deferred = if c.locked then [!c.active] else []
  nodes : (held ++ l.idle ++ c.leaving.flatten).Perm c.memory.live

variable {c c' : NodeChains} {l : FreeList} {node : Nat} {held nodes xs ys : List Nat}
  {p : PendingChain} {m m' : NodeMemory}

theorem Holds.empty (m : NodeMemory) : Holds m {} [] := ⟨.done, rfl, rfl⟩

theorem Holds.congr (h : Holds m p xs) (hs : ∀ x ∈ xs, m'.link x = m.link x) : Holds m' p xs :=
  ⟨h.chain.congr hs, h.tail, h.count⟩

namespace Represents

theorem start (threshold : Nat) :
    ({ threshold := threshold } : NodeChains).Represents { threshold := threshold } [] :=
  ⟨rfl, rfl, .done, rfl, .empty _, .empty _, rfl, rfl, .nil⟩

theorem perm {held' : List Nat} (h : c.Represents l held) (hp : held.Perm held') :
    c.Represents l held' :=
  { h with nodes := ((hp.symm.append_right _).append_right _).trans h.nodes }

theorem nodup (h : c.Represents l held) : (held ++ l.idle ++ c.leaving.flatten).Nodup :=
  h.nodes.nodup_iff.mpr (NodeMemory.nodup_live _)

theorem nodup_idle (h : c.Represents l held) :
    (l.free ++ l.pending ++ l.moving.getD []).Nodup :=
  (List.nodup_append.mp (List.nodup_append.mp h.nodup).1).2.1

theorem live (h : c.Represents l held) (hn : node ∈ held ++ l.idle ++ c.leaving.flatten) :
    node ∈ c.memory.live :=
  h.nodes.mem_iff.mp hn

theorem startTransfer (h : c.Represents l held) :
    c.startTransfer.1 = l.startTransfer.1 ∧
      c.startTransfer.2.Represents l.startTransfer.2 held := by
  have hlocked := h.locked
  have hmoving := h.moving
  have hdeferred := h.deferred
  have hnodes := ((l.startTransfer_idle.symm.append_left held).append_right
    c.leaving.flatten).symm.trans h.nodes
  rw [NodeChains.startTransfer]
  cases hm : l.moving with
  | some xs =>
    rw [hm, Option.isSome_some] at hlocked
    simpa [hlocked, FreeList.startTransfer, hm] using h
  | none =>
    rw [hm] at hlocked hmoving
    rw [Option.isSome_none] at hlocked
    rw [hlocked] at hdeferred
    simp only [FreeList.startTransfer, hm] at hnodes
    simp only [hlocked, FreeList.startTransfer, hm, Bool.false_eq_true, if_false, true_and]
    exact { h with
      pending := hmoving
      moving := by simpa using h.pending
      locked := rfl
      deferred := by simp [hdeferred]
      nodes := hnodes }

/-- The chain of a transfer comes in front of the free nodes. -/
theorem finishTransfer (h : c.Represents l held) (hm : l.moving = some xs) : ∃ c',
    ({ c with deferred := [] } : NodeChains).finishTransfer (!c.active) = .ok c' ∧
      c'.Represents l.finishTransfer held ∧ c'.leaving = c.leaving := by
  have hmoving := h.moving
  have hnodup := h.nodup_idle
  have hnodes := ((l.finishTransfer_idle.symm.append_left held).append_right
    c.leaving.flatten).symm.trans h.nodes
  have hlive : ∀ z ∈ xs, z ∈ c.memory.live := fun z hz =>
    h.live (by simp [FreeList.idle, hm, hz])
  simp only [FreeList.finishTransfer, hm, Option.getD_some] at hmoving hnodup hnodes ⊢
  rcases List.eq_nil_or_concat' xs with rfl | ⟨xs, z, rfl⟩
  · -- the chain was empty when the transfer started
    have hhead : (c.lists !c.active).head = none := hmoving.chain.head
    refine ⟨{ c.setList (!c.active) {} with deferred := [], locked := false }, ?_, ?_, rfl⟩
    · simp [NodeChains.finishTransfer, hhead, setList]
    · exact { h with
        pending := by simpa [setList] using h.pending
        moving := by simpa [setList] using Holds.empty _
        locked := rfl
        deferred := rfl
        nodes := hnodes }
  · -- the last node of the chain is linked to the first free one, which changes no other link
    have htail : (c.lists !c.active).tail = some z := by simpa using hmoving.tail
    obtain ⟨x, hx⟩ : ∃ x, (xs ++ [z]).head? = some x := by cases xs <;> simp
    have hhead : (c.lists !c.active).head = some x := hmoving.chain.head.trans hx
    have hz := hlive z (by simp)
    have hout : z ∉ l.free ∧ z ∉ l.pending ∧ z ∉ xs := by
      rw [← List.append_assoc] at hnodup
      simpa using (List.nodup_middle.mp hnodup).notMem
    obtain ⟨m, hset, hcarved, hlive, hlink, hother⟩ := NodeMemory.setLink_of hz c.freeHead
    refine ⟨{ c.setList (!c.active) {} with
      memory := m, deferred := [], freeHead := some x,
      freeCount := c.freeCount + (c.lists !c.active).count, locked := false }, ?_, ?_, rfl⟩
    · simp [NodeChains.finishTransfer, hhead, htail, setList, hset]
    · exact { h with
        carved := hcarved.trans h.carved
        free := by
          refine Trail.join (hhead ▸ hmoving.chain) (fun y hy => hother y ?_) hlink
            (h.free.congr fun y hy => hother y ?_)
          · exact fun e => hout.2.2 (e ▸ hy)
          · exact fun e => hout.1 (e ▸ hy)
        freeCount := by
          simp [h.freeCount, hmoving.count]
          omega
        pending := by
          have hp := h.pending.congr fun y hy => hother y fun e => hout.2.1 (e ▸ hy)
          simpa [setList] using hp
        moving := by simpa [setList] using Holds.empty _
        locked := rfl
        deferred := rfl
        nodes := hlive ▸ hnodes }

theorem idle_transfer (h : c.Represents l held) (hm : l.moving = none) :
    c.deferred = [] ∧ l.finishTransfer = l := by
  refine ⟨by simp [h.deferred, h.locked, hm], ?_⟩
  cases l
  simp_all [FreeList.finishTransfer]

theorem complete (h : c.Represents l held) : ∃ c', c.complete = .ok c' ∧
    c'.Represents l.finishTransfer held ∧ c'.leaving = c.leaving := by
  cases hm : l.moving with
  | none =>
    obtain ⟨hdeferred, hsame⟩ := h.idle_transfer hm
    exact ⟨c, by simp [NodeChains.complete, hdeferred], hsame ▸ h, rfl⟩
  | some xs =>
    have hdeferred : c.deferred = [!c.active] := by simp [h.deferred, h.locked, hm]
    simpa [NodeChains.complete, hdeferred] using h.finishTransfer hm

theorem flush (h : c.Represents l held) : ∃ c', c.flush = .ok c' ∧
    c'.Represents l.flush held := by
  cases hm : l.moving with
  | none =>
    obtain ⟨hdeferred, hsame⟩ := h.idle_transfer hm
    refine ⟨c, ?_, by rwa [FreeList.flush, hsame]⟩
    simp [NodeChains.flush, awaitUnlocked, hdeferred, h.locked, hm]
  | some xs =>
    obtain ⟨c', hfinish, h', -⟩ := h.finishTransfer hm
    refine ⟨c', ?_, h'⟩
    have hlocked : c.locked = true := by simp [h.locked, hm]
    have hunlocked : c'.locked = false := h'.locked
    rw [NodeChains.flush, h.deferred, if_pos hlocked, awaitUnlocked, if_pos hlocked, hfinish]
    simp [awaitUnlocked, hunlocked]

theorem carve (h : c.Represents l held) : c.carve.1 = l.carve.1 ∧ c.carve.1 ∉ held ∧
    c.carve.2.Represents l.carve.2 (c.carve.1 :: held) := by
  have hout : c.memory.carved ∉ held ++ l.idle ++ c.leaving.flatten := fun hm =>
    Nat.lt_irrefl _ (NodeMemory.lt_carved (h.live hm))
  have hlink {nodes : List Nat} (hsub : nodes ⊆ l.idle) (other : Nat) (ho : other ∈ nodes) :
      c.memory.carve.link other = c.memory.link other :=
    NodeMemory.link_carve fun e => hout (by simp [← e, hsub ho])
  refine ⟨h.carved, fun hm : c.memory.carved ∈ held => hout (by simp [hm]), ?_⟩
  exact { h with
    carved := by
      have hcarved := h.carved
      simp_all [NodeChains.carve, NodeMemory.carve, NodeMemory.carved, FreeList.carve]
    free := h.free.congr (hlink fun n hn => by simp [FreeList.idle, hn])
    pending := h.pending.congr (hlink fun n hn => by simp [FreeList.idle, hn])
    moving := h.moving.congr (hlink fun n hn => by simp [FreeList.idle, hn])
    nodes := by
      rw [NodeChains.carve, NodeMemory.live_carve]
      exact ((h.nodes.cons c.memory.carved).trans (List.perm_append_singleton _ _).symm) }

theorem popFree (h : c.Represents l held) {rest : List Nat} (hfree : l.free = node :: rest) :
    ∃ c', c.popFree = .ok (some node, c') ∧
      ({ c' with freeCount := countDown c'.freeCount } : NodeChains).Represents
        { l with free := rest } (node :: held) ∧ c'.leaving = c.leaving := by
  have hfree' := h.free
  rw [hfree] at hfree'
  obtain ⟨next, hlink, hrest⟩ := hfree'.uncons
  refine ⟨{ c with freeHead := next }, ?_, ?_, rfl⟩
  · simp [NodeChains.popFree, hfree'.head, hlink]
  · exact { h with
      free := hrest
      freeCount := by simp [h.freeCount, hfree, countDown]
      nodes := by
        refine List.Perm.trans ?_ h.nodes
        simp only [FreeList.idle, hfree, List.cons_append, List.append_assoc]
        exact List.perm_middle.symm }

theorem popFree_none (h : c.Represents l held) (hfree : l.free = []) :
    c.popFree = .ok (none, c) := by
  have hfree' := h.free
  rw [hfree] at hfree'
  simp [NodeChains.popFree, hfree'.head]

theorem settle (h : c.Represents l held) (settles : Bool) : ∃ c', c.settle settles = .ok c' ∧
    c'.Represents (l.settle settles) held ∧ c'.leaving = c.leaving := by
  cases settles with
  | false => exact ⟨c, rfl, h, rfl⟩
  | true => exact h.complete

theorem allocate (h : c.Represents l held) (settles : Bool) : ∃ c',
    c.allocate settles =
      .ok ((if l.free.isEmpty then l else l.settle settles).allocate.1, c') ∧
    c'.Represents (if l.free.isEmpty then l else l.settle settles).allocate.2
      ((if l.free.isEmpty then l else l.settle settles).allocate.1 :: held) := by
  cases hfree : l.free with
  | nil =>
    obtain ⟨hnode, -, hcarve⟩ := h.carve
    refine ⟨c.carve.2, ?_, ?_⟩
    · simp [NodeChains.allocate, h.freeCount, hfree, FreeList.allocate, FreeList.reuse?, ← hnode]
    · simpa [hfree, FreeList.allocate, FreeList.reuse?, ← hnode] using hcarve
  | cons first rest =>
    obtain ⟨c₁, hsettle, h₁, -⟩ := h.settle settles
    obtain ⟨node, rest', hnode⟩ : ∃ node rest', (l.settle settles).free = node :: rest' := by
      cases settles with
      | false => exact ⟨first, rest, hfree⟩
      | true =>
        cases hm : l.moving.getD [] <;>
          simp [FreeList.settle, FreeList.finishTransfer, hm, hfree]
    obtain ⟨c₂, hpop, h₂, -⟩ := h₁.popFree hnode
    refine ⟨_, ?_, by simpa [FreeList.allocate, FreeList.reuse?, hnode] using h₂⟩
    simp [NodeChains.allocate, h.freeCount, hfree, hsettle, hpop, FreeList.allocate,
      FreeList.reuse?, hnode]

theorem add (h : c.Represents l (node :: held)) : ∃ c',
    c.add c.active node = .ok (l.pending.length + 1, c') ∧
      c'.Represents { l with pending := node :: l.pending } held ∧ c'.leaving = c.leaving := by
  have hnode : node ∈ c.memory.live := h.live (by simp)
  have hout : node ∉ l.idle := by
    have hn := h.nodup
    rw [List.append_assoc, List.cons_append] at hn
    exact fun hm => (List.nodup_cons.mp hn).1 (by simp [hm])
  simp only [FreeList.idle, List.mem_append, not_or] at hout
  obtain ⟨m, hset, hcarved, hlive, hlink, hother⟩ :=
    NodeMemory.setLink_of hnode (c.lists c.active).head
  refine ⟨{ c with memory := m }.setList c.active ⟨some node,
    if (c.lists c.active).head.isNone then some node else (c.lists c.active).tail,
    (c.lists c.active).count + 1⟩, ?_, ?_, rfl⟩
  · simp [NodeChains.add, hset, h.pending.count, setList]
  · exact { h with
      carved := hcarved.trans h.carved
      free := h.free.congr fun y hy => hother y fun e => hout.1.1 (e ▸ hy)
      pending := by
        simp only [setList, if_pos]
        refine ⟨.pass hlink (h.pending.chain.congr fun y hy => hother y fun e =>
          hout.1.2 (e ▸ hy)), ?_, ?_⟩
        · rw [h.pending.chain.head, h.pending.tail]
          cases hp : l.pending <;> simp [List.getLast?_cons]
        · simp [h.pending.count]
      moving := by
        refine Holds.congr ?_ fun y hy => hother y fun e => hout.2 (e ▸ hy)
        simpa [setList] using h.moving
      nodes := by
        refine List.Perm.trans ?_ (hlive ▸ h.nodes)
        simp only [FreeList.idle, List.append_assoc, List.cons_append]
        rw [← List.append_assoc, ← List.append_assoc held]
        exact List.perm_middle }

theorem release (h : c.Represents l (node :: held)) : ∃ c', c.release node = .ok c' ∧
    c'.Represents (l.release node) held := by
  obtain ⟨c₁, hadd, h₁, -⟩ := h.add
  obtain ⟨-, h₂⟩ := h₁.startTransfer
  have hthreshold : c₁.threshold = l.threshold := h₁.threshold
  by_cases ht : l.threshold < l.pending.length + 1
  · refine ⟨c₁.startTransfer.2, by simp [NodeChains.release, hadd, hthreshold, ht], ?_⟩
    simpa [FreeList.release, ht] using h₂
  · refine ⟨c₁, by simp [NodeChains.release, hadd, hthreshold, ht], ?_⟩
    simpa [FreeList.release, ht] using h₁

theorem takeFree (h : c.Represents l held) (goal : Nat) : ∃ c',
    c.takeFree goal = .ok (l.free.take goal, c') ∧
      c'.Represents { l with free := l.free.drop goal } (l.free.take goal ++ held) ∧
      c'.leaving = c.leaving := by
  induction goal generalizing c l held with
  | zero => exact ⟨c, rfl, h, rfl⟩
  | succ goal ih =>
    cases hfree : l.free with
    | nil =>
      have hsame : { l with free := [] } = l := by rw [← hfree]
      exact ⟨c, by simp [NodeChains.takeFree, h.popFree_none hfree], by simpa [hsame] using h, rfl⟩
    | cons node rest =>
      obtain ⟨c₁, hpop, h₁, hleaving⟩ := h.popFree hfree
      obtain ⟨c', htake, h', hleaving'⟩ := ih h₁
      refine ⟨c', by simp [NodeChains.takeFree, hpop, htake], h'.perm ?_, hleaving'.trans hleaving⟩
      simp

theorem leaving_startTransfer (c : NodeChains) : c.startTransfer.2.leaving = c.leaving := by
  rw [NodeChains.startTransfer]
  split <;> rfl

theorem reduce (h : c.Represents l held) (goal : Nat) (settles : Bool) : ∃ c',
    c.reduce goal settles =
      .ok (min goal (l.startTransfer.2.settle settles).free.length, c') ∧
    c'.Represents ((l.startTransfer.2.settle settles).takeFree goal).2 held ∧
    c'.leaving.flatten = c.leaving.flatten ++ (l.startTransfer.2.settle settles).free.take goal := by
  obtain ⟨-, h₁⟩ := h.startTransfer
  obtain ⟨c₂, hsettle, h₂, hleaving₂⟩ := h₁.settle settles
  obtain ⟨c₃, htake, h₃, hleaving₃⟩ := h₂.takeFree goal
  obtain ⟨taken, htaken⟩ : ∃ taken, (l.startTransfer.2.settle settles).free.take goal = taken :=
    ⟨_, rfl⟩
  have hcount : taken.length = min goal (l.startTransfer.2.settle settles).free.length := by
    simp [← htaken]
  have hleaving : c₃.leaving = c.leaving := by
    rw [hleaving₃, hleaving₂, leaving_startTransfer]
  rw [htaken] at htake h₃ ⊢
  cases taken with
  | nil => exact ⟨c₃, by simp [NodeChains.reduce, hsettle, htake, ← hcount], h₃, by simp [hleaving]⟩
  | cons node rest =>
    refine ⟨{ c₃ with leaving := c₃.leaving ++ [node :: rest] },
      by simp [NodeChains.reduce, hsettle, htake, ← hcount], ?_, by simp [hleaving]⟩
    exact { h₃ with
      nodes := by
        refine List.Perm.trans ?_ h₃.nodes
        rw [List.flatten_append, List.flatten_singleton, ← List.append_assoc]
        exact List.perm_append_comm.trans (by simp [FreeList.idle, FreeList.takeFree]) }

theorem chains (h : c.Represents l held) : ∃ xs ys, Holds c.memory (c.lists false) xs ∧
    Holds c.memory (c.lists true) ys ∧ (xs ++ ys).Perm (l.pending ++ l.moving.getD []) := by
  have hpending := h.pending
  have hmoving := h.moving
  cases ha : c.active with
  | false =>
    rw [ha] at hpending hmoving
    exact ⟨_, _, hpending, hmoving, .refl _⟩
  | true =>
    rw [ha] at hpending hmoving
    exact ⟨_, _, hmoving, hpending, List.perm_append_comm⟩

theorem reset (h : c.Represents l held) : ∃ c', c.reset = .ok c' ∧
    c'.Represents l.reset.2 held := by
  obtain ⟨c₁, hflush, h₁⟩ := h.flush
  obtain ⟨xs, ys, hxs, hys, hchains⟩ := h₁.chains
  -- the chains first, and what is not discarded at the end
  have hnodes : (xs ++ (ys ++ (l.flush.free ++ (held ++ c₁.leaving.flatten)))).Perm
      c₁.memory.live := by
    refine List.Perm.trans ?_ h₁.nodes
    rw [List.perm_iff_count] at hchains ⊢
    intro node
    have hcount := hchains node
    simp only [FreeList.idle, List.count_append] at hcount ⊢
    omega
  obtain ⟨m₁, hrun₁, hcarved₁, hperm₁, hlink₁⟩ :=
    NodeMemory.discardChain_of hxs.chain hnodes (NodeMemory.length_le hnodes)
  obtain ⟨m₂, hrun₂, hcarved₂, hperm₂, hlink₂⟩ := NodeMemory.discardChain_of
    (hys.chain.congr fun y hy => hlink₁ y (by simp [hy])) hperm₁
    (hcarved₁ ▸ NodeMemory.length_le hperm₁)
  obtain ⟨m₃, hrun₃, hcarved₃, hperm₃, hlink₃⟩ := NodeMemory.discardChain_of
    (h₁.free.congr fun y hy => (hlink₂ y (by simp [hy])).trans (hlink₁ y (by simp [hy])))
    hperm₂ (hcarved₁ ▸ hcarved₂ ▸ NodeMemory.length_le hperm₂)
  refine ⟨{ c₁ with memory := m₃, lists := fun _ => {}, freeHead := none, freeCount := 0 }, ?_, ?_⟩
  · simp [NodeChains.reset, hflush, hrun₁, hrun₂, hrun₃]
  · exact { h₁ with
      carved := hcarved₃.trans (hcarved₂.trans (hcarved₁.trans h₁.carved))
      free := .done
      freeCount := rfl
      pending := .empty _
      moving := .empty _
      nodes := by simpa [FreeList.idle, FreeList.reset, FreeList.flush, FreeList.finishTransfer]
        using hperm₃ }

theorem flatten_eraseIdx (xss : List (List Nat)) (i : Nat) :
    (xss[i]?.getD [] ++ (xss.eraseIdx i).flatten).Perm xss.flatten := by
  induction xss generalizing i with
  | nil => simp
  | cons xs xss ih =>
    cases i with
    | zero => simp
    | succ i =>
      simp only [List.getElem?_cons_succ, List.eraseIdx_cons_succ, List.flatten_cons]
      rw [← List.append_assoc]
      refine (List.perm_append_comm.append_right _).trans ?_
      rw [List.append_assoc]
      exact (ih i).append_left xs

theorem depart (h : c.Represents l held) (place : Nat) : ∃ c', c.depart place = .ok c' ∧
    c'.Represents l held := by
  have hnodes : (c.leaving[place]?.getD [] ++
      (held ++ l.idle ++ (c.leaving.eraseIdx place).flatten)).Perm c.memory.live := by
    refine List.Perm.trans ?_ h.nodes
    have hleaving := flatten_eraseIdx c.leaving place
    rw [List.perm_iff_count] at hleaving ⊢
    intro node
    have hcount := hleaving node
    simp only [List.count_append] at hcount ⊢
    omega
  obtain ⟨m, hrun, hcarved, hperm, hlink⟩ := NodeMemory.discardAll_of hnodes
  refine ⟨{ c with memory := m, leaving := c.leaving.eraseIdx place },
    by simp [NodeChains.depart, hrun], ?_⟩
  exact { h with
    carved := hcarved.trans h.carved
    free := h.free.congr fun y hy => hlink y (by simp [FreeList.idle, hy])
    pending := h.pending.congr fun y hy => hlink y (by simp [FreeList.idle, hy])
    moving := h.moving.congr fun y hy => hlink y (by simp [FreeList.idle, hy])
    nodes := hperm }

end Represents

end NodeChains

end RegionHeap
