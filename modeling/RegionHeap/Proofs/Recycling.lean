import RegionHeap.Alloc.BufferPool
import RegionHeap.Proofs.Checked

/-!
The nodes of a recycler and of a pool of buffers. Every node that was carved is held by one caller
or is idle, whatever rounds have ended and whichever nodes are being transferred.
-/
set_option autoImplicit false

namespace RegionHeap

namespace FreeList

theorem carved_startTransfer (l : FreeList) : l.startTransfer.2.carved = l.carved := by
  unfold startTransfer
  split <;> rfl

theorem carved_release (l : FreeList) (node : Nat) : (l.release node).carved = l.carved := by
  unfold release
  dsimp only
  split
  · exact carved_startTransfer _
  · rfl

end FreeList

namespace Recycler

variable {r r' : Recycler} {node : Nat}

theorem carved_withRounds (r : Recycler) (rounds : Rounds) :
    (r.withRounds rounds).list.carved = r.list.carved := by
  unfold withRounds settle
  split <;> rfl

theorem carved_startTransfer (r : Recycler) : r.startTransfer.2.list.carved = r.list.carved := by
  unfold startTransfer
  split
  · rfl
  · next list hl =>
    have hlist := r.list.carved_startTransfer
    rw [hl] at hlist
    exact (carved_withRounds _ _).trans hlist

theorem carved_release (r : Recycler) (node : Nat) :
    (r.release node).list.carved = r.list.carved := by
  have hlist : (r.enter.list.release node).carved = r.list.carved :=
    (r.enter.list.carved_release node).trans (r.carved_withRounds _)
  unfold release
  dsimp only
  split
  · exact (carved_withRounds _ _).trans hlist
  · exact hlist

theorem reuse_eq_some (h : r.reuse? = some (node, r')) :
    (node :: r'.list.idle).Perm r.list.idle ∧ r'.list.carved = r.list.carved := by
  unfold reuse? at h
  split at h
  · contradiction
  · obtain ⟨⟨node', list⟩, hl, he⟩ := Option.map_eq_some_iff.mp h
    obtain ⟨rfl, rfl⟩ := Prod.mk.inj he
    have hidle := r.withRounds_idle r.rounds.enter
    have hcarved := r.carved_withRounds r.rounds.enter
    unfold FreeList.reuse? at hl
    split at hl
    · contradiction
    · next free hfree =>
      obtain ⟨rfl, rfl⟩ := Prod.mk.inj (Option.some.inj hl)
      refine ⟨List.Perm.trans ?_ hidle, hcarved⟩
      change List.Perm _ r.enter.list.idle
      rw [FreeList.idle, FreeList.idle, hfree]
      exact List.Perm.refl _

end Recycler

namespace BufferPool

variable {p : BufferPool} {held : List Nat} {node : Nat}

/-- The nodes of the pool are those that callers hold and those that are idle. -/
structure Handed (p : BufferPool) (held : List Nat) : Prop where
  nodes : (held ++ p.nodes.list.idle).Perm (List.range p.nodes.list.carved)
  live : p.live = p.nodes.list.carved

theorem allocate_buffer (p : BufferPool) :
    p.allocate.1 = ⟨p.allocate.1.node, p.capacity, []⟩ ∧ p.allocate.2.capacity = p.capacity := by
  unfold allocate
  split <;> exact ⟨rfl, rfl⟩

namespace Handed

theorem count (h : p.Handed held) :
    held.length + p.nodes.freeCount + p.nodes.pendingCount = p.nodes.carved := by
  have hlength := h.nodes.length_eq
  rw [List.length_append, List.length_range, FreeList.length_idle] at hlength
  exact (Nat.add_assoc _ _ _).trans hlength

theorem nodup (h : p.Handed held) : held.Nodup :=
  (List.nodup_append.mp (h.nodes.nodup_iff.mpr List.nodup_range)).1

theorem allocate (h : p.Handed held) : p.allocate.2.Handed (p.allocate.1.node :: held) := by
  unfold BufferPool.allocate
  split
  · next node nodes hr =>
    obtain ⟨hidle, hcarved⟩ := Recycler.reuse_eq_some hr
    refine ⟨?_, h.live.trans hcarved.symm⟩
    show (node :: held ++ nodes.list.idle).Perm (List.range nodes.list.carved)
    rw [hcarved]
    exact (List.perm_middle.symm.trans (hidle.append_left held)).trans h.nodes
  · refine ⟨?_, congrArg (· + 1) h.live⟩
    show (p.nodes.list.carved :: (held ++ p.nodes.list.idle)).Perm
      (List.range (p.nodes.list.carved + 1))
    rw [List.range_succ]
    exact (h.nodes.cons _).trans (List.perm_append_singleton _ _).symm

theorem fresh (h : p.Handed held) : p.allocate.1.node ∉ held :=
  (List.nodup_cons.mp h.allocate.nodup).1

theorem release {b : Buffer} (h : p.Handed (b.node :: held)) : (p.release b).Handed held := by
  refine ⟨?_, h.live.trans (p.nodes.carved_release b.node).symm⟩
  show (held ++ (p.nodes.release b.node).list.idle).Perm
    (List.range (p.nodes.release b.node).list.carved)
  rw [Recycler.carved_release]
  refine (((p.nodes.release_idle b.node).append_left held).trans ?_).trans h.nodes
  exact List.perm_middle

theorem withRounds (h : p.Handed held) (rounds : Rounds) :
    BufferPool.Handed { p with nodes := p.nodes.withRounds rounds } held := by
  refine ⟨?_, h.live.trans (p.nodes.carved_withRounds rounds).symm⟩
  show (held ++ (p.nodes.withRounds rounds).list.idle).Perm
    (List.range (p.nodes.withRounds rounds).list.carved)
  rw [Recycler.carved_withRounds]
  exact ((p.nodes.withRounds_idle rounds).append_left held).trans h.nodes

end Handed

end BufferPool

end RegionHeap
