import RegionHeap.Collection.MarkStack
import RegionHeap.Proofs.Recycling

/-!
The chunks of the shared mark stack. Each holds some objects and no more than it has room for, they
are counted right, and their nodes are those that the pool has handed out.
-/
set_option autoImplicit false

namespace RegionHeap

namespace MarkStack

theorem fill_of {b : Buffer} (objects : List Nat)
    (h : b.words.length + objects.length ≤ b.capacity) :
    fill b objects = .ok { b with words := objects.reverse ++ b.words } := by
  induction objects generalizing b with
  | nil => rfl
  | cons o rest ih =>
    simp only [List.length_cons] at h
    have hp : b.push o = (true, { b with words := o :: b.words }) := by
      simp [Buffer.push, Buffer.isFull, Buffer.length, show b.words.length ≠ b.capacity by omega]
    have hi := ih (b := { b with words := o :: b.words }) (by simp only [List.length_cons]; omega)
    unfold fill at hi ⊢
    rw [List.foldlM_cons, Checked.bind_of (a := { b with words := o :: b.words }) (by simp [hp]),
      hi]
    simp

/-- The number of chunks is counted right. -/
def Counted (s : MarkStack) : Prop := s.count = s.chunks.length

theorem Counted.isEmpty_iff {s : MarkStack} (h : s.Counted) : s.isEmpty = true ↔ s.chunks = [] := by
  rw [isEmpty, beq_iff_eq, h, List.length_eq_zero_iff]

theorem Counted.push {s s' : MarkStack} {stack stack' : List Nat} (h : s.Counted)
    (hp : s.pushChunk stack = .ok (stack', s')) : s'.Counted := by
  unfold pushChunk at hp
  split at hp
  · obtain ⟨-, rfl⟩ := Prod.mk.inj (Except.ok.inj hp)
    exact h
  · obtain ⟨b, -, hp⟩ := Checked.bind_eq_ok.mp hp
    obtain ⟨-, rfl⟩ := Prod.mk.inj (Except.ok.inj hp)
    show s.count + 1 = s.chunks.length + 1
    rw [h]

variable {s : MarkStack} {stack : List Nat}

/-- One chunk more. -/
def withChunk (s : MarkStack) (words : List Nat) : MarkStack :=
  { s with
    pool := s.pool.allocate.2
    chunks := { s.pool.allocate.1 with words := words } :: s.chunks
    count := s.count + 1 }

theorem pushChunk_of (hc : s.pool.capacity = chunkCapacity) (hne : stack ≠ []) :
    ∃ kept words, stack = kept ++ words ∧ words.length = min stack.length chunkCapacity ∧
      s.pushChunk stack = .ok (kept, s.withChunk words) := by
  obtain ⟨kept, hkept⟩ : ∃ kept, kept = stack.length - min stack.length chunkCapacity := ⟨_, rfl⟩
  have hlength : (stack.drop kept).length = min stack.length chunkCapacity := by
    rw [List.length_drop]
    omega
  refine ⟨stack.take kept, stack.drop kept, (List.take_append_drop _ _).symm, hlength, ?_⟩
  obtain ⟨hbuffer, -⟩ := s.pool.allocate_buffer
  have hwords : s.pool.allocate.1.words = [] := by rw [hbuffer]
  have hcapacity : s.pool.allocate.1.capacity = chunkCapacity := by rw [hbuffer, hc]
  have hfill := fill_of (b := s.pool.allocate.1) (stack.drop kept).reverse (by
    rw [hwords, hcapacity, List.length_reverse, hlength, List.length_nil]
    omega)
  rw [hwords, List.reverse_reverse, List.append_nil] at hfill
  simp only [pushChunk, List.isEmpty_eq_false_iff.mpr hne, Bool.false_eq_true, if_false, ← hkept,
    hfill, Checked.ok_bind, Checked.pure_eq, withChunk]

/-- The newest chunk has gone, and its node has come back. -/
def withoutChunk (s : MarkStack) (chunk : Buffer) (rest : List Buffer) : MarkStack :=
  { s with pool := s.pool.release chunk, chunks := rest, count := s.count - 1 }

theorem popChunk_of {chunk : Buffer} {rest : List Buffer} (hc : s.chunks = chunk :: rest)
    (stack : List Nat) :
    s.popChunk stack = (true, chunk.words.reverse ++ stack, s.withoutChunk chunk rest) := by
  rw [popChunk, hc]
  rfl

/-- What holds of the shared stack between any two calls. -/
structure Sound (s : MarkStack) : Prop where
  capacity : s.pool.capacity = chunkCapacity
  counted : s.Counted
  filled : ∀ b ∈ s.chunks, b.capacity = chunkCapacity ∧ 0 < b.length ∧ b.length ≤ chunkCapacity
  handed : s.pool.Handed (s.chunks.map Buffer.node)

namespace Sound

theorem create (rounds : Rounds) :
    ∃ s, MarkStack.create rounds = .ok s ∧ s.Sound ∧ s.chunks = [] :=
  ⟨_, rfl, ⟨rfl, rfl, by simp, ⟨List.Perm.refl _, rfl⟩⟩, rfl⟩

theorem withChunk (h : s.Sound) {words : List Nat} (hne : words ≠ [])
    (hlength : words.length ≤ chunkCapacity) : (s.withChunk words).Sound := by
  obtain ⟨hbuffer, hpool⟩ := s.pool.allocate_buffer
  refine ⟨hpool.trans h.capacity, congrArg (· + 1) h.counted, fun b hb => ?_, h.handed.allocate⟩
  rcases List.mem_cons.mp hb with rfl | hb
  · refine ⟨?_, List.length_pos_iff.mpr hne, hlength⟩
    rw [hbuffer]
    exact h.capacity
  · exact h.filled b hb

theorem withoutChunk (h : s.Sound) {chunk : Buffer} {rest : List Buffer}
    (hc : s.chunks = chunk :: rest) : (s.withoutChunk chunk rest).Sound := by
  have hcount : s.count = rest.length + 1 := h.counted.trans (congrArg List.length hc)
  refine ⟨h.capacity, ?_, fun b hb => h.filled b (by rw [hc]; exact List.mem_cons_of_mem _ hb),
    BufferPool.Handed.release ?_⟩
  · show s.count - 1 = rest.length
    omega
  · have hhanded := h.handed
    rwa [hc] at hhanded

theorem withRounds (h : s.Sound) (rounds : Rounds) :
    Sound { s with pool := { s.pool with nodes := s.pool.nodes.withRounds rounds } } :=
  ⟨h.capacity, h.counted, h.filled, h.handed.withRounds rounds⟩

end Sound

end MarkStack

end RegionHeap
