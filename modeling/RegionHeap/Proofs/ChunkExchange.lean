import RegionHeap.Collection.ChunkExchange
import RegionHeap.Proofs.Chunks
import RegionHeap.Proofs.Lockstep
import RegionHeap.Proofs.Sums

/-!
Workers that share a stack of chunks lose no object and double none. A call moves objects between
one stack and one chunk, and what the memory of a node held before does not matter.
-/
set_option autoImplicit false

namespace RegionHeap

namespace ChunkNode

variable {n : ChunkNode} {b : Buffer} {word : Nat} {rest : List Nat}

/-- The words in use, the one pushed last first. -/
def words (n : ChunkNode) : List Nat := ((List.range n.used).map n.slots).reverse

@[simp] theorem length_words (n : ChunkNode) : n.words.length = n.used := by simp [words]

theorem words_clear (n : ChunkNode) (capacity : Nat) : (n.clear capacity).words = [] := rfl

theorem push_of (h : n.used < n.capacity) (word : Nat) : ∃ n', n.push word = .ok (true, n') ∧
    n'.capacity = n.capacity ∧ n'.words = word :: n.words := by
  refine ⟨{ n with used := n.used + 1, slots := fun i => if i = n.used then word else n.slots i },
    ?_, rfl, ?_⟩
  · simp [push, h, Nat.ne_of_lt h]
  · have hbelow : ∀ i ∈ List.range n.used,
        (if i = n.used then word else n.slots i) = n.slots i := fun i hi =>
      if_neg (Nat.ne_of_lt (List.mem_range.mp hi))
    simp only [words, List.range_succ, List.map_append, List.map_singleton, if_true,
      List.reverse_append, List.reverse_singleton, List.singleton_append, List.map_congr_left hbelow]

theorem pop_empty (h : n.words = []) : n.pop = .ok (none, n) := by
  have hz : n.used = 0 := by rw [← length_words, h]; rfl
  simp [pop, hz]

theorem pop_of (h : n.words = word :: rest) (hle : n.used ≤ n.capacity) : ∃ n',
    n.pop = .ok (some word, n') ∧ n'.capacity = n.capacity ∧ n'.words = rest := by
  obtain ⟨k, hk⟩ : ∃ k, n.used = k + 1 := ⟨rest.length, by rw [← length_words, h]; rfl⟩
  rw [words, hk, List.range_succ, List.map_append, List.map_singleton, List.reverse_append,
    List.reverse_singleton, List.singleton_append] at h
  obtain ⟨rfl, rfl⟩ := List.cons.inj h
  refine ⟨{ n with used := k }, ?_, rfl, rfl⟩
  simp [pop, hk, show k < n.capacity by omega]

theorem drain_of_none {n' : ChunkNode} (h : n.pop = .ok (none, n')) (stack : List Nat) :
    n.drain stack = .ok (stack, n') := by
  rw [drain]
  split
  · next hp => cases h.symm.trans hp
  · next hp =>
    obtain rfl := (Prod.mk.inj (Except.ok.inj (h.symm.trans hp))).2
    rfl
  · next hp => cases h.symm.trans hp

theorem drain_of_some {n' : ChunkNode} (h : n.pop = .ok (some word, n')) (stack : List Nat) :
    n.drain stack = n'.drain (word :: stack) := by
  rw [drain]
  split
  · next hp => cases h.symm.trans hp
  · next hp => cases h.symm.trans hp
  · next hp =>
    obtain ⟨hword, rfl⟩ := Prod.mk.inj (Except.ok.inj (h.symm.trans hp))
    rw [Option.some.inj hword]

theorem drain_of (hle : n.used ≤ n.capacity) (stack : List Nat) :
    ∃ n', n.drain stack = .ok (n.words.reverse ++ stack, n') := by
  obtain ⟨words, hw⟩ : ∃ words, n.words = words := ⟨_, rfl⟩
  induction words generalizing n stack with
  | nil => exact ⟨n, by rw [drain_of_none (pop_empty hw), hw]; rfl⟩
  | cons word rest ih =>
    obtain ⟨n₁, hpop, hcap, hrest⟩ := pop_of hw hle
    have hle₁ : n₁.used ≤ n₁.capacity := by
      rw [hcap, ← length_words, hrest]
      rw [← length_words, hw] at hle
      exact Nat.le_of_succ_le hle
    obtain ⟨n', hn'⟩ := ih hle₁ (word :: stack) hrest
    refine ⟨n', ?_⟩
    rw [drain_of_some hpop, hn', hw, hrest, List.reverse_cons, List.append_assoc]
    rfl

/-- The memory of a buffer that has room for its words. -/
structure Holds (n : ChunkNode) (b : Buffer) : Prop where
  capacity : n.capacity = b.capacity
  words : n.words = b.words
  room : b.words.length ≤ b.capacity

theorem Holds.used_le (h : n.Holds b) : n.used ≤ n.capacity := by
  rw [← length_words, h.words, h.capacity]
  exact h.room

theorem Holds.fill_both (h : n.Holds b) (objects : List Nat) :
    Checked.Both (fun n' b' => n'.Holds b' ∧ b'.node = b.node) (n.fill objects)
      (MarkStack.fill b objects) := by
  unfold fill MarkStack.fill
  refine Checked.Both.foldlM (fun _ n' b' => n'.Holds b' ∧ b'.node = b.node)
    (fun o _ n b' ⟨h, hnode⟩ => ?_) objects n b ⟨h, rfl⟩
  by_cases hlt : b'.words.length < b'.capacity
  · have hn : n.used < n.capacity := by rwa [← length_words, h.words, h.capacity]
    obtain ⟨n', hpush, hcap, hwords⟩ := push_of hn o
    have hb : b'.push o = (true, { b' with words := o :: b'.words }) := by
      simp [Buffer.push, Buffer.isFull, Buffer.length, Nat.ne_of_lt hlt]
    simp only [hpush, hb, Checked.ok_bind, Checked.unless_true, Checked.pure_eq]
    exact .ok ⟨⟨hcap.trans h.capacity, by rw [hwords, h.words], hlt⟩, hnode⟩
  · have heq : b'.words.length = b'.capacity := Nat.le_antisymm h.room (Nat.le_of_not_lt hlt)
    have hn : n.used = n.capacity := by rwa [← length_words, h.words, h.capacity]
    have hpush : n.push o = .ok (false, n) := by simp [push, hn]
    have hb : b'.push o = (false, b') := by simp [Buffer.push, Buffer.isFull, Buffer.length, heq]
    simp only [hpush, hb, Checked.ok_bind]
    exact .error _

end ChunkNode

namespace ChunkStore

variable {t : ChunkStore} {s : MarkStack}

/-- The memory of the chunks is what they are said to hold. -/
structure Stores (t : ChunkStore) (s : MarkStack) : Prop where
  pool : t.pool = s.pool
  count : t.count = s.count
  chunks : t.chunks = s.chunks.map Buffer.node
  holds : ∀ b ∈ s.chunks, (t.nodes b.node).Holds b

theorem nodes_setNode (node : Nat) (b : ChunkNode) (i : Nat) :
    (t.setNode node b).nodes i = if i = node then b else t.nodes i := rfl

/-- A node is empty and has all its room when it is handed out, whatever it held before. -/
theorem allocate_of (t : ChunkStore) :
    (t.allocate.2.nodes t.allocate.1).used = 0 ∧
      (t.allocate.2.nodes t.allocate.1).capacity = t.pool.capacity := by
  simp [allocate, nodes_setNode, ChunkNode.clear]

theorem nodes_allocate_of_ne {i : Nat} (h : i ≠ t.allocate.1) :
    t.allocate.2.nodes i = t.nodes i := if_neg h

theorem Stores.push_both (h : t.Stores s) (hs : s.Sound) (stack : List Nat) :
    Checked.Both (fun r r' => r.1 = r'.1 ∧ r.2.Stores r'.2) (t.pushChunk stack)
      (s.pushChunk stack) := by
  unfold pushChunk MarkStack.pushChunk
  refine .ite (fun _ => .ok ⟨rfl, h⟩) fun _ => ?_
  obtain ⟨hbuffer, -⟩ := s.pool.allocate_buffer
  have hempty : (t.allocate.2.nodes t.allocate.1).Holds s.pool.allocate.1 := by
    rw [hbuffer]
    simp only [allocate, nodes_setNode, if_true, h.pool]
    exact ⟨rfl, ChunkNode.words_clear _ _, Nat.zero_le _⟩
  have hnode : t.allocate.1 = s.pool.allocate.1.node := congrArg (·.allocate.1.node) h.pool
  refine (hempty.fill_both _).bind fun n b _ ⟨hb, hbnode⟩ => .ok ⟨rfl, ?_, ?_, ?_, ?_⟩
  · exact congrArg (·.allocate.2) h.pool
  · exact congrArg (· + 1) h.count
  · show t.allocate.1 :: t.chunks = b.node :: s.chunks.map Buffer.node
    rw [hnode, hbnode, h.chunks]
  · intro b' hb'
    show ((t.allocate.2.setNode t.allocate.1 n).nodes b'.node).Holds b'
    rcases List.mem_cons.mp hb' with rfl | hb'
    · rw [nodes_setNode, if_pos (hbnode.trans hnode.symm)]
      exact hb
    · -- the node of another chunk is none that the pool hands out
      have hne : b'.node ≠ t.allocate.1 := fun e =>
        hs.handed.fresh (hnode ▸ e ▸ List.mem_map_of_mem hb')
      rw [nodes_setNode, if_neg hne, nodes_allocate_of_ne hne]
      exact h.holds b' hb'

theorem Stores.pop_both (h : t.Stores s) (hs : s.Sound) (stack : List Nat) :
    Checked.Both (fun r r' => r.1 = r'.1 ∧ r.2.1 = r'.2.1 ∧ r.2.2.Stores r'.2.2)
      (t.popChunk stack) (.ok (s.popChunk stack)) := by
  have hchunks := h.chunks
  unfold popChunk
  cases hc : s.chunks with
  | nil =>
    rw [hc] at hchunks
    rw [hchunks, MarkStack.popChunk, hc]
    exact .ok ⟨rfl, rfl, h⟩
  | cons chunk rest =>
    have hholds := h.holds chunk (by simp [hc])
    have hdistinct := hs.handed.nodup
    rw [hc] at hchunks hdistinct
    obtain ⟨n, hdrain⟩ := ChunkNode.drain_of hholds.used_le stack
    rw [hchunks, MarkStack.popChunk_of hc]
    simp only [List.map_cons, hdrain, Checked.ok_bind, Checked.pure_eq, hholds.words]
    refine .ok ⟨rfl, rfl, ?_, congrArg (· - 1) h.count, rfl, fun b hb => ?_⟩
    · simp [h.pool, MarkStack.withoutChunk, BufferPool.release]
    · have hne : b.node ≠ chunk.node := fun e =>
        (List.nodup_cons.mp hdistinct).1 (e ▸ List.mem_map_of_mem hb)
      have hold := h.holds b (by rw [hc]; exact List.mem_cons_of_mem _ hb)
      simpa [nodes_setNode, hne] using hold

end ChunkStore

namespace MarkStack

variable {s : MarkStack}

/-- What the shared stack says of itself is true, and its nodes are accounted for. -/
structure Accounted (s : MarkStack) : Prop where
  count : s.count = s.chunks.length
  isEmpty : s.isEmpty = true ↔ s.chunks = []
  filled : ∀ b ∈ s.chunks, b.capacity = chunkCapacity ∧ 0 < b.length ∧ b.length ≤ chunkCapacity
  nodes : s.chunks.length + s.pool.nodes.freeCount + s.pool.nodes.pendingCount =
    s.pool.nodes.carved
  /-- The node of a chunk is not idle, and no two chunks have one node. -/
  once : (s.chunks.map Buffer.node ++ s.pool.nodes.list.idle).Perm
    (List.range s.pool.nodes.carved)
  /-- The next node is empty and nobody else has it. -/
  fresh : s.pool.allocate.1 = ⟨s.pool.allocate.1.node, chunkCapacity, []⟩ ∧
    s.pool.allocate.1.node ∉ s.chunks.map Buffer.node

theorem Sound.accounted (h : s.Sound) : s.Accounted where
  count := h.counted
  isEmpty := h.counted.isEmpty_iff
  filled := h.filled
  nodes := by
    have hcount := h.handed.count
    rwa [List.length_map] at hcount
  once := h.handed.nodes
  fresh := ⟨h.capacity ▸ s.pool.allocate_buffer.1, h.handed.fresh⟩

end MarkStack

namespace ChunkExchange

variable {x x' : ChunkExchange MarkStack} {y : ChunkExchange ChunkStore} {worker : Nat}
  {stack kept words : List Nat}

/-- The objects of all stacks and all chunks. -/
def objects (x : ChunkExchange MarkStack) : List Nat :=
  x.locals.flatten ++ x.shared.chunks.flatMap Buffer.words

theorem own_of {σ : Type} {x : ChunkExchange σ} (h : x.locals[worker]? = some stack) :
    x.own worker = .ok stack := by simp [own, h]

theorem flatten_set_perm {locals : List (List Nat)} (kept gone come : List Nat)
    (h : locals[worker]? = some stack) (hp : (kept ++ gone).Perm (stack ++ come)) :
    ((locals.set worker kept).flatten ++ gone).Perm (locals.flatten ++ come) := by
  have hall := flatMap_set_perm (f := id) gone come h hp
  rwa [List.flatMap_id, List.flatMap_id] at hall

/-- What a call leaves when a worker shares objects of its stack: nothing happens to an empty
stack, and otherwise its oldest objects are a chunk. -/
structure Pushed (x : ChunkExchange MarkStack) (worker : Nat) (stack : List Nat)
    (x' : ChunkExchange MarkStack) : Prop where
  empty : stack = [] → x' = x
  moved : stack ≠ [] → ∃ kept words, stack = kept ++ words ∧
    words.length = min stack.length MarkStack.chunkCapacity ∧
    x' = ⟨x.shared.withChunk words, x.locals.set worker kept⟩
  objects : x'.objects.Perm x.objects

theorem push_of (h : x.shared.Sound) (hw : x.locals[worker]? = some stack) :
    ∃ x', x.push MarkStack.calls worker = .ok x' ∧ x.Pushed worker stack x' ∧ x'.shared.Sound := by
  by_cases hne : stack = []
  · subst hne
    refine ⟨x, ?_, ⟨fun _ => rfl, fun hne => absurd rfl hne, List.Perm.refl _⟩, h⟩
    simp [push, own_of hw, MarkStack.calls, MarkStack.pushChunk, set_of_getElem? hw]
  · obtain ⟨kept, words, hs, hlength, hpush⟩ := MarkStack.pushChunk_of h.capacity hne
    have hwords : words ≠ [] := fun e => by
      rw [e, List.length_nil] at hlength
      have := List.length_pos_iff.mpr hne
      simp only [MarkStack.chunkCapacity] at hlength
      omega
    refine ⟨⟨x.shared.withChunk words, x.locals.set worker kept⟩, ?_,
      ⟨fun e => absurd e hne, fun _ => ⟨kept, words, hs, hlength, rfl⟩, ?_⟩,
      h.withChunk hwords (hlength ▸ Nat.min_le_right _ _)⟩
    · simp [push, own_of hw, MarkStack.calls, hpush]
    · have hmoved := flatten_set_perm kept words [] hw (by simp [hs])
      rw [List.append_nil] at hmoved
      simp only [objects, MarkStack.withChunk, List.flatMap_cons, ← List.append_assoc]
      exact hmoved.append_right _

/-- What a call leaves when a worker asks for a chunk: it gets none if there is none, and otherwise
all objects of the newest one, whose node is idle from then on. -/
structure Popped (x : ChunkExchange MarkStack) (worker : Nat) (stack : List Nat) (found : Bool)
    (x' : ChunkExchange MarkStack) : Prop where
  found_iff : found = false ↔ x.shared.chunks = []
  empty : x.shared.chunks = [] → x' = x
  moved : ∀ chunk rest, x.shared.chunks = chunk :: rest →
    x' = ⟨x.shared.withoutChunk chunk rest,
      x.locals.set worker (chunk.words.reverse ++ stack)⟩ ∧
    x'.shared.pool.nodes.list.idle.Perm (chunk.node :: x.shared.pool.nodes.list.idle)
  objects : x'.objects.Perm x.objects

theorem pop_of (h : x.shared.Sound) (hw : x.locals[worker]? = some stack) :
    ∃ found x', x.pop MarkStack.calls worker = .ok (found, x') ∧
      x.Popped worker stack found x' ∧ x'.shared.Sound := by
  cases hc : x.shared.chunks with
  | nil =>
    refine ⟨false, x, ?_, ⟨iff_of_true rfl hc, fun _ => rfl, fun chunk rest e => ?_,
      List.Perm.refl _⟩, h⟩
    · simp [pop, own_of hw, MarkStack.calls, MarkStack.popChunk, hc, set_of_getElem? hw]
    · rw [hc] at e
      contradiction
  | cons chunk rest =>
    refine ⟨true, ⟨x.shared.withoutChunk chunk rest,
      x.locals.set worker (chunk.words.reverse ++ stack)⟩, ?_, ⟨?_, fun e => ?_, ?_, ?_⟩,
      h.withoutChunk hc⟩
    · simp [pop, own_of hw, MarkStack.calls, MarkStack.popChunk_of hc]
    · simp [hc]
    · rw [hc] at e
      contradiction
    · intro chunk' rest' e
      obtain ⟨rfl, rfl⟩ := List.cons.inj (hc.symm.trans e)
      exact ⟨rfl, Recycler.release_idle _ _⟩
    · have hmoved := flatten_set_perm (chunk.words.reverse ++ stack) [] chunk.words hw (by
        rw [List.append_nil]
        exact ((List.reverse_perm _).append_right _).trans List.perm_append_comm)
      rw [List.append_nil] at hmoved
      simp only [objects, MarkStack.withoutChunk, hc, List.flatMap_cons, ← List.append_assoc]
      exact hmoved.append_right _

theorem Pushed.length (p : x.Pushed worker stack x') : x'.locals.length = x.locals.length := by
  by_cases hne : stack = []
  · rw [p.empty hne]
  · obtain ⟨kept, words, -, -, rfl⟩ := p.moved hne
    exact List.length_set

theorem Popped.length {found : Bool} (p : x.Popped worker stack found x') :
    x'.locals.length = x.locals.length := by
  cases hc : x.shared.chunks with
  | nil => rw [p.empty hc]
  | cons chunk rest =>
    obtain ⟨rfl, -⟩ := p.moved chunk rest hc
    exact List.length_set

/-- Every event passes that names a worker there is. The objects change only by what a worker does
to its own stack. -/
theorem step_of (h : x.shared.Sound) {e : ChunkEvent}
    (he : ∀ worker ∈ e.worker?, worker < x.locals.length) :
    ∃ r, x.step MarkStack.calls e = .ok r ∧ r.2.shared.Sound ∧
      r.2.locals.length = x.locals.length ∧
      ((∀ worker stack, e ≠ .work worker stack) → r.2.objects.Perm x.objects) := by
  have hget : ∀ worker ∈ e.worker?, ∃ stack, x.locals[worker]? = some stack := fun worker hw =>
    ⟨_, List.getElem?_eq_getElem (he worker hw)⟩
  cases e with
  | push worker =>
    obtain ⟨stack, hw⟩ := hget worker rfl
    obtain ⟨x', hx, p, hs⟩ := push_of h hw
    exact ⟨_, Checked.bind_of hx _, hs, p.length, fun _ => p.objects⟩
  | pop worker =>
    obtain ⟨stack, hw⟩ := hget worker rfl
    obtain ⟨found, x', hx, p, hs⟩ := pop_of h hw
    exact ⟨_, Checked.bind_of hx _, hs, p.length, fun _ => p.objects⟩
  | work worker stack' =>
    obtain ⟨stack, hw⟩ := hget worker rfl
    exact ⟨_, Checked.bind_of (own_of hw) _, h, List.length_set,
      fun hno => absurd rfl (hno worker stack')⟩
  | pass rounds => exact ⟨_, rfl, h.withRounds rounds, rfl, fun _ => List.Perm.refl _⟩

/-- The same workers with the words of the chunks in memory. -/
structure Stores (y : ChunkExchange ChunkStore) (x : ChunkExchange MarkStack) : Prop where
  locals : y.locals = x.locals
  shared : y.shared.Stores x.shared

theorem Stores.step_both (h : y.Stores x) (hs : x.shared.Sound) (e : ChunkEvent) :
    Checked.Both (fun r r' => r.1 = r'.1 ∧ r.2.Stores r'.2) (y.step ChunkStore.calls e)
      (x.step MarkStack.calls e) := by
  have hown : ∀ worker, y.own worker = x.own worker := fun worker => by rw [own, own, h.locals]
  cases e with
  | push worker =>
    simp only [step, push, hown, bind_assoc]
    refine Checked.Both.bind_same fun stack _ => ?_
    exact (h.shared.push_both hs stack).bind fun r r' _ ⟨hstack, hshared⟩ =>
      .ok ⟨rfl, by rw [hstack, h.locals], hshared⟩
  | pop worker =>
    simp only [step, pop, hown, bind_assoc]
    refine Checked.Both.bind_same fun stack _ => ?_
    exact (h.shared.pop_both hs stack).bind fun r r' _ ⟨hfound, hstack, hshared⟩ =>
      .ok ⟨by rw [hfound], by rw [hstack, h.locals], hshared⟩
  | work worker stack =>
    simp only [step, hown]
    exact Checked.Both.bind_same fun _ _ => .ok ⟨rfl, by rw [h.locals], h.shared⟩
  | pass rounds =>
    refine .ok ⟨rfl, h.locals, ?_, h.shared.count, h.shared.chunks, h.shared.holds⟩
    simp only [ChunkStore.calls, MarkStack.calls, h.shared.pool]

theorem run_of {events : List ChunkEvent} (h : y.Stores x) (hs : x.shared.Sound)
    (hw : ∀ e ∈ events, ∀ worker ∈ e.worker?, worker < x.locals.length) :
    ∃ answers x' y', Checked.runAll (step MarkStack.calls) x events = .ok (answers, x') ∧
      Checked.runAll (step ChunkStore.calls) y events = .ok (answers, y') ∧
      x'.shared.Sound ∧ y'.Stores x' ∧ x'.locals.length = x.locals.length ∧
      ((∀ worker stack, .work worker stack ∉ events) → x'.objects.Perm x.objects) := by
  induction events generalizing x y with
  | nil => exact ⟨[], x, y, rfl, rfl, hs, h, rfl, fun _ => List.Perm.refl _⟩
  | cons e events ih =>
    obtain ⟨r, hr, hs₁, hlength, hsame⟩ := step_of hs (hw e (by simp))
    have hboth := h.step_both hs e
    rw [hr] at hboth
    obtain ⟨r', hr', hanswer, h₁⟩ := hboth.passes_left
    obtain ⟨answers, x', y', hx, hy, hs', h', hkept, hobjects⟩ :=
      ih h₁ hs₁ fun e he => hlength ▸ hw e (by simp [he])
    refine ⟨r.1 :: answers, x', y', ?_, ?_, hs', h', hkept.trans hlength, fun hno => ?_⟩
    · exact (Checked.bind_of hr _).trans ((Checked.bind_of hx _).trans rfl)
    · exact (Checked.bind_of hr' _).trans ((Checked.bind_of hy _).trans (by rw [hanswer]; rfl))
    · refine (hobjects fun worker stack he => hno worker stack (by simp [he])).trans (hsame ?_)
      exact fun worker stack e' => hno worker stack (by simp [e'])

/-- Workers share and take chunks in any order, whatever the memory of the nodes held before. No
call fails, what the shared stack says of itself is true, its nodes hold the objects of its chunks,
and the next one is empty. Calls alone lose no object and double none, and the next call of any
worker moves the oldest objects of its stack, or all objects of one chunk. -/
theorem objects_kept (rounds : Rounds) (locals : List (List Nat)) (memory : Nat → ChunkNode)
    (events : List ChunkEvent)
    (hw : ∀ e ∈ events, ∀ worker ∈ e.worker?, worker < locals.length) :
    ∃ s t answers x y, MarkStack.create rounds = .ok s ∧ ChunkStore.create rounds memory = .ok t ∧
      Checked.runAll (step MarkStack.calls) ⟨s, locals⟩ events = .ok (answers, x) ∧
      Checked.runAll (step ChunkStore.calls) ⟨t, locals⟩ events = .ok (answers, y) ∧
      x.shared.Accounted ∧ y.Stores x ∧
      (y.shared.allocate.2.nodes y.shared.allocate.1).used = 0 ∧
      (y.shared.allocate.2.nodes y.shared.allocate.1).capacity = MarkStack.chunkCapacity ∧
      ((∀ worker stack, .work worker stack ∉ events) → x.objects.Perm locals.flatten) ∧
      x.locals.length = locals.length ∧
      ∀ worker stack, x.locals[worker]? = some stack →
        (∃ x', x.push MarkStack.calls worker = .ok x' ∧ x.Pushed worker stack x') ∧
        ∃ found x', x.pop MarkStack.calls worker = .ok (found, x') ∧
          x.Popped worker stack found x' := by
  obtain ⟨s, hcreate, hs, hchunks⟩ := MarkStack.Sound.create rounds
  obtain ⟨t, ht, hpool, hcount, hnodes⟩ : ∃ t, ChunkStore.create rounds memory = .ok t ∧
      t.pool = s.pool ∧ t.count = s.count ∧ t.chunks = [] := by
    obtain rfl := Except.ok.inj hcreate
    exact ⟨_, rfl, rfl, rfl, rfl⟩
  have hstored : t.Stores s := ⟨hpool, hcount, by rw [hnodes, hchunks]; rfl, by simp [hchunks]⟩
  obtain ⟨answers, x, y, hx, hy, hs', h, hlength, hobjects⟩ :=
    run_of (x := ⟨s, locals⟩) (y := ⟨t, locals⟩) ⟨rfl, hstored⟩ hs hw
  obtain ⟨hused, hcapacity⟩ := y.shared.allocate_of
  refine ⟨s, t, answers, x, y, hcreate, ht, hx, hy, hs'.accounted, h, hused,
    hcapacity.trans (h.shared.pool ▸ hs'.capacity), fun hno => ?_, hlength,
    fun worker stack hget => ⟨?_, ?_⟩⟩
  · exact (hobjects hno).trans (by simp [objects, hchunks])
  · obtain ⟨x', hx', p, -⟩ := push_of hs' hget
    exact ⟨x', hx', p⟩
  · obtain ⟨found, x', hx', p, -⟩ := pop_of hs' hget
    exact ⟨found, x', hx', p⟩

/-- One worker shares three objects and another one takes them, in a node that held other words. -/
theorem objects_kept_sample : ∃ t y,
    ChunkStore.create { period := 128, delay := 2 } (fun node => ⟨7, 9, fun i => node + i⟩) =
        .ok t ∧
      Checked.runAll (step ChunkStore.calls) ⟨t, [[3, 2, 1], []]⟩ [.push 0, .pop 1] =
        .ok ([none, some true], y) ∧
      y.locals = [[], [1, 2, 3]] ∧ (y.shared.allocate.2.nodes y.shared.allocate.1).used = 0 := by
  obtain ⟨s, t, answers, x, y, hs, ht, hx, hy, -, h, hused, -⟩ :=
    objects_kept { period := 128, delay := 2 } [[3, 2, 1], []]
      (fun node => ⟨7, 9, fun i => node + i⟩) [.push 0, .pop 1] (by decide)
  obtain rfl := Except.ok.inj hs
  obtain ⟨rfl, rfl⟩ := Prod.mk.inj (Except.ok.inj hx)
  exact ⟨t, y, ht, hy, h.locals, hused⟩

end ChunkExchange

end RegionHeap
