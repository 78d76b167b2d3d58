import RegionHeap.Proofs.Chunks
import RegionHeap.Proofs.Ready
import RegionHeap.Proofs.Walk

/-!
Marking finds exactly what can be traced. While it runs, everything marked can be traced, and what
a marked object refers to is marked too unless the object still waits to be scanned. Each step
scans an object or opens a chunk, so that the steps are bounded by the words that are not marked.
-/
set_option autoImplicit false

namespace RegionHeap

namespace LivenessMap

variable {l l' : LivenessMap} {L : Layout} {a i : Nat}

theorem marksOf_eq (l : LivenessMap) (L : Layout) (i : Nat) :
    l.marksOf L i =
      ((List.range L.words).map fun bit => L.bottom i + 8 * bit).filter (l.marked L) := by
  rw [List.filter_map, marksOf]
  congr 1
  apply List.filter_congr
  intro bit hb
  have hb := List.mem_range.mp hb
  have hr : L.regionOf (L.bottom i + 8 * bit) = i :=
    Layout.regionOf_eq (by omega) (by rw [L.bytes_eq]; omega)
  rw [Function.comp, marked_eq_holds hr,
    show (L.bottom i + 8 * bit - L.bottom i) / 8 = bit by omega]

theorem nodup_words (a n : Nat) : ((List.range n).map fun bit => a + 8 * bit).Nodup := by
  rw [List.Nodup, List.pairwise_map]
  exact (List.pairwise_lt_range (n := n)).imp fun h => by omega

theorem mem_words {a b n : Nat} :
    b ∈ ((List.range n).map fun bit => a + 8 * bit) ↔ a ≤ b ∧ b < a + 8 * n ∧ (b - a) % 8 = 0 := by
  simp only [List.mem_map, List.mem_range]
  constructor
  · rintro ⟨bit, hb, rfl⟩
    omega
  · intro h
    exact ⟨(b - a) / 8, by omega, by omega⟩

/-- All marked words of the heap. -/
def marks (l : LivenessMap) (L : Layout) : List Nat :=
  ((List.range (L.count * L.words)).map fun bit => L.start + 8 * bit).filter (l.marked L)

theorem isWord_iff_mem :
    L.IsWord a ↔ a ∈ ((List.range (L.count * L.words)).map fun bit => L.start + 8 * bit) := by
  have hl : L.limit = L.start + 8 * (L.count * L.words) := by
    rw [Layout.limit, Layout.bottom, Layout.bytes, Nat.mul_left_comm]
  have hs := L.aligned
  rw [mem_words]
  constructor
  · intro h
    have hfrom := h.start_le
    have hto := h.lt_limit
    have haligned := h.aligned
    omega
  · intro h
    exact ⟨h.1, by omega, by omega⟩

theorem length_marks_le (l : LivenessMap) (L : Layout) :
    (l.marks L).length ≤ L.count * L.words := by
  refine Nat.le_trans (List.length_filter_le ..) ?_
  simp

theorem marksOf_congr (hi : i < L.count)
    (h : ∀ b, L.IsWord b → L.regionOf b = i → l'.marked L b = l.marked L b) :
    l'.marksOf L i = l.marksOf L i := by
  have hbot := L.bottom_mod i
  rw [marksOf_eq, marksOf_eq]
  apply List.filter_congr
  intro b hb
  have hb := mem_words.mp hb
  exact h b (Layout.isWord_of_le hi hb.1 (by rw [L.bytes_eq]; omega) (by omega))
    (Layout.regionOf_eq hb.1 (by rw [L.bytes_eq]; omega))

variable (h : ∀ b, L.IsWord b → l'.marked L b = (decide (b = a) || l.marked L b))

include h

theorem marks_insert (ha : L.IsWord a) (hm : l.marked L a = false) :
    (l'.marks L).Perm (a :: l.marks L) :=
  filter_perm_cons (nodup_words _ _) (isWord_iff_mem.mp ha) hm
    fun b hb => h b (isWord_iff_mem.mpr hb)

theorem marksOf_insert (ha : L.IsWord a) (hm : l.marked L a = false) :
    (l'.marksOf L (L.regionOf a)).Perm (a :: l.marksOf L (L.regionOf a)) := by
  obtain ⟨hfrom, hto⟩ := Layout.bounds_of_regionOf ha.start_le rfl
  have hbottom := L.bottom_mod (L.regionOf a)
  have haligned := ha.aligned
  rw [L.bytes_eq] at hto
  rw [marksOf_eq, marksOf_eq]
  refine filter_perm_cons (nodup_words _ _) (mem_words.mpr (by omega)) hm fun b hb => h b ?_
  have hb := mem_words.mp hb
  exact Layout.isWord_of_le ha.regionOf_lt hb.1 (by rw [L.bytes_eq]; omega) (by omega)

theorem marksOf_insert_of_ne (hi : i < L.count) (hne : L.regionOf a ≠ i) :
    l'.marksOf L i = l.marksOf L i := by
  refine marksOf_congr hi fun b hb hr => ?_
  have : b ≠ a := fun e => hne (e ▸ hr)
  simp [h b hb, this]

end LivenessMap

namespace Marker

/-- The objects that wait to be scanned. -/
def pending (k : Marker) : List Nat := k.stack ++ k.shared.chunks.flatMap Buffer.words

def liveness (k : Marker) : LivenessMap := k.collector.liveness

theorem share_of {k : Marker} (hc : k.shared.pool.capacity = MarkStack.chunkCapacity) :
    ∃ k', k.share = .ok k' ∧ k'.collector = k.collector ∧
      k'.shared.pool.capacity = MarkStack.chunkCapacity ∧ k'.pending.Perm k.pending ∧
      k'.shared.chunks.length ≤ k.shared.chunks.length + 1 := by
  unfold share
  by_cases hlt : k.stack.length < MarkStack.stackLimit
  · exact ⟨k, by simp [hlt], rfl, hc, .refl _, by omega⟩
  · have hne : k.stack.isEmpty = false := by
      cases hs : k.stack with
      | nil => simp [hs, MarkStack.stackLimit, MarkStack.chunkCapacity] at hlt
      | cons => rfl
    obtain ⟨kept, words, hs, -, hp⟩ := MarkStack.pushChunk_of hc (List.isEmpty_eq_false_iff.mp hne)
    refine ⟨{ k with shared := k.shared.withChunk words, stack := kept }, ?_, rfl,
      k.shared.pool.allocate_buffer.2.trans hc, ?_, Nat.le_refl _⟩
    · simp only [hlt, if_false, hp, Checked.ok_bind, Checked.pure_eq]
    · simp only [pending, MarkStack.withChunk, List.flatMap_cons]
      rw [hs, List.append_assoc]

end Marker

namespace Collector

/-- What marking changes. -/
def withMarks (c : Collector) (l : LivenessMap) (live : Array Nat) : Collector :=
  { c.setLiveness l with live := live }

variable (c : Collector) (L : Layout)

/-- Nothing is left to be done about a reference. -/
def Settled (l : LivenessMap) (p : Nat) : Prop :=
  p = 0 ∨ c.heap.InClosedArchive p ∨ L.IsWord p ∧ l.marked L p = true

/-- Marking is under way. The objects of the list are being scanned. -/
structure Marking (scanning : List Nat) (k : Marker) : Prop where
  same : k.collector = c.withMarks k.liveness k.collector.live
  laid : k.liveness.Laid L
  size : k.collector.live.size = L.count
  counted : ∀ i, i < L.count → Table.entry k.collector.live i =
    Word.total ((k.liveness.marksOf L i).map (Object.size c.memory))
  sound : ∀ o, L.IsWord o → k.liveness.marked L o = true → c.heap.Traced c.scope.clearSoft o
  waiting : ∀ o ∈ k.pending, L.IsWord o ∧ k.liveness.marked L o = true
  settled : ∀ o, L.IsWord o → k.liveness.marked L o = true → o ∉ k.pending → o ∉ scanning →
    ∀ p ∈ Object.referents c.memory o, c.Settled L k.liveness p
  capacity : k.shared.pool.capacity = MarkStack.chunkCapacity

/-- A bound for the steps that are left. -/
def weight (k : Marker) : Nat :=
  2 * (L.count * L.words - (k.liveness.marks L).length) + k.pending.length +
    k.shared.chunks.length

/-- Marks stay, and no step is gained. -/
structure Advances (k k' : Marker) : Prop where
  marks : ∀ a, L.IsWord a → k.liveness.marked L a = true → k'.liveness.marked L a = true
  weight : weight L k' ≤ weight L k

variable {c L}

theorem Settled.mono {l l' : LivenessMap} {p : Nat} (hs : c.Settled L l p)
    (h : ∀ a, L.IsWord a → l.marked L a = true → l'.marked L a = true) : c.Settled L l' p := by
  rcases hs with h0 | hc | ⟨hw, hm⟩
  · exact .inl h0
  · exact .inr (.inl hc)
  · exact .inr (.inr ⟨hw, h p hw hm⟩)

theorem Advances.trans {k k' k'' : Marker} (h : Advances L k k') (h' : Advances L k' k'') :
    Advances L k k'' :=
  ⟨fun a ha hm => h'.marks a ha (h.marks a ha hm), Nat.le_trans h'.weight h.weight⟩

/-- A traced object is marked. If it was not before, it waits from now on. -/
theorem Marking.insert {scanning : List Nat} {k k' : Marker} {p : Nat}
    (hk : c.Marking L scanning k) (hw : L.IsWord p) (ht : c.heap.Traced c.scope.clearSoft p)
    (hb : ∀ b, L.IsWord b → k'.liveness.marked L b = (decide (b = p) || k.liveness.marked L b))
    (hp : ∀ o, o ∈ k'.pending ↔ o ∈ k.pending ∨ o = p ∧ k.liveness.marked L p = false)
    (same : k'.collector = c.withMarks k'.liveness k'.collector.live)
    (laid : k'.liveness.Laid L) (size : k'.collector.live.size = L.count)
    (counted : ∀ i, i < L.count → Table.entry k'.collector.live i =
      Word.total ((k'.liveness.marksOf L i).map (Object.size c.memory)))
    (capacity : k'.shared.pool.capacity = MarkStack.chunkCapacity) :
    c.Marking L scanning k' := by
  have hstay : ∀ a, L.IsWord a → k.liveness.marked L a = true → k'.liveness.marked L a = true := by
    intro a haw h
    simp [hb a haw, h]
  refine {
    same := same
    laid := laid
    size := size
    counted := counted
    sound := fun o ho hm => ?sound
    waiting := fun o ho => ?waiting
    settled := fun o ho hm hpo hso q hq => ?settled
    capacity := capacity }
  case sound =>
    by_cases e : o = p
    · exact e ▸ ht
    · exact hk.sound o ho (by simpa [hb o ho, e] using hm)
  case waiting =>
    rcases (hp o).mp ho with h | ⟨rfl, -⟩
    · have := hk.waiting o h
      exact ⟨this.1, hstay o this.1 this.2⟩
    · exact ⟨hw, by simp [hb o hw]⟩
  case settled =>
    -- an object that waits no more and is not new was marked before
    have hold : k.liveness.marked L o = true := by
      by_cases e : o = p
      · subst e
        cases h : k.liveness.marked L o with
        | true => rfl
        | false => exact absurd ((hp o).mpr (.inr ⟨rfl, h⟩)) hpo
      · simpa [hb o ho, e] using hm
    rcases hk.settled o ho hold (fun h => hpo ((hp o).mpr (.inl h))) hso q hq with h | h | ⟨h, h'⟩
    · exact .inl h
    · exact .inr (.inl h)
    · exact .inr (.inr ⟨h, hstay q h h'⟩)

theorem Marking.exchange {s s' st st' : List Nat} {sh sh' : MarkStack} {k : Collector}
    (hk : c.Marking L s ⟨k, sh, st⟩)
    (hcap : sh'.pool.capacity = MarkStack.chunkCapacity)
    (hpend : ∀ o ∈ Marker.pending ⟨k, sh', st'⟩, L.IsWord o ∧ k.liveness.marked L o = true)
    (hrest : ∀ o, o ∉ Marker.pending ⟨k, sh', st'⟩ → o ∉ s' →
      o ∉ Marker.pending ⟨k, sh, st⟩ ∧ o ∉ s) : c.Marking L s' ⟨k, sh', st'⟩ :=
  ⟨hk.same, hk.laid, hk.size, hk.counted, hk.sound, hpend,
    fun o ho hm hwait hscan =>
      hk.settled o ho hm (hrest o hwait hscan).1 (hrest o hwait hscan).2, hcap⟩

theorem Marking.takeChunk {s : List Nat} {sh : MarkStack} {k : Collector} {chunk : Buffer}
    {rest : List Buffer} (hk : c.Marking L s ⟨k, sh, []⟩) (hc : sh.chunks = chunk :: rest) :
    c.Marking L s ⟨k, sh.withoutChunk chunk rest, chunk.words.reverse⟩ ∧
      weight L ⟨k, sh.withoutChunk chunk rest, chunk.words.reverse⟩ < weight L ⟨k, sh, []⟩ := by
  have hpend : ∀ o, o ∈ Marker.pending ⟨k, sh.withoutChunk chunk rest, chunk.words.reverse⟩ ↔
      o ∈ Marker.pending ⟨k, sh, []⟩ := fun o => by
    simp [Marker.pending, MarkStack.withoutChunk, hc]
  refine ⟨hk.exchange hk.capacity (fun o ho => hk.waiting o ((hpend o).mp ho)) fun o hnew hscan =>
    ⟨fun h => hnew ((hpend o).mpr h), hscan⟩, ?_⟩
  simp only [weight, Marker.liveness, Marker.pending, MarkStack.withoutChunk, hc,
    List.length_append, List.length_reverse, List.flatMap_cons, List.length_cons, List.length_nil]
  omega

/-- A reference that marking may follow: null, or an object that can be traced or lies where
marking does not go. -/
def Followable (c : Collector) (p : Nat) : Prop := p = 0 ∨ c.heap.Alive c.scope.clearSoft p

/-- No lookup of a region is refused, and the attributes are those that every region starts with. -/
structure Attributed (c : Collector) (L : Layout) : Prop where
  heap : c.heap.Laid L
  attr : ∀ i, i < L.count → c.attrs.get i = .ok (initialAttr (c.heap.region i))

theorem Ready.attributed (r : c.Ready L)
    (ha : ∀ i, i < L.count → c.attrs.attr i = initialAttr (c.heap.region i)) : c.Attributed L :=
  ⟨r.heap, fun i hi => by rw [r.attr_of hi, ha i hi]⟩

section Steps

variable (w : c.heap.Clean L) (r : c.Attributed L)

include w in
theorem Followable.isWord {p : Nat} (hp : c.Followable p) (h0 : p ≠ 0) :
    c.heap.IsObject p ∧ L.IsWord p := by
  have ho : c.heap.IsObject p := by
    rcases hp with h | ht | hc
    · exact absurd h h0
    · exact w.traced_isObject ht
    · exact hc.1
  exact ⟨ho, (w.mem_objectsIn ho).1⟩

include w in
theorem followable_of_referent {o p : Nat} (ht : c.heap.Traced c.scope.clearSoft o)
    (hp : p ∈ Object.referents c.memory o) : c.Followable p := by
  by_cases h0 : p = 0
  · exact .inl h0
  · by_cases hc : c.heap.InClosedArchive p
    · exact .inr (.inr ⟨w.referent_isObject ht hp h0, hc⟩)
    · exact .inr (.inl (.field ht hp h0 hc))

include w in
theorem followable_of_root {p : Nat} (hp : p ∈ c.heap.markingRoots c.scope.clearSoft) :
    c.Followable p := by
  by_cases h0 : p = 0
  · exact .inl h0
  · by_cases hc : c.heap.InClosedArchive p
    · exact .inr (.inr ⟨w.root_isObject hp h0, hc⟩)
    · exact .inr (.inl (.root hp h0 hc))

include w r

theorem lookup_of {scanning : List Nat} {k : Marker} {p : Nat} (hk : c.Marking L scanning k)
    (hobj : c.heap.IsObject p) : k.collector.heap.contains p = true ∧
      k.collector.heap.regionOf p = .ok (L.regionOf p) ∧ ∃ attr,
        k.collector.attrs.get (L.regionOf p) = .ok attr ∧ (attr != .free) = true ∧
        attr.isMarkedThrough = !(c.heap.region (L.regionOf p)).kind.isClosedArchive := by
  obtain ⟨hword, hmem⟩ := w.mem_objectsIn hobj
  have hl : k.collector.heap.Laid L := by
    rw [hk.same]
    exact r.heap.withLiveness hk.laid
  have hattrs : k.collector.attrs = c.attrs := by rw [hk.same]; rfl
  have hfree : (c.heap.region (L.regionOf p)).kind.isFree = false := by
    rcases Heap.Built.cases_of_mem hmem with hk' | hk'
    · exact (RegionKind.not_of_ordinary hk').1
    · exact (RegionKind.not_of_humongous (by rw [RegionKind.isHumongous, hk']; rfl)).1
  have hattr := r.attr _ hword.regionOf_lt
  rw [← hattrs] at hattr
  refine ⟨hl.contains_of hword, hl.regionOf_of hword, _, hattr, ?_⟩
  cases hca : (c.heap.region (L.regionOf p)).kind.isClosedArchive <;>
    simp only [initialAttr, hfree, hca, Bool.false_eq_true, if_false, if_true]
  · split <;> exact ⟨rfl, rfl⟩
  · exact ⟨rfl, rfl⟩

theorem mark_sealed_of {scanning : List Nat} {k : Marker} {p : Nat} (hk : c.Marking L scanning k)
    (hobj : c.heap.IsObject p) (hc : c.heap.InClosedArchive p) : k.mark p = .ok k := by
  obtain ⟨hin, hregion, attr, hattr, hfree, hthrough⟩ := lookup_of w r hk hobj
  rw [(w.inClosedArchive_iff (w.mem_objectsIn hobj).1).mp hc] at hthrough
  simp only [Marker.mark, hin, hregion, hattr, hthrough, hfree, Checked.unless_true,
    Checked.ok_bind, Bool.not_true, Bool.not_false, if_true]
  rfl

/-- A traced object is marked in the map. If it was not before, its words are counted and it waits
to be scanned. -/
theorem mark_traced_eq {scanning : List Nat} {k : Marker} {p : Nat} (hk : c.Marking L scanning k)
    (ht : c.heap.Traced c.scope.clearSoft p) : L.IsWord p ∧ ∃ l', l'.Laid L ∧
      (∀ b, L.IsWord b → l'.marked L b = (decide (b = p) || k.liveness.marked L b)) ∧
      k.mark p = if k.liveness.marked L p = true then
          .ok { k with collector := k.collector.setLiveness l' }
        else Marker.share { k with
          collector := { k.collector.setLiveness l' with
            live := k.collector.live.setIfInBounds (L.regionOf p)
              (Table.entry k.collector.live (L.regionOf p) + Object.size c.memory p) }
          stack := p :: k.stack } := by
  have hobj := w.traced_isObject ht
  have hword := (w.mem_objectsIn hobj).1
  obtain ⟨hin, hregion, attr, hattr, -, hthrough⟩ := lookup_of w r hk hobj
  -- marking stops at closed archives, so the object is in none
  have hopen : (c.heap.region (L.regionOf p)).kind.isClosedArchive = false :=
    Bool.eq_false_iff.mpr fun hc => ht.not_archived ((w.inClosedArchive_iff hword).mpr hc)
  rw [hopen] at hthrough
  obtain ⟨l', hm, hl', hb⟩ := LivenessMap.tryMark_of hk.laid hword
  have htry : k.collector.liveness.tryMark p = .ok (!k.liveness.marked L p, l') := hm
  refine ⟨hword, l', hl', hb, ?_⟩
  cases hold : k.liveness.marked L p with
  | true =>
    rw [hold] at htry
    simp only [Marker.mark, hin, hregion, hattr, hthrough, htry, Checked.unless_true,
      Checked.ok_bind, Bool.not_true, Bool.not_false, Bool.false_eq_true, if_false, if_true]
    rfl
  | false =>
    have hz : L.regionOf p < k.collector.live.size := hk.size ▸ hword.regionOf_lt
    have hget : (k.collector.setLiveness l').liveWords (L.regionOf p) =
        .ok (Table.entry k.collector.live (L.regionOf p)) := Table.get_of_lt hz
    have hset := Table.set_of_lt hz
      (Table.entry k.collector.live (L.regionOf p) + Object.size c.memory p)
    have hlive : (k.collector.setLiveness l').live = k.collector.live := rfl
    have hmemory : (k.collector.setLiveness l').memory = c.memory := by rw [hk.same]; rfl
    rw [hold] at htry
    simp only [Marker.mark, hin, hregion, hattr, hthrough, htry, hget, hlive, hset, hmemory,
      Checked.unless_true, Checked.ok_bind, Bool.not_true, Bool.not_false, Bool.false_eq_true,
      if_false]

theorem mark_again_of {scanning : List Nat} {k : Marker} {p : Nat} (hk : c.Marking L scanning k)
    (ht : c.heap.Traced c.scope.clearSoft p) (hold : k.liveness.marked L p = true) :
    ∃ k', k.mark p = .ok k' ∧ c.Marking L scanning k' ∧ k'.liveness.marked L p = true ∧
      Advances L k k' := by
  obtain ⟨hword, l', hl', hb, hrun⟩ := mark_traced_eq w r hk ht
  rw [if_pos hold] at hrun
  have hsame : ∀ b, L.IsWord b → l'.marked L b = k.liveness.marked L b := by
    intro b hbw
    rw [hb b hbw]
    by_cases e : b = p
    · simp [e, hold]
    · simp [e]
  have hmarks : l'.marks L = k.liveness.marks L :=
    List.filter_congr fun b hbm => hsame b (LivenessMap.isWord_iff_mem.mpr hbm)
  have hlive : Marker.liveness { k with collector := k.collector.setLiveness l' } = l' := rfl
  refine ⟨_, hrun, hk.insert hword ht hb (fun o => by simp [Marker.pending, hold]) ?_ hl' hk.size
      (fun i hi => ?_) hk.capacity, (hsame p hword).trans hold,
    fun a haw h => (hsame a haw).trans h, ?_⟩
  · rw [hk.same]
    rfl
  · rw [hlive, LivenessMap.marksOf_congr hi fun b hbw _ => hsame b hbw]
    exact hk.counted i hi
  · rw [weight, hlive, hmarks]
    exact Nat.le_refl _

theorem mark_new_of {scanning : List Nat} {k : Marker} {p : Nat} (hk : c.Marking L scanning k)
    (ht : c.heap.Traced c.scope.clearSoft p) (hnew : k.liveness.marked L p = false) :
    ∃ k', k.mark p = .ok k' ∧ c.Marking L scanning k' ∧ k'.liveness.marked L p = true ∧
      Advances L k k' := by
  obtain ⟨hword, l', hl', hb, hrun⟩ := mark_traced_eq w r hk ht
  rw [if_neg (by simp [hnew])] at hrun
  have hz : L.regionOf p < k.collector.live.size := hk.size ▸ hword.regionOf_lt
  obtain ⟨live', hlive'⟩ : ∃ live', live' = k.collector.live.setIfInBounds (L.regionOf p)
    (Table.entry k.collector.live (L.regionOf p) + Object.size c.memory p) := ⟨_, rfl⟩
  rw [← hlive'] at hrun
  -- sharing moves objects from the stack to a chunk and loses none
  obtain ⟨k', hshare, hcol, hcap, hperm, hchunks⟩ := Marker.share_of (k := { k with
    collector := { k.collector.setLiveness l' with live := live' }, stack := p :: k.stack })
    hk.capacity
  have hlive : k'.liveness = l' := by rw [Marker.liveness, hcol]; rfl
  have hwords : k'.collector.live = live' := by rw [hcol]
  have hpend : k'.pending.Perm (p :: k.pending) := hperm
  refine ⟨k', hrun.trans hshare, hk.insert hword ht (hlive ▸ hb) (fun o => ?_) ?_ (hlive ▸ hl') ?_
    (fun i hi => ?_) hcap, by simp [hlive, hb p hword], fun a haw h => by simp [hlive, hb a haw, h],
    ?_⟩
  · rw [hpend.mem_iff, List.mem_cons, hnew]
    simp [or_comm]
  · rw [hcol, hlive, hk.same]
    rfl
  · rw [hwords, hlive', Array.size_setIfInBounds, hk.size]
  · rw [hlive, hwords, hlive', Table.entry_set hz]
    by_cases e : L.regionOf p = i
    · subst e
      rw [if_pos rfl, hk.counted _ hi,
        Word.total_perm ((LivenessMap.marksOf_insert hb hword hnew).map _), List.map_cons,
        Word.total, Nat.add_comm]
    · rw [if_neg e, hk.counted i hi, LivenessMap.marksOf_insert_of_ne hb hi e]
  · -- one word more is marked, one object more waits, and at most one chunk more is shared
    have hmarks := (LivenessMap.marks_insert hb hword hnew).length_eq
    have hwaiting := hpend.length_eq
    have hbound := l'.length_marks_le L
    have hshared : k'.shared.chunks.length ≤ k.shared.chunks.length + 1 := hchunks
    rw [List.length_cons] at hmarks hwaiting
    rw [weight, weight, hlive]
    omega

theorem markReference_of {scanning : List Nat} {k : Marker} {p : Nat}
    (hk : c.Marking L scanning k) (hp : c.Followable p) :
    ∃ k', k.markReference p = .ok k' ∧ c.Marking L scanning k' ∧
      c.Settled L k'.liveness p ∧ Advances L k k' := by
  by_cases h0 : p = 0
  · exact ⟨k, by simp [Marker.markReference, h0], hk, .inl h0, fun _ _ h => h, Nat.le_refl _⟩
  obtain ⟨hobj, hword⟩ := hp.isWord w h0
  rw [Marker.markReference, if_neg h0]
  rcases hp with h | ht | hc
  · exact absurd h h0
  · cases hold : k.liveness.marked L p with
    | true =>
      obtain ⟨k', hrun, hk', hm, hadv⟩ := mark_again_of w r hk ht hold
      exact ⟨k', hrun, hk', .inr (.inr ⟨hword, hm⟩), hadv⟩
    | false =>
      obtain ⟨k', hrun, hk', hm, hadv⟩ := mark_new_of w r hk ht hold
      exact ⟨k', hrun, hk', .inr (.inr ⟨hword, hm⟩), hadv⟩
  · exact ⟨k, mark_sealed_of w r hk hobj hc.2, hk, .inr (.inl hc.2), fun _ _ h => h,
      Nat.le_refl _⟩

theorem markAll_of {scanning : List Nat} {k : Marker} (hk : c.Marking L scanning k)
    (ps : List Nat) (hp : ∀ p ∈ ps, c.Followable p) :
    ∃ k', k.markAll ps = .ok k' ∧ c.Marking L scanning k' ∧
      (∀ p ∈ ps, c.Settled L k'.liveness p) ∧ Advances L k k' := by
  obtain ⟨k', hf, h⟩ := Checked.foldlM_split (f := Marker.markReference) (l := ps)
    (fun done k' => c.Marking L scanning k' ∧ (∀ p ∈ done, c.Settled L k'.liveness p) ∧
      Advances L k k')
    (fun done p rest k₁ hxs ⟨h₁, hs, hadv⟩ => by
      obtain ⟨k₂, he, h₂, hp₂, hadv₂⟩ := markReference_of w r h₁ (hp p (by simp [hxs]))
      refine ⟨k₂, he, h₂, fun q hq => ?_, hadv.trans hadv₂⟩
      rcases List.mem_append.mp hq with hq | hq
      · exact (hs q hq).mono hadv₂.marks
      · obtain rfl : q = p := by simpa using hq
        exact hp₂)
    k ⟨hk, by simp, fun _ _ h => h, Nat.le_refl _⟩
  exact ⟨k', hf, h⟩

theorem scan_of {k : Marker} {o : Nat} {rest : List Nat} (hk : c.Marking L [] k)
    (hs : k.stack = o :: rest) :
    ∃ k', ({ k with stack := rest } : Marker).scan o = .ok k' ∧ c.Marking L [] k' ∧
      (∀ a, L.IsWord a → k.liveness.marked L a = true → k'.liveness.marked L a = true) ∧
      weight L k' < weight L k := by
  have hpend : k.pending = o :: Marker.pending { k with stack := rest } := by
    simp [Marker.pending, hs]
  have ho := hk.waiting o (by rw [hpend]; simp)
  have ht := hk.sound o ho.1 ho.2
  have hk₁ : c.Marking L [o] { k with stack := rest } :=
    ⟨hk.same, hk.laid, hk.size, hk.counted, hk.sound,
      fun p hp => hk.waiting p (by rw [hpend]; exact List.mem_cons_of_mem _ hp),
      fun p hp hm hn ho q hq => hk.settled p hp hm (by rw [hpend]; simp_all) (by simp) q hq,
      hk.capacity⟩
  have hmem : k.collector.memory = c.memory := by rw [hk.same]; rfl
  have hw : weight L { k with stack := rest } < weight L k := by
    simp only [weight, hpend, List.length_cons]
    exact Nat.add_lt_add_right (Nat.add_lt_add_left (Nat.lt_succ_self _) _) _
  obtain ⟨k', hf, h', hall, hadv⟩ := markAll_of w r hk₁
    (Object.referents c.memory o) fun p hp => followable_of_referent w ht hp
  refine ⟨k', ?_, ?_, hadv.marks, Nat.lt_of_le_of_lt hadv.weight hw⟩
  · rw [Marker.scan_eq_markAll]
    simp only [hmem]
    exact hf
  · refine ⟨h'.same, h'.laid, h'.size, h'.counted, h'.sound, h'.waiting, ?_, h'.capacity⟩
    intro p hp hm hn _ q hq
    by_cases e : p = o
    · exact hall q (e ▸ hq)
    · exact h'.settled p hp hm hn (by simpa using e) q hq

/-- With enough steps nothing waits any more. -/
theorem drainIn_of {n : Nat} {k : Marker} (hk : c.Marking L [] k) (hn : weight L k < n) :
    ∃ k', Marker.drainIn n k = .ok k' ∧ c.Marking L [] k' ∧ k'.pending = [] ∧
      ∀ a, L.IsWord a → k.liveness.marked L a = true → k'.liveness.marked L a = true := by
  induction n generalizing k with
  | zero => omega
  | succ n ih =>
    cases hs : k.stack with
    | cons o rest =>
      obtain ⟨k₁, h₁, hk₁, hm₁, hw₁⟩ := scan_of w r hk hs
      obtain ⟨k', h', hk', hp', hm'⟩ := ih hk₁ (by omega)
      refine ⟨k', ?_, hk', hp', fun a haw h => hm' a haw (hm₁ a haw h)⟩
      rw [Marker.drainIn, hs]
      exact (Checked.bind_of h₁ _).trans h'
    | nil =>
      cases hc : k.shared.chunks with
      | nil =>
        refine ⟨k, ?_, hk, by simp [Marker.pending, hs, hc], fun _ _ h => h⟩
        simp [Marker.drainIn, hs, MarkStack.popChunk, hc]
      | cons chunk rest =>
        obtain ⟨k, sh, st⟩ := k
        obtain rfl : st = [] := hs
        obtain ⟨hk₁, hw₁⟩ := hk.takeChunk hc
        obtain ⟨k', h', hk', hp', hm'⟩ := ih hk₁ (by omega)
        refine ⟨k', ?_, hk', hp', hm'⟩
        simp only [Marker.drainIn, MarkStack.popChunk_of hc, List.append_nil]
        exact h'

end Steps

end Collector

theorem Terminator.offers_of (hasWork : Bool) (xs : List Nat) {t : Terminator}
    (h : t.offered + xs.length ≤ t.workers) :
    ∃ t', xs.foldlM (fun (t : Terminator) _ => do return (← t.offer hasWork).2) t = .ok t' := by
  induction xs generalizing t with
  | nil => exact ⟨t, rfl⟩
  | cons x xs ih =>
    rw [List.length_cons] at h
    have ho : ∃ b t', t.offer hasWork = .ok (b, t') ∧ t'.offered + xs.length ≤ t'.workers := by
      unfold offer
      rw [Checked.unless_of (by simp; omega), Checked.ok_bind]
      by_cases hl : t.offered + 1 = t.workers
      · exact ⟨true, { t with offered := t.workers }, by simp [hl],
          show t.workers + xs.length ≤ t.workers by omega⟩
      · cases hasWork with
        | true => exact ⟨false, t, by simp [hl], by omega⟩
        | false => exact ⟨false, { t with offered := t.offered + 1 }, by simp [hl], by simp; omega⟩
    obtain ⟨b, t₁, h₁, hle⟩ := ho
    obtain ⟨t', h'⟩ := ih hle
    refine ⟨t', ?_⟩
    rw [List.foldlM_cons, Checked.bind_of (by rw [Checked.bind_of h₁]; rfl), h']

open Classical in
/-- What is left of a reference that does not keep its object alive. -/
noncomputable def Heap.kept (h : Heap) (clearSoft : Bool) (o : Nat) : Nat :=
  if h.Alive clearSoft o then o else 0

/-- The roots after the references to dead objects were cleared. -/
noncomputable def Heap.keptRoots (h : Heap) (clearSoft : Bool) : Roots :=
  { h.roots with
    soft := if clearSoft then h.roots.soft.map (h.kept clearSoft) else h.roots.soft
    weak := h.roots.weak.map (h.kept clearSoft) }

namespace Collector

variable {c : Collector} {L : Layout}

/-- The result of marking. -/
noncomputable def afterMarking (c : Collector) (l : LivenessMap) (live : Array Nat) : Collector :=
  { c with
    heap := { c.heap with liveness := l, roots := c.heap.keptRoots c.scope.clearSoft }
    live := live }

/-- The map marks the traced objects. -/
def Exact (c : Collector) (L : Layout) (l : LivenessMap) : Prop :=
  ∀ o, L.IsWord o → (l.marked L o = true ↔ c.heap.Traced c.scope.clearSoft o)

theorem initialAttr_eq_skip (r : Region) :
    initialAttr r = .skipMarking ↔ r.kind.isClosedArchive = true := by
  unfold initialAttr
  cases r.kind <;> simp [RegionKind.isFree, RegionKind.isClosedArchive] <;> split <;> simp

theorem isAlive_eq_marked {o : Nat} {attr : RegionAttr} (hc : c.heap.Laid L) (hw : L.IsWord o)
    (ha : c.attrs.get (L.regionOf o) = .ok attr) :
    c.isAlive o = .ok (attr == .skipMarking || c.liveness.marked L o) := by
  rw [isAlive, Checked.bind_of (hc.regionOf_of hw), Checked.bind_of ha]
  cases attr == .skipMarking with
  | true => rfl
  | false => exact LivenessMap.isMarked_of hc.liveness hw

/-- What is alive is marked or in a closed archive. -/
theorem isAlive_of (w : c.heap.Consistent L) (r : c.Attributed L) {l : LivenessMap}
    (live : Array Nat) (hl : l.Laid L) (he : c.Exact L l) {p : Nat} (hp : c.heap.IsObject p) :
    ∃ b, (c.withMarks l live).isAlive p = .ok b ∧
      (b = true ↔ c.heap.Alive c.scope.clearSoft p) := by
  obtain ⟨hw, -⟩ := w.mem_objectsIn hp
  have hheap : (c.withMarks l live).heap.Laid L := r.heap.withLiveness hl
  refine ⟨_, isAlive_eq_marked hheap hw (r.attr _ hw.regionOf_lt), ?_⟩
  have hmarks : (c.withMarks l live).liveness = l := rfl
  rw [hmarks, Bool.or_eq_true, he p hw, Heap.Alive, w.inClosedArchive_iff hw, or_comm, beq_iff_eq,
    initialAttr_eq_skip]
  simp only [hp, true_and]

theorem clearDead_of (w : c.heap.Consistent L) (r : c.Attributed L)
    {l : LivenessMap} (live : Array Nat) (hl : l.Laid L) (he : c.Exact L l) {ps : List Nat}
    (hp : ∀ p ∈ ps, p ≠ 0 → c.heap.IsObject p) :
    (c.withMarks l live).clearDead ps = .ok (ps.map (c.heap.kept c.scope.clearSoft)) := by
  apply Checked.mapM_of
  intro p hps
  by_cases h0 : p = 0
  · subst h0
    simp [Heap.kept]
  · obtain ⟨b, hb, hiff⟩ := isAlive_of w r live hl he (hp p hps h0)
    simp only [h0, if_false, hb, Checked.ok_bind, Heap.kept]
    by_cases hal : c.heap.Alive c.scope.clearSoft p
    · rw [if_pos (hiff.mpr hal), if_pos hal]
      rfl
    · rw [if_neg fun h => hal (hiff.mp h), if_neg hal]
      rfl

theorem processReferences_of (w : c.heap.Consistent L) (r : c.Attributed L) {l : LivenessMap}
    (live : Array Nat) (hl : l.Laid L) (he : c.Exact L l) :
    (c.withMarks l live).processReferences = .ok (c.afterMarking l live) := by
  have hw : (c.withMarks l live).clearDead (c.withMarks l live).heap.roots.weak = .ok _ :=
    clearDead_of w r live hl he (w.rooted .weak)
  have hs : (c.withMarks l live).clearDead (c.withMarks l live).heap.roots.soft = .ok _ :=
    clearDead_of w r live hl he (w.rooted .soft)
  have hscope : (c.withMarks l live).scope = c.scope := rfl
  simp only [processReferences, hw, hs, hscope, Checked.ok_bind, Checked.pure_eq]
  cases hcs : c.scope.clearSoft <;> simp only [afterMarking, Heap.keptRoots, hcs] <;> rfl

theorem Marking.begin (w : c.heap.Clean L) (hsize : c.live.size = L.count)
    (hz : ∀ i, i < L.count → Table.entry c.live i = 0) {s : MarkStack} (hchunks : s.chunks = [])
    (hcap : s.pool.capacity = MarkStack.chunkCapacity) :
    c.Marking L [] { collector := c, shared := s } := by
  have hlive : Marker.liveness { collector := c, shared := s } = c.heap.liveness := rfl
  refine ⟨rfl, w.liveness, hsize, fun i hi => ?_, fun o ho hm => ?_, fun o ho => ?_,
    fun o ho hm => ?_, hcap⟩
  · have hnil : c.heap.liveness.marksOf L i = [] := by
      apply List.eq_nil_iff_forall_not_mem.mpr
      intro a hm
      have := (LivenessMap.mem_marksOf hi).mp hm
      rw [w.unmarked a this.1] at this
      simp at this
    rw [hlive, hnil]
    exact hz i hi
  · rw [hlive, w.unmarked o ho] at hm
    contradiction
  · simp [Marker.pending, hchunks] at ho
  · rw [hlive, w.unmarked o ho] at hm
    contradiction

/-- When nothing waits any more, exactly the traced objects are marked. -/
theorem Marking.exact (w : c.heap.Clean L) {k : Marker} (hk : c.Marking L [] k)
    (hpend : k.pending = []) (hroots : ∀ p ∈ c.markingRoots, c.Settled L k.liveness p) :
    c.Exact L k.liveness := by
  refine fun o ho => ⟨hk.sound o ho, fun ht => ?_⟩
  clear ho
  induction ht with
  | @root o ho h0 hc =>
    rcases hroots o ho with h | h | ⟨-, h⟩
    · exact absurd h h0
    · exact absurd h hc
    · exact h
  | @field o p ht hp h0 hc ih =>
    have hword := (w.mem_objectsIn (w.traced_isObject ht)).1
    rcases hk.settled o hword ih (by simp [hpend]) (by simp) p hp with h | h | ⟨-, h⟩
    · exact absurd h h0
    · exact absurd h hc
    · exact h

/-- Marking marks what can be traced, counts the words of it region by region, and clears the
references to everything else. -/
theorem markLive_of (w : c.heap.Clean L) (r : c.Attributed L) (hworkers : 0 < c.workers)
    (hsize : c.live.size = L.count) (hz : ∀ i, i < L.count → Table.entry c.live i = 0) :
    ∃ l live, c.markLive = .ok (c.afterMarking l live) ∧ l.Laid L ∧ c.Exact L l ∧
      live.size = L.count ∧ ∀ i, i < L.count → Table.entry live i =
        Word.total ((l.marksOf L i).map (Object.size c.memory)) := by
  obtain ⟨s, hs, hchunks, hcap⟩ :
      ∃ s, MarkStack.create c.heap.table.shared.rounds = .ok s ∧ s.chunks = [] ∧
        s.pool.capacity = MarkStack.chunkCapacity := ⟨_, rfl, rfl, rfl⟩
  obtain ⟨k₁, h₁, hk₁, hroots, hadv⟩ := markAll_of w r (.begin w hsize hz hchunks hcap)
    c.markingRoots fun p hp => followable_of_root w hp
  have hheap : k₁.collector.heap = { c.heap with liveness := k₁.liveness } := by
    rw [hk₁.same]
    rfl
  -- the roots added no weight, so that the steps suffice to drain the stack
  have hweight : weight L k₁ < Marker.steps k₁.collector.heap := by
    have hnone : Marker.liveness { collector := c, shared := s } = c.heap.liveness := rfl
    have h0 : weight L { collector := c, shared := s } = 2 * (L.count * L.words) := by
      have hmarks : c.heap.liveness.marks L = [] := by
        apply List.filter_eq_nil_iff.mpr
        intro a ha'
        rw [w.unmarked a (LivenessMap.isWord_iff_mem.mpr ha')]
        simp
      simp [weight, hnone, Marker.pending, hmarks, hchunks]
    have hsteps : Marker.steps k₁.collector.heap = 2 * (L.count * L.words) + 1 := by
      rw [Marker.steps, hheap,
        show ({ c.heap with liveness := k₁.liveness } : Heap).regionCount = L.count from
          r.heap.regionCount,
        show ({ c.heap with liveness := k₁.liveness } : Heap).regionWords = L.words from
          w.regionWords]
    have := hadv.weight
    omega
  obtain ⟨k, h₂, hk, hpend, hmono⟩ := drainIn_of w r hk₁ hweight
  have hexact := hk.exact w hpend fun p hp => (hroots p hp).mono hmono
  obtain ⟨t, ht⟩ := Terminator.offers_of (!k.shared.isEmpty) (c.heap.gang.runWith c.workers)
    (t := { workers := c.workers }) (by
      simp only [Gang.runWith, Gang.clamp, List.length_range]
      omega)
  refine ⟨k.liveness, k.collector.live, ?_, hk.laid, hexact, hk.size, hk.counted⟩
  rw [markLive, Checked.bind_of hs, Checked.bind_of h₁, Checked.bind_of (x := k₁.drain) h₂,
    ht, hk.same]
  refine Checked.bind_of (x := discard (.ok t)) rfl _ |>.trans ?_
  exact processReferences_of w.toConsistent r k.collector.live hk.laid hexact

end Collector

end RegionHeap
