import RegionHeap.Proofs.FreeRegions
import RegionHeap.Proofs.Moving

/-!
The end of a collection. What a region is in the end follows from its fate, and the check of the
heap passes.
-/
set_option autoImplicit false

namespace RegionHeap.Collector

/-- A region that kept its objects. A young one is old from now on. -/
structure Kept (r r' : Region) : Prop where
  kind : r'.kind = if r.kind.isYoung then .old else r.kind
  top : r'.top = r.top
  pins : r'.pins = r.pins
  humongousStart : r'.humongousStart = r.humongousStart
  blocks : r'.blocks = r.blocks

theorem Kept.kinds {r r' : Region} (e : Kept r r') :
    r'.kind.isOrdinary = r.kind.isOrdinary ∧ r'.kind.isFree = r.kind.isFree ∧
      r'.kind.isStartsHumongous = r.kind.isStartsHumongous ∧
      r'.kind.isContinuesHumongous = r.kind.isContinuesHumongous ∧
      r'.kind.isClosedArchive = r.kind.isClosedArchive := by
  rw [e.kind]
  cases r.kind <;> decide

/-- A region whose objects stay in it. -/
structure Keeps (c : Collector) (h : Heap) (f : Collector) (i : Nat) : Prop where
  used : h.fate c.scope.clearSoft c.scope.threshold i ≠ .free
  unlisted : i ∉ f.lists
  stays : ∀ m ∈ f.moves, ¬m.Leaves i

/-- What a region is in the end. -/
inductive Ended (c : Collector) (h : Heap) (L : Layout) (f : Collector)
    (fill : Nat → List (Nat × Nat)) (i : Nat) (r : Region) : Prop where
  | taken (m : HumongousMove) : m ∈ f.moves → m.Takes i → r.kind.isHumongous = true →
      r.humongousStart = some m.target → Ended c h L f fill i r
  | empty : (h.fate c.scope.clearSoft c.scope.threshold i = .free ∨
      (∃ m ∈ f.moves, m.Leaves i) ∨ i ∈ f.lists ∧ fill i = []) →
      r.kind = .free → r.top = L.bottom i →
      (((h.region i).kind.isFree = true → (h.region i).Blank) → r.Blank) → Ended c h L f fill i r
  | filled : i ∈ f.lists → fill i ≠ [] → r.kind = .old → r.top = Table.entry f.tops i →
      r.blocks = (f.heap.region i).blocks → Ended c h L f fill i r
  | kept : Keeps c h f i → Kept (h.region i) r → Ended c h L f fill i r

variable {c f : Collector} {h : Heap} {L : Layout} {fill : Nat → List (Nat × Nat)} {m₃ : Memory}
  {x : Collector} {i o a : Nat}

theorem Planned.filled_or (p : c.Planned h L f fill) (w : h.Consistent L) (hi : i ∈ f.lists) :
    fill i = [] ∧ Table.entry f.tops i = L.bottom i ∨
      fill i ≠ [] ∧ L.bottom i < Table.entry f.tops i := by
  have hf := p.filled i hi
  cases he : fill i with
  | nil =>
    have := hf.packed.end_eq
    rw [he] at this
    exact .inl ⟨rfl, by simpa [Word.total] using this⟩
  | cons q rest =>
    have hq : q ∈ fill i := by simp [he]
    have := hf.packed.bounds hq
    have := w.size_ge (p.only i hi q hq).2.isObject
    exact .inr ⟨by simp, by omega⟩

theorem sorted_of_free (w : h.Consistent L) (hi : i < L.count) {clearSoft : Bool} {threshold : Nat}
    (hf : h.fate clearSoft threshold i = .free) :
    (h.sorted clearSoft threshold i).kind = .free ∧
      (h.sorted clearSoft threshold i).top = L.bottom i ∧
      (((h.region i).kind.isFree = true → (h.region i).Blank) →
        (h.sorted clearSoft threshold i).Blank) := by
  cases hk : (h.region i).kind.isFree with
  | true =>
    rw [Heap.sorted, if_neg (by rw [hk]; simp)]
    exact ⟨by simpa [RegionKind.isFree] using hk, w.free i hi hk, fun hb => hb rfl⟩
  | false =>
    rw [Heap.sorted, if_pos ⟨hf, hk⟩]
    exact ⟨rfl, (w.laid hi).bottom, fun _ => Region.blank_clear _⟩

namespace Planned

variable (w : h.Consistent L) (p : c.Planned h L f fill) (hi : i < L.count)
  (hleft : ∀ m ∈ f.moves, ¬m.Leaves i)

include w p hi hleft

theorem ended_listed (hlist : i ∈ f.lists) : Ended c h L f fill i (f.slid i) := by
  have hplace : f.inPlace i = f.heap.region i := by
    rw [inPlace, if_neg (by rw [p.stay i hi hleft, ((p.mem i).mp hlist).2]; simp)]
  rw [slid, if_pos hlist, hplace, Region.compactedTo,
    show (f.heap.region i).bottom = L.bottom i from (p.ready.heap.table.region i hi).bottom]
  rcases p.filled_or w hlist with ⟨hfill, htop⟩ | ⟨hfill, htop⟩
  · rw [if_pos htop]
    exact .empty (.inr (.inr ⟨hlist, hfill⟩)) rfl rfl fun _ => Region.blank_clear _
  · rw [if_neg (by omega)]
    exact .filled hlist hfill rfl rfl rfl

theorem ended_free (hfate : h.fate c.scope.clearSoft c.scope.threshold i = .free) :
    Ended c h L f fill i (f.slid i) := by
  have hlist : i ∉ f.lists := fun hm => by
    rw [((p.mem i).mp hm).2] at hfate
    contradiction
  have hplace : f.inPlace i = f.heap.region i := by
    rw [inPlace, if_neg (by rw [p.stay i hi hleft, hfate]; simp)]
  have halike := p.region i hi
  obtain ⟨hkind, htop, hblank⟩ := sorted_of_free w hi hfate
  rw [slid, if_neg hlist, hplace]
  refine .empty (.inl hfate) (halike.kind.trans hkind) (halike.top.trans htop) fun hb => ?_
  have hblocks := p.blocks i hi (by rw [hfate]; simp)
  exact ⟨halike.kind.trans hkind,
    (halike.top.trans htop).trans (p.ready.heap.table.region i hi).bottom.symm,
    halike.humongousStart.trans (hblank hb).humongousStart, halike.marked.trans (hblank hb).marked,
    by rw [hblocks]; exact (hblank hb).blocks⟩

theorem ended_kept (hlist : i ∉ f.lists)
    (hfate : h.fate c.scope.clearSoft c.scope.threshold i ≠ .free) :
    Ended c h L f fill i (f.slid i) := by
  have halike := p.region i hi
  rw [Heap.sorted_eq hfate] at halike
  have hblocks := p.blocks i hi fun e => hlist ((p.mem i).mpr ⟨hi, e⟩)
  rw [Heap.sorted_eq hfate] at hblocks
  rw [slid, if_neg hlist, inPlace]
  split
  · refine .kept ⟨hfate, hlist, hleft⟩ ⟨?_, halike.top, halike.pins, halike.humongousStart, hblocks⟩
    rw [Region.leftInPlace, halike.kind]
  · next hstay =>
    -- what is neither compacted nor left in place is in a closed archive, and not young
    have hskip : h.fate c.scope.clearSoft c.scope.threshold i = .skipMarking := by
      rw [p.stay i hi hleft] at hstay
      cases hf : h.fate c.scope.clearSoft c.scope.threshold i with
      | skipMarking => rfl
      | compacting => exact absurd ((p.mem i).mpr ⟨hi, hf⟩) hlist
      | skipCompacting => exact absurd hf hstay
      | free => exact absurd hf hfate
    have hk : (h.region i).kind = .closedArchive := by
      simpa [RegionKind.isClosedArchive] using (w.fate_eq_skipMarking hi).mp hskip
    have hyoung : (h.region i).kind.isYoung = false := by
      rw [hk]
      rfl
    exact .kept ⟨hfate, hlist, hleft⟩ ⟨by rw [hyoung]; exact halike.kind, halike.top, halike.pins,
      halike.humongousStart, hblocks⟩

theorem ended_slid : Ended c h L f fill i (f.slid i) := by
  by_cases hlist : i ∈ f.lists
  · exact p.ended_listed w hi hleft hlist
  · by_cases hfate : h.fate c.scope.clearSoft c.scope.threshold i = .free
    · exact p.ended_free w hi hleft hfate
    · exact p.ended_kept w hi hleft hlist hfate

end Planned

/-- What every region is in the end. -/
theorem Moving.ended (w : h.Consistent L) (p : c.Planned h L f fill)
    (k : c.Moving h L f m₃ f.moves x) (hi : i < L.count) :
    Ended c h L f fill i (x.heap.region i) := by
  by_cases htaken : ∃ m ∈ f.moves, m.Takes i
  · obtain ⟨m, hm, ht⟩ := htaken
    obtain ⟨hkind, hstart⟩ := (k.taken m hm).humongous ht
    exact .taken m hm ht hkind hstart
  · have hno : ∀ m ∈ f.moves, ¬m.Takes i := fun m hm ht => htaken ⟨m, hm, ht⟩
    by_cases hleft : ∃ m ∈ f.moves, m.Leaves i
    · have hb := k.left i hi hleft hno
      exact .empty (.inr (.inl hleft)) hb.kind (hb.top.trans (k.table.region i hi).bottom)
        fun _ => hb
    · have hleft : ∀ m ∈ f.moves, ¬m.Leaves i := fun m hm hl => hleft ⟨m, hm, hl⟩
      rw [k.stay i hi fun m hm => ⟨hleft m hm, hno m hm⟩]
      exact p.ended_slid w hi hleft

namespace Planned

variable (p : c.Planned h L f fill)

include p

theorem nodup_sent (w : h.Consistent L) :
    (f.lists.flatMap fun k => (fill k).map Prod.fst).Nodup := by
  rw [List.Nodup, List.pairwise_flatMap]
  refine ⟨fun k hk => List.pairwise_map.mpr ?_, p.nodup.imp_of_mem ?_⟩
  · refine (p.filled k hk).packed.apart.imp_of_mem fun {q r} hq hr hlt e => ?_
    have hplace := (p.destination_of w hk hq).1
    have hplace' := (p.destination_of w hk hr).1
    have hsize := w.size_ge (p.only k hk q hq).2.isObject
    rw [e] at hplace
    omega
  · -- an object has one place, which lies in one region
    intro k j hk hj hne o ho o' ho' e
    subst e
    obtain ⟨q, hq, rfl⟩ := List.mem_map.mp ho
    obtain ⟨r, hr, e⟩ := List.mem_map.mp ho'
    have hdest := p.destination_of w hk hq
    have hdest' := p.destination_of w hj hr
    rw [← hdest.1] at hdest
    rw [← hdest'.1, e] at hdest'
    exact hne (hdest.2.2.symm.trans hdest'.2.2)

theorem nodup_live (w : h.Consistent L) :
    (f.lists.flatMap (h.liveIn c.scope.clearSoft)).Nodup := by
  have hinside : ∀ k ∈ f.lists, k < L.count := fun k hk => ((p.mem k).mp hk).1
  rw [List.Nodup, List.pairwise_flatMap]
  refine ⟨fun k hk => (w.liveIn_sorted (hinside k hk)).imp Nat.ne_of_lt, p.nodup.imp_of_mem ?_⟩
  intro k j hk hj hne o ho o' ho' e
  subst e
  exact hne (w.liveIn_unique (hinside k hk) (hinside j hj) ho ho')

/-- The objects that go into the listed regions are those that are live in them. -/
theorem sent_perm (w : h.Consistent L) : (f.lists.flatMap fun k => (fill k).map Prod.fst).Perm
    (f.lists.flatMap (h.liveIn c.scope.clearSoft)) := by
  refine (List.perm_ext_iff_of_nodup (p.nodup_sent w) (p.nodup_live w)).mpr fun o => ?_
  simp only [List.mem_flatMap, List.mem_map]
  constructor
  · rintro ⟨k, hk, q, hq, rfl⟩
    obtain ⟨i, hi, hf, ho⟩ := (p.only k hk q hq).2
    exact ⟨i, (p.mem i).mpr ⟨w.regionCount ▸ hi, hf⟩, ho⟩
  · rintro ⟨i, hi, ho⟩
    obtain ⟨k, hk, q, -, hq⟩ := p.all o (p.slides_of w hi ho)
    exact ⟨k, hk, (o, q), hq, rfl⟩

theorem total_sent (w : h.Consistent L) :
    Word.total (f.lists.map fun k => Word.total ((fill k).map fun q => Object.size h.memory q.1)) =
      f.compactedLive := by
  have he := Word.total_perm ((p.sent_perm w).map (Object.size h.memory))
  rw [Word.total_flatMap, Word.total_flatMap] at he
  rw [p.compactedLive]
  simp only [List.map_map] at he
  exact he

theorem not_takes (hk : c.Keeps h f i) {m : HumongousMove} (hm : m ∈ f.moves) : ¬m.Takes i := by
  intro ht
  obtain ⟨before, after, hsplit⟩ := List.append_of_mem hm
  rcases p.moves.vacant before m after hsplit i ht with (hf | ⟨hl, -⟩) | hl | ⟨v, hv, hl⟩
  · exact hk.used hf
  · exact hk.unlisted hl
  · exact hk.stays m hm hl
  · exact hk.stays v (hsplit ▸ List.mem_append_left _ hv) hl

end Planned

namespace Ended

variable {r : Region} (e : Ended c h L f fill i r) (w : h.Consistent L) (p : c.Planned h L f fill)

include e w p

theorem used_of_listed (hi : i ∈ f.lists) (hb : r.bottom = L.bottom i)
    (hhum : r.kind.isHumongous = false) :
    r.used / 8 = Word.total ((fill i).map fun q => Object.size h.memory q.1) := by
  have hused : ∀ ws, r.top = L.bottom i + 8 * ws → r.used / 8 = ws := fun ws ht => by
    rw [Region.used, ht, hb]
    omega
  have hfate := ((p.mem i).mp hi).2
  cases e with
  | taken m _ _ hk _ =>
    rw [hk] at hhum
    contradiction
  | empty hwhy _ ht =>
    rcases hwhy with hf | ⟨m, hm, hleft⟩ | ⟨-, he⟩
    · rw [hfate] at hf
      contradiction
    · have hf := (w.fate_of_leaves c.scope.threshold p.moves hm hleft).2
      rw [hfate] at hf
      contradiction
    · rw [he]
      exact hused 0 ht
  | filled _ _ _ ht _ => exact hused _ (ht.trans (p.filled i hi).packed.end_eq)
  | kept keeps _ => exact absurd hi keeps.unlisted

omit w p in
theorem of_humongous (hhum : r.kind.isHumongous = true) :
    (∃ m ∈ f.moves, m.Takes i) ∨ c.Keeps h f i ∧ Kept (h.region i) r := by
  cases e with
  | taken m hm ht _ _ => exact .inl ⟨m, hm, ht⟩
  | empty _ hk _ =>
    rw [hk] at hhum
    contradiction
  | filled _ _ hk _ _ =>
    rw [hk] at hhum
    contradiction
  | kept keeps hkept => exact .inr ⟨keeps, hkept⟩

theorem fill_of_humongous (hi : i ∈ f.lists) (hhum : r.kind.isHumongous = true) :
    fill i = [] := by
  rcases e.of_humongous hhum with ⟨m, hm, ht⟩ | ⟨keeps, -⟩
  · exact p.fill_of_takes w hm hi ht
  · exact absurd hi keeps.unlisted

omit w p in
theorem of_free (hfree : r.kind.isFree = true) :
    (h.fate c.scope.clearSoft c.scope.threshold i = .free ∨ (∃ m ∈ f.moves, m.Leaves i) ∨
      i ∈ f.lists ∧ fill i = []) ∧ r.top = L.bottom i ∧
      (((h.region i).kind.isFree = true → (h.region i).Blank) → r.Blank) := by
  cases e with
  | empty hwhy _ ht hb => exact ⟨hwhy, ht, hb⟩
  | taken m _ _ hk _ =>
    rw [(RegionKind.not_of_humongous hk).1] at hfree
    contradiction
  | filled _ _ hk _ _ =>
    rw [hk] at hfree
    contradiction
  | kept keeps hkept => exact absurd (Heap.fate_of_free (hkept.kinds.2.1 ▸ hfree)) keeps.used

end Ended

namespace Moving

variable (k : c.Moving h L f m₃ f.moves x)

include k

theorem read_of_kept (w : h.Consistent L) (p : c.Planned h L f fill)
    (hk : c.Keeps h f i) (hfrom : L.bottom i ≤ a) (hto : a < L.bottom i + L.bytes) :
    x.memory.read a = m₃.read a := by
  refine k.memory.other a ?_
  rintro (⟨o, ho, hs⟩ | ⟨m, hm, hc⟩)
  · obtain ⟨j, hj, -, hbottom, hend⟩ := p.spot_of_slides w (ho.slides w p)
    have hr := Layout.regionOf_eq hfrom hto
    rw [Layout.regionOf_eq (i := j) (Nat.le_trans hbottom hs.1) (by have := hs.2; omega)] at hr
    exact hk.unlisted (hr ▸ hj)
  · exact p.not_takes hk hm (Layout.between hc.1 hc.2 hfrom hto)

theorem read_of_slides (w : h.Consistent L) (p : c.Planned h L f fill)
    (hs : h.Slides c.scope.clearSoft c.scope.threshold o) {n : Nat} (hn : 0 < n)
    (hlt : n < Object.size h.memory o) :
    x.memory.read (f.place o + 8 * n) = m₃.read (o + 8 * n) := by
  obtain ⟨i, hi, hf, ho⟩ := hs
  rw [w.regionCount] at hi
  refine k.memory.moved o (.inl ⟨(Heap.mem_liveIn.mp ho).2, ?_⟩) n hn hlt
  rw [(w.liveIn_inside hi ho).2.1]
  exact (p.mem i).mpr ⟨hi, hf⟩

theorem chain_of_kept (w : h.Consistent L) (p : c.Planned h L f fill)
    (ha : Adjusted h f.memory (h.Traced c.scope.clearSoft) m₃) (hi : i < L.count)
    (hord : (h.region i).kind.isOrdinary = true) (hk : c.Keeps h f i) :
    Object.Chain x.memory (L.bottom i) (h.objectsIn i) (h.region i).top := by
  refine (w.chain hi hord).congr fun o ho => Object.size_congr ?_
  have hobj := w.isObject hi ho
  obtain ⟨hfrom, hlimit, htop⟩ := w.within_of hi hord ho
  have hsize := w.size_ge hobj
  unfold Object.limit at hlimit
  rw [Object.klass, k.read_of_kept w p hk (by omega) (by omega),
    (ha.header w (fun _ => w.traced_isObject) hobj).2]
  exact p.read_of_not_object w (w.klass_not_object hobj)

theorem chain_of_filled (w : h.Consistent L) (p : c.Planned h L f fill)
    (ha : Adjusted h f.memory (h.Traced c.scope.clearSoft) m₃) (hi : i ∈ f.lists) :
    Object.Chain x.memory (L.bottom i) ((fill i).map Prod.snd) (Table.entry f.tops i) := by
  refine (p.filled i hi).packed.chain fun q hq => ?_
  have hs := (p.only i hi q hq).2
  have hsize := w.size_ge hs.isObject
  have hplace : q.2 = f.place q.1 := (p.destination_of w hi hq).1.symm
  refine ⟨congrArg (· % Object.sizeLimit) ?_, by omega⟩
  have hread := k.read_of_slides w p hs (n := 1) (by omega) (by omega)
  rw [hplace]
  refine hread.trans ((ha.header w (fun _ => w.traced_isObject) hs.isObject).2.trans ?_)
  exact p.read_of_not_object w (w.klass_not_object hs.isObject)

/-- Nothing is wrong with any region. -/
theorem regionFlaw_of (w : h.Consistent L) (p : c.Planned h L f fill)
    (ha : Adjusted h f.memory (h.Traced c.scope.clearSoft) m₃) (hi : i < L.count) {y : Collector}
    (hy : y.memory = x.memory) : y.regionFlaw (x.heap.region i) = .ok none := by
  have hl : (x.heap.region i).Laid L i := k.table.region i hi
  -- a region whose objects its block table knows
  have hsound : ∀ os, (x.heap.region i).kind.isFree = false →
      Object.Chain x.memory (L.bottom i) os (x.heap.region i).top →
      (x.heap.region i).blocks.Sound os (x.heap.region i).top →
      y.regionFlaw (x.heap.region i) = .ok none := by
    intro os hfree hc hs
    by_cases hhum : (x.heap.region i).kind.isHumongous = true
    · simp [regionFlaw, hfree, hhum]
    · have hb : (x.heap.region i).blocks.bottom = L.bottom i := hl.blocksBottom
      have hv := BlockTable.verify_of (BlockTable.Whole.of_laid hl) (hb ▸ hc) hs
      rw [regionFlaw, hy, hl.bottom, hc.walkEnd_eq]
      simp [hfree, hhum, hv]
  cases k.ended w p hi with
  | taken m _ _ hk _ =>
    simp [regionFlaw, (RegionKind.not_of_humongous hk).1, hk]
  | empty _ hk ht =>
    simp [regionFlaw, hk, RegionKind.isFree, Region.isEmpty, Region.used, ht, hl.bottom]
  | filled hlist _ hk ht hb =>
    refine hsound _ (by rw [hk]; rfl) (ht ▸ k.chain_of_filled w p ha hlist) ?_
    rw [hb, ht]
    exact (p.filled i hlist).sound
  | kept keeps hkept =>
    have hfree : (h.region i).kind.isFree = false := by
      cases hk : (h.region i).kind.isFree with
      | false => rfl
      | true => exact absurd (Heap.fate_of_free hk) keeps.used
    have hfree' : (x.heap.region i).kind.isFree = false := by
      rw [hkept.kind]
      split
      · rfl
      · exact hfree
    by_cases hhum : (h.region i).kind.isHumongous = true
    · have hhum' : (x.heap.region i).kind.isHumongous = true := by
        rw [hkept.kind, (RegionKind.not_of_humongous hhum).2.2.2]
        exact hhum
      simp [regionFlaw, hfree', hhum']
    · have hord : (h.region i).kind.isOrdinary = true := by
        simp [RegionKind.isOrdinary, hfree, hhum]
      refine hsound (h.objectsIn i) hfree' ?_ ?_
      · rw [hkept.top]
        exact k.chain_of_kept w p ha hi hord keeps
      · rw [hkept.blocks, hkept.top]
        exact w.blocks i hi hord

/-- The words in the regions that objects slid through are those that were live. -/
theorem compactedWords_of (w : h.Consistent L) (p : c.Planned h L f fill) {y : Collector}
    (hy : y.heap.table = x.heap.table) (hc : y.compacted = f.lists) :
    y.compactedWords = .ok f.compactedLive := by
  have hregions : f.lists.mapM y.region = .ok (f.lists.map x.heap.region) := by
    refine Checked.mapM_of fun i hi => ?_
    rw [region, hy]
    exact k.table.get_of ((p.mem i).mp hi).1
  rw [compactedWords, hc, Checked.bind_of hregions, ← p.total_sent w, List.filter_map,
    List.map_map]
  refine congrArg Except.ok (Word.total_filter (fun i hi hhum => ?_) fun i hi hhum => ?_) <;>
    have hil := ((p.mem i).mp hi).1
  · exact (k.ended w p hil).used_of_listed w p hi (k.table.region i hil).bottom
      (by simpa using hhum)
  · rw [(k.ended w p hil).fill_of_humongous w p hi (by simpa using hhum)]
    rfl

theorem rebuild_of (w : h.Consistent L) (p : c.Planned h L f fill) {y : Heap}
    (hy : y.table = x.heap.table) :
    y.rebuildFreeList = .ok { y with freeList :=
      ⟨(List.range L.count).filter fun i => (x.heap.region i).kind.isFree⟩ } := by
  have hlist : y.table.regions.toList.filter (fun r => r.kind.isFree) =
      ((List.range L.count).filter fun i => (x.heap.region i).kind.isFree).map x.heap.region := by
    have hsize : x.heap.table.regions.size = L.count := k.table.size
    rw [hy, Table.toList_eq_map, hsize, List.filter_map]
    rfl
  have hempty : ∀ i, i < L.count → (x.heap.region i).kind.isFree = true →
      (x.heap.region i).isEmpty = true := by
    intro i hi hfree
    have hb : (x.heap.region i).bottom = L.bottom i := (k.table.region i hi).bottom
    simp only [Region.isEmpty, Region.used, ((k.ended w p hi).of_free hfree).2.1, hb, Nat.sub_self,
      beq_self_eq_true]
  -- regions are appended in ascending order, none twice
  obtain ⟨l, hl, rfl⟩ := Checked.foldlM_split
    (f := fun (l : IndexList) i => do
      Fault.unless (x.heap.region i).isEmpty (.freeNotEmpty (x.heap.region i).figure)
      l.insertLast (x.heap.region i).index)
    (l := (List.range L.count).filter fun i => (x.heap.region i).kind.isFree)
    (fun done l => l = ⟨done⟩)
    (fun done i rest l hsplit hids => by
      have hmem : i ∈ (List.range L.count).filter fun i => (x.heap.region i).kind.isFree := by
        rw [hsplit]
        simp
      have hi := List.mem_range.mp (List.mem_filter.mp hmem).1
      have hnew : i ∉ done := by
        have hn := (List.nodup_range (n := L.count)).filter fun i =>
          (x.heap.region i).kind.isFree
        rw [hsplit] at hn
        exact fun hd => (List.pairwise_append.mp hn).2.2 i hd i (by simp) rfl
      have hindex : (x.heap.region i).index = i := (k.table.region i hi).index
      refine ⟨⟨done ++ [i]⟩, ?_, rfl⟩
      subst hids
      rw [Checked.unless_of (hempty i hi (List.mem_filter.mp hmem).2), Checked.ok_bind, hindex]
      exact IndexList.insertLast_of L.count_lt hi hnew) {} rfl
  rw [Heap.rebuildFreeList, hlist, List.foldlM_map, hl]
  rfl

theorem firstFlaw_of (w : h.Consistent L) (p : c.Planned h L f fill)
    (ha : Adjusted h f.memory (h.Traced c.scope.clearSoft) m₃) {y : Collector}
    (hy : y.memory = x.memory) {ks : List Nat} (hks : ∀ i ∈ ks, i < L.count) :
    y.firstFlaw (ks.map x.heap.region) = .ok none := by
  induction ks with
  | nil => rfl
  | cons i ks ih =>
    rw [List.map_cons, firstFlaw, k.regionFlaw_of w p ha (hks i (by simp)) hy, Checked.ok_bind]
    exact ih fun j hj => hks j (by simp [hj])

theorem verify_of (w : h.Consistent L) (p : c.Planned h L f fill)
    (ha : Adjusted h f.memory (h.Traced c.scope.clearSoft) m₃) {y : Collector}
    (ht : y.heap.table = x.heap.table) (hc : y.compacted = x.compacted)
    (hw : y.compactedLive = x.compactedLive) : y.verify = .ok none := by
  have hcompacted : x.compacted = f.lists := by
    rw [k.same]
    exact p.compacted
  have hlive : x.compactedLive = f.compactedLive := by
    rw [k.same]
    rfl
  have hsize : x.heap.table.regions.size = L.count := k.table.size
  have hlist : y.heap.table.regions.toList = (List.range L.count).map x.heap.region := by
    rw [ht, Table.toList_eq_map, hsize]
    rfl
  have hflaw : y.firstFlaw ((List.range L.count).map x.heap.region) = .ok none :=
    k.firstFlaw_of w p ha (congrArg RegionTable.memory ht) fun i hi => List.mem_range.mp hi
  rw [verify, hlist, hflaw, Checked.ok_bind]
  dsimp only
  rw [Checked.bind_of (k.compactedWords_of w p ht (hc.trans hcompacted)), hw, hlive]
  simp

/-- The last step passes. -/
theorem complete_of (w : h.Consistent L) (p : c.Planned h L f fill)
    (ha : Adjusted h f.memory (h.Traced c.scope.clearSoft) m₃) :
    ∃ l, x.complete = .ok { x with heap := { x.heap with
        liveness := l
        freeList := ⟨(List.range L.count).filter fun i => (x.heap.region i).kind.isFree⟩ } } ∧
      l.Laid L ∧ ∀ i, i < L.count → (l.sliceAt i).state.isMarked = false := by
  obtain ⟨l, hreset, hlaid, hclear⟩ := LivenessMap.resetAll_of k.liveness
  have hrebuild := k.rebuild_of w p (y := { x.heap with liveness := l }) rfl
  refine ⟨l, ?_, hlaid, hclear⟩
  have hv : Collector.verify { x with heap := { x.heap with
      liveness := l
      freeList := ⟨(List.range L.count).filter fun i => (x.heap.region i).kind.isFree⟩ } } =
      .ok none := k.verify_of w p ha rfl rfl rfl
  rw [complete, Collector.liveness, Checked.bind_of hreset]
  exact (Checked.bind_of hrebuild _).trans ((Checked.bind_of hv _).trans rfl)

end Moving

end RegionHeap.Collector
