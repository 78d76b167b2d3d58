import RegionHeap.Proofs.Copying

/-!
Compacting the regions that objects slide through. Region by region the live objects are copied and
the region gets the top that was planned.
-/
set_option autoImplicit false

namespace RegionHeap

namespace Region

/-- A region after objects were moved into it up to a top. -/
def compactedTo (r : Region) (top : Nat) : Region :=
  if top = r.bottom then { r with top := top }.clear
  else { r with top := top, marked := 0, kind := .old }

/-- A region that was left in place. -/
def leftInPlace (r : Region) : Region :=
  { r with marked := 0, kind := if r.kind.isYoung then .old else r.kind }

variable {r : Region} {L : Layout} {i top : Nat}

theorem Laid.compactedTo (l : r.Laid L i) (hb : L.bottom i ≤ top) (ht : top ≤ L.bottom i + L.bytes)
    (ha : top % 8 = 0) : (r.compactedTo top).Laid L i := by
  have l' : ({ r with top := top } : Region).Laid L i :=
    ⟨l.index, l.bottom, l.limit, l.blocksBottom, l.blocksLimit, l.blocks, hb, ht, ha⟩
  unfold Region.compactedTo
  split
  · exact l'.clear
  · exact ⟨l'.index, l'.bottom, l'.limit, l'.blocksBottom, l'.blocksLimit, l'.blocks, l'.bottom_le,
      l'.top_le, l'.aligned⟩

theorem resetCompacted_of (l : r.Laid L i) (hp : r.isPinned = false) (hb : L.bottom i ≤ top)
    (ht : top ≤ L.bottom i + L.bytes) : r.resetCompacted top = .ok (r.compactedTo top) := by
  have hin : (decide (r.bottom ≤ top) && decide (top ≤ r.limit)) = true := by
    rw [l.bottom, l.limit]
    simp [hb, ht]
  simp only [resetCompacted, setTop, hp, Bool.not_false, Checked.unless_true, Checked.ok_bind, hin,
    Checked.pure_eq, Region.compactedTo]
  split <;> rfl

theorem Laid.leftInPlace (l : r.Laid L i) : r.leftInPlace.Laid L i :=
  ⟨l.index, l.bottom, l.limit, l.blocksBottom, l.blocksLimit, l.blocks, l.bottom_le, l.top_le,
    l.aligned⟩

theorem resetInPlace_of (hk : r.kind.isFree = false) :
    r.resetInPlace = .ok r.leftInPlace := by
  simp only [resetInPlace, hk, Bool.not_false, Checked.unless_true, Checked.ok_bind,
    Checked.pure_eq]
  rfl

end Region

namespace Collector

/-- What compaction changes. -/
def withHeap (c : Collector) (t : RegionTable) (l : LivenessMap) : Collector :=
  { c with heap := { c.heap with table := t, liveness := l } }

theorem withHeap_of {d x : Collector} {t : RegionTable} {l : LivenessMap}
    (hx : x = d.withHeap t l) {z : Heap}
    (hz : z = { x.heap with table := z.table, liveness := z.liveness }) :
    ({ x with heap := z } : Collector) = d.withHeap z.table z.liveness := by
  rw [hz, hx]
  rfl

variable {c f : Collector} {h : Heap} {L : Layout} {fill : Nat → List (Nat × Nat)} {m₃ : Memory}
  {base : Nat → Region} {done : List Nat} {x : Collector} {i o a : Nat}

/-- The objects whose regions are done. -/
def Gone (c : Collector) (h : Heap) (L : Layout) (done : List Nat) (o : Nat) : Prop :=
  h.Traced c.scope.clearSoft o ∧ L.regionOf o ∈ done

theorem gone_append (w : h.Consistent L) (hi : i < L.count) :
    c.Gone h L (done ++ [i]) o ↔ c.Gone h L done o ∨ o ∈ h.liveIn c.scope.clearSoft i := by
  simp only [Gone, List.mem_append, List.mem_singleton]
  constructor
  · rintro ⟨ht, hm | rfl⟩
    · exact .inl ⟨ht, hm⟩
    · exact .inr (w.mem_liveIn_regionOf ht)
  · rintro (⟨ht, hm⟩ | hm)
    · exact ⟨ht, .inl hm⟩
    · exact ⟨(Heap.mem_liveIn.mp hm).2, .inr (w.liveIn_inside hi hm).2.1⟩

/-- These regions are compacted; the others are as some function tells. -/
structure Compacting (c : Collector) (h : Heap) (L : Layout) (f : Collector) (m₃ : Memory)
    (base : Nat → Region) (done : List Nat) (x : Collector) : Prop where
  same : x = (f.withAdjusted m₃).withHeap x.heap.table x.heap.liveness
  table : x.heap.table.Laid L
  liveness : x.heap.liveness.Laid L
  marks : ∀ b, L.IsWord b → (x.heap.liveness.marked L b = true ↔
    h.Traced c.scope.clearSoft b ∧ L.regionOf b ∉ done)
  region : ∀ i, i < L.count → x.heap.region i =
    if i ∈ done then (base i).compactedTo (Table.entry f.tops i) else base i
  memory : Copied h f.place m₃ (c.Gone h L done)
    (fun a => ∃ o, c.Gone h L done o ∧ h.Spot f.place o a) x.memory

theorem Planned.top_of (p : c.Planned h L f fill) (hi : i ∈ f.lists) :
    L.bottom i ≤ Table.entry f.tops i ∧ Table.entry f.tops i ≤ L.bottom i + L.bytes ∧
      Table.entry f.tops i % 8 = 0 := by
  have hf := p.filled i hi
  have := hf.packed.end_eq
  have := L.bottom_mod i
  exact ⟨hf.packed.le, hf.le, by omega⟩

theorem Planned.slidable_of (w : h.Consistent L) (p : c.Planned h L f fill) (hi : i ∈ f.lists)
    {r : Region} (hr : r.Alike (h.region i)) :
    r.isPinned = false ∧ r.kind.isHumongous = false := by
  obtain ⟨hil, hfate⟩ := (p.mem i).mp hi
  obtain ⟨hord, hpin, -, -⟩ := (w.fate_eq_compacting hil).mp hfate
  exact ⟨hr.isPinned.trans hpin, hr.kind ▸ (RegionKind.not_of_ordinary hord).2.1⟩

theorem Planned.reset_of (w : h.Consistent L) (p : c.Planned h L f fill) (hi : i ∈ f.lists)
    {z : Heap} {r : Region} (hz : z.table.Laid L) (hreg : z.region i = r)
    (hr : r.Alike (h.region i)) :
    z.updateRegion i (fun r => r.resetCompacted (Table.entry f.tops i)) = .ok { z with
      table := z.table.put i (r.compactedTo (Table.entry f.tops i)) } := by
  subst hreg
  have hil := ((p.mem i).mp hi).1
  obtain ⟨ht1, ht2, -⟩ := p.top_of hi
  exact Heap.updateRegion_of hz hil
    (Region.resetCompacted_of (hz.region i hil) (p.slidable_of w hi hr).1 ht1 ht2)

/-- An object that goes into a region of the lists does not go over one that is still to be
moved. -/
theorem Planned.clear_of (w : h.Consistent L) (p : c.Planned h L f fill) {q : Nat}
    (hi : i ∈ f.lists) (ho : o ∈ h.liveIn c.scope.clearSoft i)
    (hq : h.Slides c.scope.clearSoft c.scope.threshold q) (hlt : q < o ∨
      ∀ k ∈ f.lists, (q, f.place q) ∈ fill k → k ≠ i) :
    ∀ a, o ≤ a → a < o + 8 * Object.size h.memory o → ¬h.Spot f.place q a := by
  intro a hfrom hto ⟨hplace, hend⟩
  have hil := ((p.mem i).mp hi).1
  have hord := ((w.fate_eq_compacting hil).mp ((p.mem i).mp hi).2).1
  have hobj := (Heap.mem_liveIn.mp ho).1
  rcases hlt with hlt | hne
  · have hbefore := w.apart hq.isObject (w.isObject hil hobj) hlt
    have hdown := p.place_le w hq.isObject
    unfold Object.limit at hbefore
    omega
  · obtain ⟨k, hk, hqk, hbefore, hdown⟩ := p.spot_of_slides w hq
    obtain ⟨hin, hlimit, htop⟩ := w.within_of hil hord hobj
    unfold Object.limit at hlimit
    have := hne k hk hqk
    by_cases hki : k < i
    · have := Layout.bottom_add_le (L := L) hki
      omega
    · have := Layout.bottom_add_le (L := L) (show i < k by omega)
      omega

/-- The objects that slide have the headers of the plan. -/
def Headed (f : Collector) (h : Heap) (s : Scope) (m : Memory) : Prop :=
  ∀ o, h.Slides s.clearSoft s.threshold o →
    m.read o = f.memory.read o ∧ m.read (o + 8) = f.memory.read (o + 8)

theorem headed_of_adjusted (w : h.Consistent L)
    (ha : Adjusted h f.memory (h.Traced c.scope.clearSoft) m₃) : f.Headed h c.scope m₃ :=
  fun _ ho => ha.header w (fun _ => w.traced_isObject) ho.isObject

/-- These objects are copied, and of all live objects only the others are still marked. -/
structure Slipped (c : Collector) (h : Heap) (L : Layout) (f : Collector) (m₃ : Memory)
    (G : Nat → Prop) (x : Heap) : Prop where
  marks : ∀ b, L.IsWord b → (x.liveness.marked L b = true ↔ h.Traced c.scope.clearSoft b ∧ ¬G b)
  memory : Copied h f.place m₃ G (fun a => ∃ o, G o ∧ h.Spot f.place o a) x.memory

theorem Slipped.congr {G G' : Nat → Prop} {x : Heap} (k : c.Slipped h L f m₃ G x)
    (hG : ∀ o, G' o ↔ G o) : c.Slipped h L f m₃ G' x := by
  obtain rfl : G' = G := funext fun o => propext (hG o)
  exact k

theorem Slipped.marks_outside {x : Heap} (k : c.Slipped h L f m₃ (c.Gone h L done) x) :
    ∀ b, L.IsWord b → (x.liveness.marked L b = true ↔
      h.Traced c.scope.clearSoft b ∧ L.regionOf b ∉ done) := fun b hb => by
  rw [k.marks b hb]
  exact and_congr_right fun ht => not_congr ⟨And.right, fun hm => ⟨ht, hm⟩⟩

theorem Slipped.step (w : h.Consistent L) (p : c.Planned h L f fill) (ha : f.Headed h c.scope m₃)
    {G : Nat → Prop} {x : Heap} (hx : x.Laid L) (hi : i ∈ f.lists)
    (ho : o ∈ h.liveIn c.scope.clearSoft i)
    (hG : ∀ q, G q → h.Slides c.scope.clearSoft c.scope.threshold q ∧ q ≠ o ∧
      (q < o ∨ ∀ k ∈ f.lists, (q, f.place q) ∈ fill k → k ≠ i))
    (k : c.Slipped h L f m₃ G x) :
    ∃ l m, moveObject x o = .ok (Object.size h.memory o, { x.setMemory m with liveness := l }) ∧
      l.Laid L ∧
      c.Slipped h L f m₃ (fun q => G q ∨ q = o) { x.setMemory m with liveness := l } := by
  have hil := ((p.mem i).mp hi).1
  have hisobj := w.isObject hil (Heap.mem_liveIn.mp ho).1
  have hslides := p.slides_of w hi ho
  have hheader := ha o hslides
  have hpos : 0 < f.place o := by
    obtain ⟨n, -, -, hb, -⟩ := p.spot_of_slides w hslides
    have := L.bottom_pos n
    omega
  obtain ⟨l, m, hmove, hlaid, hmarks, hcopied⟩ := moveObject_of hx (w.liveIn_inside hil ho).1
    k.memory
    (fun q hq => by
      have := w.size_ge (hG q hq).1.isObject
      omega) (w.size_ge hisobj)
    (fun a hfrom hto ⟨q, hq, hs⟩ => p.clear_of w hi ho (hG q hq).1 (hG q hq).2.2 a hfrom hto hs)
    (fun q hq a hfrom hto => by
      have := p.spots_apart w (hG q hq).1 hslides (hG q hq).2.1
      unfold Heap.Spot at hfrom hto
      omega)
    (p.place_le w hisobj) hpos (hheader.1.trans (p.header_of w hisobj))
    (hheader.2.trans (p.read_of_not_object w (w.klass_not_object hisobj)))
  refine ⟨l, m, hmove, hlaid, fun b hb => ?_, hcopied.congr (fun _ h' => h') ?_⟩
  · show l.marked L b = true ↔ _
    rw [hmarks b hb, Bool.and_eq_true, k.marks b hb, Bool.not_eq_true', decide_eq_false_iff_not,
      not_or]
    tauto
  · rintro a (⟨q, hq, hs⟩ | hs)
    · exact ⟨q, .inl hq, hs⟩
    · exact ⟨o, .inr rfl, hs⟩

/-- In the middle of a region: its first live objects are copied. -/
structure Copying (c : Collector) (h : Heap) (L : Layout) (f : Collector) (m₃ : Memory)
    (done seen : List Nat) (y z : Heap) : Prop
    extends c.Slipped h L f m₃ (fun o => c.Gone h L done o ∨ o ∈ seen) z where
  same : z = { y.setMemory z.memory with liveness := z.liveness }
  liveness : z.liveness.Laid L

/-- What is live in a region that spares another one slides, and lies before what is live there or
goes elsewhere. -/
theorem Spares.slid_of {j q : Nat} (hs : c.Spares h f fill j i) (w : h.Consistent L)
    (p : c.Planned h L f fill) (hj : j ∈ f.lists) (hi : i ∈ f.lists) (hne : j ≠ i)
    (hq : q ∈ h.liveIn c.scope.clearSoft j) (ho : o ∈ h.liveIn c.scope.clearSoft i) :
    h.Slides c.scope.clearSoft c.scope.threshold q ∧ q ≠ o ∧
      (q < o ∨ ∀ k ∈ f.lists, (q, f.place q) ∈ fill k → k ≠ i) := by
  have hjl := ((p.mem j).mp hj).1
  have hil := ((p.mem i).mp hi).1
  have hrq : L.regionOf q = j := (w.liveIn_inside hjl hq).2.1
  have hro : L.regionOf o = i := (w.liveIn_inside hil ho).2.1
  refine ⟨p.slides_of w hj hq, fun e => hne (by rw [← hrq, ← hro, e]), ?_⟩
  by_cases hlt : j < i
  · refine .inl (Nat.lt_of_not_le fun hle => ?_)
    have := Layout.regionOf_mono (L := L) hle
    omega
  · exact .inr fun k hk hqk => (hs q hq k hk hqk).resolve_right hlt

theorem Planned.slid_of_mem (w : h.Consistent L) (p : c.Planned h L f fill) {seen left : List Nat}
    {q : Nat} (hi : i ∈ f.lists) (hsplit : h.liveIn c.scope.clearSoft i = seen ++ o :: left)
    (hq : q ∈ seen) : h.Slides c.scope.clearSoft c.scope.threshold q ∧ q < o := by
  have hsorted : (h.liveIn c.scope.clearSoft i).Pairwise (· < ·) :=
    w.liveIn_sorted ((p.mem i).mp hi).1
  rw [hsplit, List.pairwise_append] at hsorted
  exact ⟨p.slides_of w hi (by rw [hsplit]; simp [hq]), hsorted.2.2 q hq o (by simp)⟩

/-- A listed region that is spared by those that are done. -/
structure Next (c : Collector) (h : Heap) (f : Collector) (fill : Nat → List (Nat × Nat))
    (done : List Nat) (i : Nat) : Prop where
  listed : i ∈ f.lists
  new : i ∉ done
  known : ∀ j ∈ done, j ∈ f.lists
  spared : ∀ j ∈ done, c.Spares h f fill j i

theorem Planned.next_of (p : c.Planned h L f fill) {rest : List Nat}
    (hsplit : f.lists = done ++ i :: rest) : c.Next h f fill done i := by
  have horder := p.order
  have hnodup := p.nodup
  rw [hsplit, List.nodup_append] at hnodup
  refine ⟨by simp [hsplit], fun hm => hnodup.2.2 i hm i (by simp) rfl, fun j hj => by
    simp [hsplit, hj], fun j hj => ?_⟩
  generalize f.lists = ls at horder hsplit
  rw [hsplit, List.pairwise_append] at horder
  exact horder.2.2 j hj i (by simp)

theorem Next.slid_of (n : c.Next h f fill done i) (w : h.Consistent L) (p : c.Planned h L f fill)
    {seen left : List Nat} {q : Nat} (hsplit : h.liveIn c.scope.clearSoft i = seen ++ o :: left)
    (hq : c.Gone h L done q ∨ q ∈ seen) :
    h.Slides c.scope.clearSoft c.scope.threshold q ∧ q ≠ o ∧
      (q < o ∨ ∀ k ∈ f.lists, (q, f.place q) ∈ fill k → k ≠ i) := by
  rcases hq with ⟨ht, hd⟩ | hq
  · exact (n.spared _ hd).slid_of w p (n.known _ hd) n.listed (fun e => n.new (e ▸ hd))
      (w.mem_liveIn_regionOf ht) (by rw [hsplit]; simp)
  · obtain ⟨hs, hlt⟩ := p.slid_of_mem w n.listed hsplit hq
    exact ⟨hs, Nat.ne_of_lt hlt, .inl hlt⟩

theorem Copying.step (w : h.Consistent L) (p : c.Planned h L f fill) (ha : f.Headed h c.scope m₃)
    {seen left : List Nat} {y z : Heap} (hy : y.Laid L) (n : c.Next h f fill done i)
    (hsplit : h.liveIn c.scope.clearSoft i = seen ++ o :: left)
    (k : Copying c h L f m₃ done seen y z) :
    ∃ z', moveObject z o = .ok (Object.size h.memory o, z') ∧
      Copying c h L f m₃ done (seen ++ [o]) y z' := by
  have hz : z.Laid L := by
    rw [k.same]
    exact ⟨hy.start, hy.bytes, hy.table.withMemory _, k.liveness⟩
  obtain ⟨l, m, hmove, hlaid, k'⟩ := k.toSlipped.step w p ha hz n.listed (by rw [hsplit]; simp)
    fun q hq => n.slid_of w p hsplit hq
  refine ⟨_, hmove, k'.congr fun q => ?_, by rw [k.same]; rfl, hlaid⟩
  simp only [List.mem_append, List.mem_singleton, or_assoc]

theorem Compacting.slipped (k : c.Compacting h L f m₃ base done x) :
    c.Slipped h L f m₃ (c.Gone h L done) x.heap := by
  refine ⟨fun b hb => (k.marks b hb).trans ?_, k.memory⟩
  exact and_congr_right fun ht => not_congr ⟨fun hm => ⟨ht, hm⟩, And.right⟩

theorem Compacting.copying (k : c.Compacting h L f m₃ base done x) :
    Copying c h L f m₃ done [] x.heap x.heap :=
  ⟨k.slipped.congr fun _ => by simp, rfl, k.liveness⟩

theorem Compacting.laid (p : c.Planned h L f fill) (k : c.Compacting h L f m₃ base done x) :
    x.heap.Laid L := by
  rw [k.same]
  exact ⟨p.ready.heap.start, p.ready.heap.bytes, k.table, k.liveness⟩

/-- What a walk has passed is copied, and what lies ahead of it is still marked. -/
theorem Compacting.walkInvariant (w : h.Consistent L) (p : c.Planned h L f fill)
    (ha : f.Headed h c.scope m₃) (n : c.Next h f fill done i)
    (hbase : (base i).Alike (h.region i)) (k : c.Compacting h L f m₃ base done x) :
    LivenessMap.WalkInvariant Heap.liveness moveObject L i (base i).top (Object.size h.memory)
      (h.liveIn c.scope.clearSoft i) fun left z =>
        ∃ seen, h.liveIn c.scope.clearSoft i = seen ++ left ∧
          Copying c h L f m₃ done seen x.heap z where
  inside o ho := hbase.top ▸ w.liveIn_inside ((p.mem i).mp n.listed).1 ho
  laid := by
    rintro left z ⟨seen, hs, kz⟩
    exact kz.liveness
  only := by
    rintro left z ⟨seen, hs, kz⟩ a hword hr hm
    exact hr ▸ w.mem_liveIn_regionOf ((kz.marks a hword).mp hm).1
  all := by
    rintro left z ⟨seen, hs, kz⟩ a hleft
    have hil := ((p.mem i).mp n.listed).1
    have hnodup : (h.liveIn c.scope.clearSoft i).Nodup := (w.liveIn_sorted hil).imp Nat.ne_of_lt
    have hlive : a ∈ h.liveIn c.scope.clearSoft i := hs ▸ List.mem_append_right _ hleft
    obtain ⟨hword, hr, -⟩ := w.liveIn_inside hil hlive
    refine (kz.marks a hword).mpr ⟨(Heap.mem_liveIn.mp hlive).2, ?_⟩
    rintro (hgone | hseen)
    · exact n.new (hr ▸ hgone.2)
    · rw [hs, List.nodup_append] at hnodup
      exact hnodup.2.2 a hseen a hleft rfl
  step := by
    rintro o left z ⟨seen, hs, kz⟩
    obtain ⟨z', hz, kz'⟩ := kz.step w p ha (k.laid p) n hs
    exact ⟨z', hz, seen ++ [o], by simp [hs], kz'⟩

/-- All live objects of a region are copied. -/
theorem copyRegion_of (w : h.Consistent L) (p : c.Planned h L f fill)
    (ha : f.Headed h c.scope m₃) (n : c.Next h f fill done i)
    (hbase : (base i).Alike (h.region i)) (k : c.Compacting h L f m₃ base done x) :
    ∃ z, LivenessMap.walk Heap.liveness moveObject i (base i).top x.heap = .ok z ∧
      Copying c h L f m₃ done (h.liveIn c.scope.clearSoft i) x.heap z := by
  have hil := ((p.mem i).mp n.listed).1
  have hl : (base i).Laid L i := by
    have := k.table.region i hil
    rwa [show x.heap.table.region i = base i from (k.region i hil).trans (if_neg n.new)] at this
  obtain ⟨z, hwalk, seen, hseen, kz⟩ :=
    LivenessMap.walk_of (k.walkInvariant w p ha n hbase) hil hl.top_le
      hl.aligned (w.liveIn_apart hil) ⟨[], rfl, k.copying⟩
  rw [List.append_nil] at hseen
  exact ⟨z, hwalk, hseen ▸ kz⟩

theorem Copying.compacting (w : h.Consistent L) (p : c.Planned h L f fill) (hi : i ∈ f.lists)
    (k : c.Compacting h L f m₃ base done x) {z : Heap}
    (kz : Copying c h L f m₃ done (h.liveIn c.scope.clearSoft i) x.heap z)
    (hz : z.table.Laid L) (hzregion : ∀ j, z.table.region j = x.heap.region j)
    (hl : (base i).Laid L i) :
    c.Compacting h L f m₃ base (done ++ [i]) { x with heap := { z with
      table := z.table.put i ((base i).compactedTo (Table.entry f.tops i)) } } := by
  have hil := ((p.mem i).mp hi).1
  obtain ⟨ht1, ht2, ht3⟩ := p.top_of hi
  have kz' := kz.toSlipped.congr fun _ => gone_append w hil
  refine ⟨?_, hz.put hil (hl.compactedTo ht1 ht2 ht3), kz.liveness, kz'.marks_outside,
    fun j hj => ?_, kz'.memory⟩
  · refine withHeap_of k.same ?_
    rw [kz.same]
    rfl
  · show (z.table.put i _).region j = _
    rw [hz.region_put_of hil, hzregion]
    simp only [List.mem_append, List.mem_singleton]
    by_cases e : i = j
    · subst e
      rw [if_pos rfl, if_pos (.inr rfl)]
    · rw [if_neg e, k.region j hj]
      simp only [Ne.symm e, or_false]

/-- One more region is compacted. -/
theorem compactRegion_of (w : h.Consistent L) (p : c.Planned h L f fill)
    (ha : f.Headed h c.scope m₃) (n : c.Next h f fill done i)
    (hbase : (base i).Alike (h.region i)) (k : c.Compacting h L f m₃ base done x) :
    ∃ x', compactRegion x i = .ok x' ∧ c.Compacting h L f m₃ base (done ++ [i]) x' := by
  have hil := ((p.mem i).mp n.listed).1
  have hreg : x.heap.region i = base i := by rw [k.region i hil, if_neg n.new]
  have hl : (base i).Laid L i := hreg ▸ k.table.region i hil
  have hget : x.region i = .ok (base i) := hreg ▸ k.table.get_of hil
  obtain ⟨hpinned, hhum⟩ := p.slidable_of w n.listed hbase
  obtain ⟨z, hwalk, kz⟩ := copyRegion_of w p ha n hbase k
  have hztable : z.table = { x.heap.table with memory := z.memory } :=
    congrArg (fun z : Heap => z.table) kz.same
  have hzlaid : z.table.Laid L := hztable ▸ k.table.withMemory _
  have hzregion : ∀ j, z.table.region j = x.heap.region j := fun j => by
    rw [hztable]
    rfl
  have hupdate := p.reset_of w n.listed hzlaid ((hzregion i).trans hreg) hbase
  have htops : Table.get x.tops i = .ok (Table.entry f.tops i) := by
    rw [k.same]
    exact Table.get_of_lt (p.ready.tops ▸ hil)
  refine ⟨_, ?_, kz.compacting w p n.listed k hzlaid hzregion hl⟩
  rw [compactRegion, Checked.bind_of hget]
  simp only [hpinned, hhum, Bool.not_false, Checked.unless_true, Checked.ok_bind]
  rw [Checked.bind_of hwalk, Checked.bind_of htops, Checked.bind_of hupdate]
  rfl

theorem Compacting.step (w : h.Consistent L) (p : c.Planned h L f fill)
    (ha : f.Headed h c.scope m₃)
    (hbase : ∀ i ∈ f.lists, (base i).Alike (h.region i)) {rest : List Nat}
    (hsplit : f.lists = done ++ i :: rest) (k : c.Compacting h L f m₃ base done x) :
    ∃ x', compactRegion x i = .ok x' ∧ c.Compacting h L f m₃ base (done ++ [i]) x' := by
  have n := p.next_of hsplit
  exact compactRegion_of w p ha n (hbase i n.listed) k

theorem compactRegions_of (w : h.Consistent L) (p : c.Planned h L f fill)
    (ha : f.Headed h c.scope m₃)
    (hbase : ∀ i ∈ f.lists, (base i).Alike (h.region i)) {part rest : List Nat}
    (hsplit : f.lists = done ++ (part ++ rest)) (k : c.Compacting h L f m₃ base done x) :
    ∃ x', part.foldlM compactRegion x = .ok x' ∧
      c.Compacting h L f m₃ base (done ++ part) x' := by
  refine Checked.foldlM_split (fun done' x => c.Compacting h L f m₃ base (done ++ done') x)
    (fun done' i rest' x hpart kx => ?_) x (by simpa using k)
  have hlists : f.lists = (done ++ done') ++ i :: (rest' ++ rest) := by
    rw [hsplit, hpart]
    simp
  obtain ⟨x', hx, kx'⟩ := kx.step w p ha hbase hlists
  exact ⟨x', hx, by rwa [List.append_assoc] at kx'⟩

/-- The regions of the workers below an index. -/
def listed (f : Collector) (n : Nat) : List Nat :=
  (List.range n).flatMap fun k => (Table.entry f.points k).regions

theorem listed_succ (f : Collector) (n : Nat) :
    f.listed (n + 1) = f.listed n ++ (Table.entry f.points n).regions := by
  simp [listed, List.range_succ]

theorem Placed.lists_eq (p : c.Placed h L f fill) :
    f.lists = f.listed c.workers ++ f.serial.regions := by
  rw [lists, Table.toList_eq_map, List.flatMap_map, p.size, listed]

theorem Placed.lists_serial (p : c.Placed h L f fill) :
    f.lists = f.listed c.workers ++ (f.serial.regions ++ []) := by
  rw [List.append_nil, p.lists_eq]

theorem listed_append (f : Collector) {k n : Nat} (hk : k ≤ n) :
    ∃ rest, f.listed n = f.listed k ++ rest := by
  obtain ⟨r, rfl⟩ := Nat.exists_eq_add_of_le hk
  exact ⟨_, by rw [listed, List.range_add, List.flatMap_append]; rfl⟩

theorem Planned.ready_adjusted (p : c.Planned h L f fill) (m₃ : Memory) :
    (f.withAdjusted m₃).Ready L :=
  have r := p.ready
  ⟨⟨r.heap.start, r.heap.bytes, r.heap.table.withMemory m₃, r.heap.liveness⟩, r.attrs, r.live,
    r.tops, r.points, r.workers, r.gang⟩

theorem Planned.alike_listed (p : c.Planned h L f fill) (hi : i ∈ f.lists) :
    (f.heap.region i).Alike (h.region i) := by
  obtain ⟨hil, hf⟩ := (p.mem i).mp hi
  have := p.region i hil
  rwa [Heap.sorted_eq (by rw [hf]; simp)] at this

theorem Planned.compacting (p : c.Planned h L f fill) (m₃ : Memory) :
    c.Compacting h L f m₃ f.heap.region (f.listed 0) (f.withAdjusted m₃) := by
  have r := p.ready_adjusted m₃
  refine ⟨rfl, r.heap.table, r.heap.liveness, fun b hb => ?_, fun i hi => ?_, ?_⟩
  · rw [show (f.withAdjusted m₃).heap.liveness.marked L b = true ↔ _ from p.exact b hb]
    simp [listed]
  · rw [if_neg (by simp [listed])]
    rfl
  · exact (Copied.nil h f.place m₃).congr (fun o ho => by simp [Gone, listed] at ho)
      fun a ha => ha.elim

theorem Planned.lists_split (p : c.Planned h L f fill) {n : Nat} (hn : n < f.workers) :
    ∃ rest, f.lists = f.listed n ++ ((Table.entry f.points n).regions ++ rest) := by
  obtain ⟨rest, hrest⟩ := listed_append f (show n + 1 ≤ c.workers from p.workers ▸ hn)
  refine ⟨rest ++ f.serial.regions, ?_⟩
  rw [p.lists_eq, hrest, listed_succ]
  simp

theorem Compacting.point (p : c.Planned h L f fill) (k : c.Compacting h L f m₃ base done x)
    {n : Nat} (hn : n < f.workers) : Table.get x.points n = .ok (Table.entry f.points n) := by
  rw [k.same]
  exact p.ready.point_of hn

theorem compactWorker_of (w : h.Consistent L) (p : c.Planned h L f fill)
    (ha : f.Headed h c.scope m₃) {n : Nat} (hn : n < f.workers)
    (k : c.Compacting h L f m₃ f.heap.region (f.listed n) x) :
    ∃ x', compactWorker n x = .ok x' ∧
      c.Compacting h L f m₃ f.heap.region (f.listed (n + 1)) x' := by
  obtain ⟨rest, hsplit⟩ := p.lists_split hn
  obtain ⟨x', hx, k'⟩ := compactRegions_of w p ha (fun i hi => p.alike_listed hi) hsplit k
  refine ⟨x', ?_, by rwa [listed_succ]⟩
  rw [compactWorker, Checked.bind_of (k.point p hn)]
  exact hx

theorem compactWorkers_of (w : h.Consistent L) (p : c.Planned h L f fill)
    (ha : f.Headed h c.scope m₃) :
    ∃ x, (f.withAdjusted m₃).run .compact compactWorker = .ok x ∧
      c.Compacting h L f m₃ f.heap.region (f.listed c.workers) x := by
  obtain ⟨x, hx, kx⟩ := (p.ready_adjusted m₃).run_of .compact compactWorker
    (fun n x => c.Compacting h L f m₃ f.heap.region (f.listed n) x)
    (fun n x hn kx => compactWorker_of w p ha hn kx) (p.compacting m₃)
  exact ⟨x, hx, p.workers ▸ kx⟩

theorem Planned.stays (p : c.Planned h L f fill) (hi : i < L.count)
    (ha : f.attrs.attr i = .skipCompacting) :
    h.fate c.scope.clearSoft c.scope.threshold i = .skipCompacting ∧
      (f.heap.region i).Alike (h.region i) ∧ (h.region i).kind.isFree = false := by
  have hf : h.fate c.scope.clearSoft c.scope.threshold i = .skipCompacting := by
    rw [← p.stay i hi fun m hm hk => ?_, ha]
    rw [p.left m hm i hk] at ha
    contradiction
  have halike := p.region i hi
  rw [Heap.sorted_eq (by rw [hf]; simp)] at halike
  refine ⟨hf, halike, ?_⟩
  cases hk : (h.region i).kind.isFree with
  | false => rfl
  | true =>
    rw [Heap.fate_of_free hk] at hf
    contradiction

/-- The regions once what stays is reset. -/
def inPlace (f : Collector) (i : Nat) : Region :=
  if f.attrs.attr i = .skipCompacting then (f.heap.region i).leftInPlace else f.heap.region i

theorem Planned.inPlace_alike (p : c.Planned h L f fill) (hi : i ∈ f.lists) :
    (f.inPlace i).Alike (h.region i) := by
  obtain ⟨hil, hf⟩ := (p.mem i).mp hi
  rw [inPlace, if_neg fun ha => ?_]
  · exact p.alike_listed hi
  · rw [(p.stays hil ha).1] at hf
    contradiction

theorem resetInPlace_step (p : c.Planned h L f fill) (hdone : ∀ j ∈ done, j ∈ f.lists)
    (hi : i < L.count) (k : c.Compacting h L f m₃
      (fun j => if j < i then f.inPlace j else f.heap.region j) done x) :
    ∃ x', (do
        if (← x.attrs.get i) != RegionAttr.skipCompacting then return x
        return { x with heap := ← x.heap.updateRegion i Region.resetInPlace }) = .ok x' ∧
      c.Compacting h L f m₃ (fun j => if j < i + 1 then f.inPlace j else f.heap.region j) done
        x' := by
  have hattr : x.attrs.get i = .ok (f.attrs.attr i) := by
    rw [k.same]
    exact p.ready.attr_of hi
  -- the other regions are what they were
  have hother : ∀ j, i ≠ j → (if j < i then f.inPlace j else f.heap.region j) =
      if j < i + 1 then f.inPlace j else f.heap.region j := fun j hne => by
    simp only [show j < i + 1 ↔ j < i by omega]
  by_cases ha : f.attrs.attr i = .skipCompacting
  · obtain ⟨hf, halike, hfree⟩ := p.stays hi ha
    -- what is left in place was not slid through
    have hnot : i ∉ done := fun hm => by
      rw [((p.mem i).mp (hdone i hm)).2] at hf
      contradiction
    have hreg : x.heap.region i = f.heap.region i := by
      rw [k.region i hi, if_neg hnot, if_neg (Nat.lt_irrefl i)]
    have hreset : (x.heap.region i).resetInPlace = .ok (f.heap.region i).leftInPlace := by
      rw [hreg]
      exact Region.resetInPlace_of (halike.kind ▸ hfree)
    have hupdate := Heap.updateRegion_of k.table hi hreset
    refine ⟨{ x with heap := { x.heap with
        table := x.heap.table.put i (f.heap.region i).leftInPlace } }, ?_, withHeap_of k.same rfl,
      k.table.put hi (p.ready.heap.table.region i hi).leftInPlace, k.liveness, k.marks,
      fun j hj => ?_, k.memory⟩
    · rw [Checked.bind_of hattr, ha]
      simp only [bne_self_eq_false, Bool.false_eq_true, if_false]
      rw [Checked.bind_of hupdate]
      rfl
    · show (x.heap.table.put i _).region j = _
      rw [k.table.region_put_of hi]
      by_cases e : i = j
      · subst e
        rw [if_pos rfl, if_neg hnot, if_pos (Nat.lt_succ_self i), inPlace, if_pos ha]
      · rw [if_neg e, ← hother j e]
        exact k.region j hj
  · refine ⟨x, ?_, k.same, k.table, k.liveness, k.marks, fun j hj => ?_, k.memory⟩
    · rw [Checked.bind_of hattr]
      simp [ha]
    · rw [k.region j hj]
      by_cases e : i = j
      · subst e
        rw [if_neg (Nat.lt_irrefl i), if_pos (Nat.lt_succ_self i), inPlace, if_neg ha]
      · rw [hother j e]

theorem resetInPlace_of (p : c.Planned h L f fill)
    (k : c.Compacting h L f m₃ f.heap.region done x) (hdone : ∀ j ∈ done, j ∈ f.lists) :
    ∃ x', resetInPlace x = .ok x' ∧ c.Compacting h L f m₃ f.inPlace done x' := by
  have hx : x.heap.table.indices = List.range L.count := by
    rw [RegionTable.indices, k.table.size]
  obtain ⟨x', hx', kx'⟩ := Checked.foldlM_range_of
    (fun n x => c.Compacting h L f m₃ (fun i => if i < n then f.inPlace i else f.heap.region i)
      done x)
    (fun i x hi k => resetInPlace_step p hdone hi k)
    x ⟨k.same, k.table, k.liveness, k.marks, by simpa using k.region, k.memory⟩
  refine ⟨x', by rw [resetInPlace, hx]; exact hx', kx'.same, kx'.table, kx'.liveness, kx'.marks,
    fun i hi => ?_, kx'.memory⟩
  rw [kx'.region i hi, if_pos hi]

/-- All objects slide to their places. -/
theorem slideAll_of (w : h.Consistent L) (p : c.Planned h L f fill)
    (ha : f.Headed h c.scope m₃) :
    ∃ x, (do
      let x ← (f.withAdjusted m₃).run .compact compactWorker
      let x ← x.resetInPlace
      x.serial.regions.foldlM compactRegion x : Checked Collector) = .ok x ∧
      c.Compacting h L f m₃ f.inPlace f.lists x := by
  obtain ⟨x₁, h₁, k₁⟩ := compactWorkers_of w p ha
  obtain ⟨x₂, h₂, k₂⟩ := resetInPlace_of p k₁ fun j hj => by
    rw [p.lists_eq]
    exact List.mem_append_left _ hj
  obtain ⟨x, h₃, k₃⟩ := compactRegions_of w p ha (fun i hi => p.inPlace_alike hi)
    p.lists_serial k₂
  refine ⟨x, ?_, by rwa [← p.lists_eq] at k₃⟩
  have hserial : x₂.serial = f.serial := by
    rw [k₂.same]
    rfl
  rw [Checked.bind_of h₁, Checked.bind_of h₂, hserial]
  exact h₃

end Collector

end RegionHeap
