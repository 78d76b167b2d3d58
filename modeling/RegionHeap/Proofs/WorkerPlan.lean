import RegionHeap.Proofs.Sliding

/-!
The plans of the workers. Each worker forwards the live objects of its own regions into them; no
two workers share a region, so that their plans stand side by side.
-/
set_option autoImplicit false

namespace RegionHeap

/-- The second region holds nothing, or its first object did not fit into the first one. -/
def Snug (size : Nat → Nat) (L : Layout) (fill : Nat → List (Nat × Nat)) (j k : Nat) : Prop :=
  fill k = [] ∨ CompactionPoint.Follows size L fill j k

theorem Snug.congr {size : Nat → Nat} {L : Layout} {fill fill' : Nat → List (Nat × Nat)}
    {j k : Nat} (f : Snug size L fill j k) (hj : fill' j = fill j) (hk : fill' k = fill k) :
    Snug size L fill' j k := by
  rwa [Snug, CompactionPoint.Follows, hj, hk]

/-- The regions of a point with what goes into them: exactly the live objects of these regions in
their order, each to a place at or below its own. -/
structure Slid (h : Heap) (L : Layout) (clearSoft : Bool) (rs : List Nat)
    (fill : Nat → List (Nat × Nat)) (p : CompactionPoint) (s : Plan) : Prop where
  regions : p.regions = rs
  current : rs = [] ∧ p.current = none ∨ ∃ before cur after, rs = before ++ cur :: after ∧
    p.current = some before.length ∧ ∀ k ∈ after, fill k = []
  filled : ∀ k ∈ rs, Filled (Object.size h.memory) L s k (fill k) (Table.entry s.tops k)
  only : ∀ k ∈ rs, ∀ q ∈ fill k, q.2 ≤ q.1 ∧ ∃ i ∈ rs, q.1 ∈ h.liveIn clearSoft i
  all : ∀ i ∈ rs, ∀ o ∈ h.liveIn clearSoft i, ∃ k ∈ rs, ∃ q, q ≤ o ∧ (o, q) ∈ fill k
  order : (rs.flatMap fill).map Prod.fst = rs.flatMap (h.liveIn clearSoft)
  snug : rs.IsChain (Snug (Object.size h.memory) L fill)
  /-- Every region that the point has come to holds something. -/
  touched : ∀ k ∈ rs, fill k = [] → k ∈ p.untouched

namespace Slid

variable {h : Heap} {L : Layout} {clearSoft : Bool} {rs : List Nat}
  {fill fill' : Nat → List (Nat × Nat)} {p : CompactionPoint} {s s' : Plan}
  (slid : Slid h L clearSoft rs fill p s)

include slid

theorem congr (hfill : ∀ k ∈ rs, fill' k = fill k) : Slid h L clearSoft rs fill' p s := by
  refine ⟨slid.regions, ?_, fun k hk => ?_, fun k hk => ?_, fun i hi o ho => ?_, ?_,
    slid.snug.imp_of_mem_imp fun j k hj hk f => f.congr (hfill j hj) (hfill k hk),
    fun k hk he => slid.touched k hk ((hfill k hk).symm.trans he)⟩
  · refine slid.current.imp id ?_
    rintro ⟨before, cur, after, hsplit, hcurrent, huntouched⟩
    exact ⟨before, cur, after, hsplit, hcurrent, fun k hk =>
      (hfill k (by rw [hsplit]; simp [hk])).trans (huntouched k hk)⟩
  · rw [hfill k hk]
    exact slid.filled k hk
  · rw [hfill k hk]
    exact slid.only k hk
  · obtain ⟨k, hk, q, hle, hq⟩ := slid.all i hi o ho
    exact ⟨k, hk, q, hle, by rwa [hfill k hk]⟩
  · rw [List.flatMap_congr hfill, slid.order]

theorem within {R O : Nat → Prop} (hw : Plan.Within R O s s') (hR : ∀ k ∈ rs, ¬R k)
    (hO : ∀ i ∈ rs, ∀ o ∈ h.liveIn clearSoft i, ¬O o) : Slid h L clearSoft rs fill p s' := by
  refine ⟨slid.regions, slid.current, fun k hk => ?_, slid.only, slid.all, slid.order, slid.snug,
    slid.touched⟩
  rw [hw.top k (hR k hk)]
  refine (slid.filled k hk).within hw (hR k hk) fun q hq => ?_
  obtain ⟨-, i, hi, ho⟩ := slid.only k hk q hq
  exact hO i hi q.1 ho

end Slid

section Worker

variable {h : Heap} {L : Layout} {clearSoft : Bool} {threshold : Nat} {t : RegionTable}
  {l : LivenessMap} {s : Plan}

open CompactionPoint

/-- Makes a region ready for a point that has started, and forwards its live objects. -/
def sweepRegion (l : LivenessMap) (which : Memory → Nat → Checked Bool)
    (state : CompactionPoint × Plan) (i : Nat) : Checked (CompactionPoint × Plan) := do
  let (p, s) := state
  let s ← Collector.emptyTarget s i
  Collector.forwardRegion l which p s i

/-- Some regions behind the first are made ready, and of their live objects those that are asked for
are forwarded. -/
structure Swept (h : Heap) (L : Layout) (clearSoft : Bool) (threshold : Nat) (t : RegionTable)
    (asked : Nat → Bool) (first : Nat) (fill : Nat → List (Nat × Nat)) (s : Plan)
    (done rest : List Nat) (x : CompactionPoint × Plan) (before : List Nat) (cur : Nat)
    (after : List Nat) (fill' : Nat → List (Nat × Nat)) : Prop where
  regions : before ++ cur :: after = first :: done
  settled : Settled h L clearSoft threshold t before cur after rest fill' x.1 x.2
  grown : Grown fill fill' (first :: done)
    (done.flatMap fun i => (h.liveIn clearSoft i).filter asked)
  within : Plan.Within (· ∈ first :: done)
    (· ∈ done.flatMap fun i => (h.liveIn clearSoft i).filter asked) s x.2

/-- Nothing has gone into any region. -/
def nothing : Nat → List (Nat × Nat) := fun _ => []

theorem CompactionPoint.Settled.snug {before after rest : List Nat} {cur : Nat}
    {fill : Nat → List (Nat × Nat)} {p : CompactionPoint}
    (k : Settled h L clearSoft threshold t before cur after rest fill p s) :
    (before ++ cur :: after).IsChain (Snug (Object.size h.memory) L fill) := by
  rw [List.isChain_split]
  refine ⟨k.full.imp fun _ _ => .inr, ?_⟩
  have hempty : ∀ j ∈ after, fill j = [] := fun j hj => k.empty j (List.mem_append_left _ hj)
  exact (List.pairwise_cons.mpr ⟨fun j hj => .inl (hempty j hj), List.pairwise_of_forall_mem_list
    fun _ _ j hj => .inl (hempty j hj)⟩ : (cur :: after).Pairwise _).isChain

/-- If a point has put something into its regions, it has put something into each that it has come
to. -/
theorem CompactionPoint.Settled.held {before after rest : List Nat} {cur : Nat}
    {fill : Nat → List (Nat × Nat)} {p : CompactionPoint}
    (k : Settled h L clearSoft threshold t before cur after rest fill p s)
    (hsome : ∃ j ∈ before ++ cur :: after, fill j ≠ []) : ∀ j ∈ before ++ [cur], fill j ≠ [] := by
  have hfilled : ∀ j ∈ before ++ [cur],
      ∃ top, Filled (Object.size h.memory) L s j (fill j) top := by
    intro j hj
    rcases List.mem_append.mp hj with hj | hj
    · exact ⟨_, k.filled j hj⟩
    · obtain rfl := List.mem_singleton.mp hj
      exact ⟨_, k.current⟩
  -- an object that did not fit behind nothing would not fit into any region
  have hfull : (before ++ [cur]).IsChain fun i j => fill i ≠ [] ∧ fill j ≠ [] :=
    k.full.imp_of_mem_imp fun i j _ hj ⟨q, ps, hq, hlt⟩ => by
      obtain ⟨top, hf⟩ := hfilled j hj
      have hb := hf.packed.bounds (p := q) (by simp [hq])
      have := hf.le
      refine ⟨fun hi => ?_, by simp [hq]⟩
      rw [hi, List.map_nil, Word.total] at hlt
      omega
  refine hfull.induction _ _ (fun i j f _ => f.2) fun hne => ?_
  cases before with
  | nil =>
    obtain ⟨j, hj, hf⟩ := hsome
    rcases List.mem_cons.mp hj with rfl | hj
    · exact hf
    · exact absurd (k.empty j (List.mem_append_left _ hj)) hf
  | cons first before =>
    obtain ⟨next, later, he⟩ := List.exists_cons_of_ne_nil (l := before ++ [cur]) (by simp)
    rw [List.cons_append, he] at hfull
    exact (List.isChain_cons_cons.mp hfull).1.1

theorem CompactionPoint.Settled.touched {before after rest : List Nat} {cur : Nat}
    {fill : Nat → List (Nat × Nat)} {p : CompactionPoint}
    (k : Settled h L clearSoft threshold t before cur after rest fill p s)
    (hsome : ∃ j ∈ before ++ cur :: after, fill j ≠ []) :
    ∀ j ∈ before ++ cur :: after, fill j = [] → j ∈ p.untouched := by
  intro j hj he
  have hafter : j ∈ before ++ [cur] ∨ j ∈ after := by simpa [or_assoc] using hj
  have hj := hafter.resolve_left fun hm => k.held hsome j hm he
  rw [k.point]
  simp [CompactionPoint.untouched, hj]

section Plans

variable (w : h.Consistent L)
  (ht : ∀ j, j < L.count → h.fate clearSoft threshold j = .compacting →
    (t.region j).top = (h.region j).top)
  (hl : l.Laid L) (he : ∀ o, L.IsWord o → (l.marked L o = true ↔ h.Traced clearSoft o))

include w ht hl he

theorem Swept.next {asked : Nat → Bool} {which : Memory → Nat → Checked Bool} {first i : Nat}
    {done rest : List Nat} {fill fill' : Nat → List (Nat × Nat)} {x : CompactionPoint × Plan}
    {before after : List Nat} {cur : Nat}
    (g : Swept h L clearSoft threshold t asked first fill s done (i :: rest) x before cur after
      fill')
    (hi : i < L.count) (hdone : ∀ j ∈ done, j < L.count) (hlt : ∀ j ∈ first :: done, j < i)
    (hnew : ∀ j, ∀ q ∈ fill j, q.1 ∈ h.liveIn clearSoft i → asked q.1 = false)
    (hwhich : ∀ o ∈ h.liveIn clearSoft i, ∀ m : Memory,
      m.read o = s.table.memory.read o → which m o = .ok (asked o)) :
    ∃ y before' cur' after' fill'', sweepRegion l which x i = .ok y ∧
      Swept h L clearSoft threshold t asked first fill s (done ++ [i]) rest y before' cur' after'
        fill'' := by
  have hother : ∀ o ∈ h.liveIn clearSoft i,
      o ∉ done.flatMap fun i => (h.liveIn clearSoft i).filter asked := by
    intro o ho hm
    obtain ⟨i', hi', hm⟩ := List.mem_flatMap.mp hm
    have e := w.liveIn_unique (hdone i' hi') hi (List.mem_filter.mp hm).1 ho
    exact Nat.ne_of_lt (hlt i' (List.mem_cons_of_mem _ hi')) e
  obtain ⟨before', cur', after', fill'', s₂, p₂, s₃, hs, hfwd, hlist', k₂, g', hw'⟩ :=
    slideRegion_of w ht hl he which asked g.settled (g.regions ▸ hlt)
      (fun j q hq hlive => by
        rcases g.grown.only j q hq with hq | ⟨hq, -⟩
        · exact hnew j q hq hlive
        · exact absurd hq (hother q.1 hlive))
      fun o ho m hm => hwhich o ho m (hm.trans (g.within.memory o (hother o ho)))
  rw [g.regions] at hlist' g' hw'
  refine ⟨(p₂, s₃), before', cur', after', fill'', (Checked.bind_of hs _).trans hfwd, hlist', k₂,
    ?_, ?_⟩ <;> rw [List.flatMap_append, List.flatMap_singleton]
  · refine (g.grown.extend fun j hj => g.settled.empty j ?_).trans g'
    obtain rfl := List.mem_singleton.mp hj
    simp
  · exact g.within.append hw' fun k hk => List.mem_append_left _ hk

theorem sweepRegions_of (which : Memory → Nat → Checked Bool) (asked : Nat → Bool)
    (sweep : CompactionPoint × Plan → Nat → Checked (CompactionPoint × Plan))
    (hsweep : ∀ p s i, p.isStarted = true → sweep (p, s) i = sweepRegion l which (p, s) i)
    {first : Nat} {again : List Nat} (hasc : (first :: again).Pairwise (· < ·))
    (hin : ∀ k ∈ again, k < L.count) {fill : Nat → List (Nat × Nat)} {p : CompactionPoint}
    (k : Settled h L clearSoft threshold t [] first [] again fill p s)
    (hnew : ∀ j, ∀ q ∈ fill j, ∀ i ∈ again, q.1 ∈ h.liveIn clearSoft i → asked q.1 = false)
    (hwhich : ∀ i ∈ again, ∀ o ∈ h.liveIn clearSoft i, ∀ m : Memory,
      m.read o = s.table.memory.read o → which m o = .ok (asked o)) :
    ∃ before cur after fill' p' s', again.foldlM sweep (p, s) = .ok (p', s') ∧
      before ++ cur :: after = first :: again ∧
      Settled h L clearSoft threshold t before cur after [] fill' p' s' ∧
      Grown fill fill' (first :: again)
        (again.flatMap fun i => (h.liveIn clearSoft i).filter asked) ∧
      Plan.Within (· ∈ first :: again)
        (· ∈ again.flatMap fun i => (h.liveIn clearSoft i).filter asked) s s' := by
  -- the regions that are done hold what was asked for in them, and the others are as they were
  obtain ⟨⟨p', s'⟩, hf, done, hsplit, before, cur, after, fill', g⟩ := Checked.foldlM_of (f := sweep)
    (fun rest x => ∃ done, again = done ++ rest ∧ ∃ before cur after fill',
      Swept h L clearSoft threshold t asked first fill s done rest x before cur after fill')
    (fun i rest x ⟨done, hsplit, _, _, _, _, g⟩ => by
      have hmem : i ∈ again := by simp [hsplit]
      have hlt : ∀ j ∈ first :: done, j < i := by
        rw [hsplit, ← List.cons_append, List.pairwise_append] at hasc
        exact fun j hj => hasc.2.2 j hj i (by simp)
      obtain ⟨y, before', cur', after', fill'', hrun, g'⟩ := g.next w ht hl he (hin i hmem)
        (fun j hj => hin j (by simp [hsplit, hj])) hlt (fun j q hq => hnew j q hq i hmem)
        (hwhich i hmem)
      refine ⟨y, ?_, done ++ [i], by simp [hsplit], before', cur', after', fill'', g'⟩
      rw [hsweep x.1 x.2 i (by rw [g.settled.point]; rfl)]
      exact hrun)
    again (p, s) ⟨[], rfl, [], first, [], fill, rfl, k, .refl _ _, .refl s⟩
  obtain rfl : again = done := hsplit.trans (List.append_nil done)
  exact ⟨before, cur, after, fill', p', s', hf, g.regions, g.settled, g.grown, g.within⟩

theorem planFirst_of {first : Nat} {again : List Nat} (hnodup : (first :: again).Nodup)
    (hin : ∀ k ∈ first :: again, k < L.count ∧ h.fate clearSoft threshold k = .compacting)
    (f : s.Of h L clearSoft threshold t) :
    ∃ p' s' fill, Collector.planRegion l ({ regions := first :: again }, s) first = .ok (p', s') ∧
      Settled h L clearSoft threshold t [] first [] again fill p' s' ∧
      Grown nothing fill [first] (h.liveIn clearSoft first) ∧
      Plan.Within (· ∈ [first]) (· ∈ h.liveIn clearSoft first) s s' := by
  have hi := hin first (by simp)
  obtain ⟨s₂, hs, hplan, htop, hw₂⟩ := emptyTarget_of f hi.1 hi.2
  obtain ⟨p₂, hp, hpt, k₂⟩ := start_of (p := { regions := first :: again }) nothing rfl hplan htop
    hnodup hin (Filled.empty (hplan.laid.region first hi.1)) (fun _ _ => rfl)
  obtain ⟨before, cur, after, fill, p₃, s₃, hfwd, hlist, k₃, g, hw₃⟩ :=
    forwardRegion_of w ht hl he (fun _ _ => .ok true) (fun _ => true) k₂
      (show [] ++ first :: [] = [] ++ [first] from rfl) (by simp) (fun _ => Nat.le_of_eq hpt)
      (fun j _ q hq _ => by simp [nothing] at hq) fun _ _ _ _ => rfl
  rw [List.filter_eq_self.mpr fun _ _ => rfl] at g hw₃
  obtain ⟨rfl, rfl, rfl⟩ : before = [] ∧ cur = first ∧ after = [] := by
    cases before with
    | nil => exact ⟨rfl, by simpa using hlist⟩
    | cons x before => simp at hlist
  refine ⟨p₃, s₃, fill, ?_, k₃, g, (hw₂.mono (fun _ e => by simp [e]) fun _ h => h.elim).trans hw₃⟩
  rw [Collector.planRegion, Checked.bind_of hs]
  simp only [isStarted, Option.isSome_none, Bool.false_eq_true, if_false]
  exact (Checked.bind_of hp _).trans hfwd

theorem planRegions_of {rs : List Nat} (hasc : rs.Pairwise (· < ·))
    (hin : ∀ k ∈ rs, k < L.count ∧ h.fate clearSoft threshold k = .compacting)
    (f : s.Of h L clearSoft threshold t) :
    ∃ p' s' fill, rs.foldlM (Collector.planRegion l) ({ regions := rs }, s) = .ok (p', s') ∧
      (rs = [] ∧ p' = { regions := rs } ∧ s' = s ∨ ∃ before cur after,
        before ++ cur :: after = rs ∧
          Settled h L clearSoft threshold t before cur after [] fill p' s') ∧
      Grown nothing fill rs (rs.flatMap (h.liveIn clearSoft)) ∧
      Plan.Within (· ∈ rs) (· ∈ rs.flatMap (h.liveIn clearSoft)) s s' := by
  cases rs with
  | nil => exact ⟨_, s, nothing, rfl, .inl ⟨rfl, rfl, rfl⟩, .refl _ _, .refl s⟩
  | cons first again =>
    have hnodup : (first :: again).Nodup := hasc.imp Nat.ne_of_lt
    obtain ⟨p₁, s₁, fill₁, hfirst, k₁, g₁, hw₁⟩ := planFirst_of w ht hl he hnodup hin f
    obtain ⟨before, cur, after, fill, p', s', hf, hlist, k, g, hw⟩ :=
      sweepRegions_of w ht hl he (fun _ _ => .ok true) (fun _ => true) (Collector.planRegion l)
        (fun p s i hp => by
          simp only [Collector.planRegion, hp, if_true]
          rfl)
        hasc (fun k hk => (hin k (by simp [hk])).1) k₁
        (fun j q hq i hi hlive => by
          rcases g₁.only j q hq with hq | ⟨hq, -⟩
          · simp [nothing] at hq
          · have e := w.liveIn_unique (hin first (by simp)).1 (hin i (by simp [hi])).1 hq hlive
            exact absurd hi (e ▸ (List.nodup_cons.mp hnodup).1))
        fun _ _ _ _ _ _ => rfl
    simp only [List.filter_eq_self.mpr fun _ _ => rfl] at g hw
    refine ⟨p', s', fill, ?_, .inr ⟨before, cur, after, hlist, k⟩, ?_, ?_⟩
    · rw [List.foldlM_cons, Checked.bind_of hfirst]
      exact hf
    · exact (g₁.extend fun j hj => k₁.empty j hj).trans g
    · exact hw₁.append hw (by simp)

/-- The plan of one worker. -/
theorem planned_of {rs : List Nat} (hasc : rs.Pairwise (· < ·))
    (hin : ∀ k ∈ rs, k < L.count ∧ h.fate clearSoft threshold k = .compacting)
    (f : s.Of h L clearSoft threshold t) :
    ∃ p s₁ s' fill, rs.foldlM (Collector.planRegion l) ({ regions := rs }, s) = .ok (p, s₁) ∧
      p.save s₁ = .ok s' ∧ Slid h L clearSoft rs fill p s' ∧ s'.Of h L clearSoft threshold t ∧
      Plan.Within (· ∈ rs) (· ∈ rs.flatMap (h.liveIn clearSoft)) s s' := by
  obtain ⟨p, s₁, fill, hf, hcases, g, hw⟩ := planRegions_of w ht hl he hasc hin f
  have honly : ∀ k ∈ rs, ∀ q ∈ fill k, q.2 ≤ q.1 ∧ ∃ i ∈ rs, q.1 ∈ h.liveIn clearSoft i := by
    intro k _ q hq
    rcases g.only k q hq with hq | ⟨hq, hle⟩
    · simp [nothing] at hq
    · exact ⟨hle, List.mem_flatMap.mp hq⟩
  have hall : ∀ i ∈ rs, ∀ o ∈ h.liveIn clearSoft i, ∃ k ∈ rs, ∃ q, q ≤ o ∧ (o, q) ∈ fill k :=
    fun i hi o ho => g.all o (List.mem_flatMap.mpr ⟨i, hi, ho⟩)
  have horder : (rs.flatMap fill).map Prod.fst = rs.flatMap (h.liveIn clearSoft) := by
    rw [g.order, show rs.flatMap nothing = [] from List.flatMap_eq_nil_iff.mpr fun _ _ => rfl]
    rfl
  rcases hcases with ⟨rfl, rfl, rfl⟩ | ⟨before, cur, after, hlist, k⟩
  · exact ⟨_, _, _, fill, hf, rfl, ⟨rfl, .inl ⟨rfl, rfl⟩, by simp, honly, hall, horder, .nil,
      by simp⟩, f, hw⟩
  · obtain ⟨-, hplan, hw'⟩ := k.saved
    have hcm : cur ∈ rs := hlist ▸ by simp
    refine ⟨p, s₁, _, fill, hf, k.save_of, ⟨?_, .inr ⟨before, cur, after, hlist.symm, ?_,
      fun j hj => k.empty j (by simp [hj])⟩, fun j hj => k.filled_saved (hlist ▸ hj), honly,
      hall, horder, hlist ▸ k.snug, fun j hj he => ?_⟩, hplan,
      hw.trans (hw'.mono (fun _ e => e ▸ hcm) fun _ h => h.elim)⟩
    · rw [k.point]
      simpa using hlist
    · rw [k.point]
    · -- every region that slides has live objects, which went somewhere
      obtain ⟨hi, hfate⟩ := hin cur hcm
      have hlive : h.liveIn clearSoft cur ≠ [] := fun e =>
        ((w.fate_eq_compacting hi).mp hfate).2.2.1 ((w.liveWords_eq_zero hi).mpr e)
      obtain ⟨o, ho⟩ := List.exists_mem_of_ne_nil _ hlive
      obtain ⟨n, hn, q, -, hq⟩ := hall cur hcm o ho
      exact k.touched ⟨n, hlist ▸ hn, List.ne_nil_of_mem hq⟩ j (hlist ▸ hj) he

end Plans

end Worker

namespace Collector

/-- What planning the slides changes. -/
def withPlan (c : Collector) (s : Plan) (points : Array CompactionPoint) : Collector :=
  { c.setPlan s with points := points }

variable {c d : Collector} {h : Heap} {L : Layout}

/-- The workers below an index have planned. -/
structure WorkersPlanned (c : Collector) (h : Heap) (L : Layout) (d : Collector) (n : Nat)
    (e : Collector) (fill : Nat → List (Nat × Nat)) : Prop where
  same : e = d.withPlan e.plan e.points
  plan : e.plan.Of h L c.scope.clearSoft c.scope.threshold d.heap.table
  size : e.points.size = c.workers
  slid : ∀ k, k < n → k < c.workers →
    Slid h L c.scope.clearSoft (Table.entry d.points k).regions fill (Table.entry e.points k) e.plan
  rest : ∀ k, n ≤ k → Table.entry e.points k = Table.entry d.points k

theorem Dealt.inside {points : Array CompactionPoint} (s : c.Dealt h L L.count points) {k i : Nat}
    (hk : k < c.workers) (hi : i ∈ (Table.entry points k).regions) :
    i < L.count ∧ h.fate c.scope.clearSoft c.scope.threshold i = .compacting :=
  ((s.dealt i).mp ⟨k, hk, hi⟩).2

theorem Sorted.top_of (s : c.Sorted h L d) {i : Nat} (hi : i < L.count)
    (hf : h.fate c.scope.clearSoft c.scope.threshold i = .compacting) :
    (d.heap.table.region i).top = (h.region i).top := by
  have := (s.region i hi).1.top
  rw [Heap.sorted, if_neg (by rw [hf]; simp)] at this
  exact this

/-- A worker plans its regions beside those that have planned theirs. -/
theorem planWorker_of (w : h.Consistent L) (s : c.Sorted h L d) {n : Nat} {e : Collector}
    {fill : Nat → List (Nat × Nat)} (p : c.WorkersPlanned h L d n e fill) (hn : n < c.workers) :
    ∃ e' fill', planWorker n e = .ok e' ∧ c.WorkersPlanned h L d (n + 1) e' fill' := by
  have hz : n < e.points.size := p.size ▸ hn
  have hlive : e.liveness = d.heap.liveness := by rw [p.same]; rfl
  have hpoint : Table.entry e.points n = { regions := (Table.entry d.points n).regions } := by
    rw [p.rest n (Nat.le_refl _)]
    exact s.points.fresh n hn
  obtain ⟨q, s₁, s', new, hf, hsave, slid, hplan, hw⟩ := planned_of w
    (fun j hj hf => s.top_of hj hf) s.ready.heap.liveness s.exact (s.points.ascending n hn)
    (fun k hk => s.points.inside hn hk) p.plan
  refine ⟨e.withPlan s' (e.points.setIfInBounds n q),
    fun j => if j ∈ (Table.entry d.points n).regions then new j else fill j, ?_, ?_, hplan,
    by rw [withPlan, Array.size_setIfInBounds, p.size], fun k hk hk' => ?_, fun k hk => ?_⟩
  · simp only [planWorker, Table.get_of_lt hz, hpoint, hlive, hf, hsave, Checked.ok_bind,
      Checked.pure_eq, Array.set!_eq_setIfInBounds]
    rfl
  · rw [p.same]
    rfl
  · show Slid h L c.scope.clearSoft _ _ (Table.entry (e.points.setIfInBounds n q) k) s'
    by_cases hkn : k = n
    · subst hkn
      rw [Table.entry_set_self hz]
      exact slid.congr fun j hj => if_pos hj
    · rw [Table.entry_set_of_ne _ (Ne.symm hkn)]
      -- the lists of two workers have no region in common, and so no object
      have apart : ∀ j, j ∈ (Table.entry d.points k).regions →
          j ∉ (Table.entry d.points n).regions :=
        fun j hj hj' => hkn (s.points.once j k n hk' hn hj hj')
      refine ((p.slid k (by omega) hk').within hw apart fun i hi o ho hm => ?_).congr
        fun j hj => if_neg (apart j hj)
      obtain ⟨i', hi', ho'⟩ := List.mem_flatMap.mp hm
      have e := w.liveIn_unique (s.points.inside hk' hi).1 (s.points.inside hn hi').1 ho ho'
      exact apart i hi (e ▸ hi')
  · show Table.entry (e.points.setIfInBounds n q) k = _
    rw [Table.entry_set_of_ne _ (by omega), p.rest k (by omega)]

theorem Sorted.workersPlanned (s : c.Sorted h L d) : c.WorkersPlanned h L d 0 d nothing :=
  ⟨rfl, ⟨s.ready.heap.table, fun i _ => ⟨rfl, rfl, rfl, rfl, rfl⟩, fun _ _ _ => rfl, s.ready.tops,
    fun a _ => by rw [← s.memory]; rfl⟩, s.points.size, fun k hk => by omega, fun _ _ => rfl⟩

theorem Sorted.workers (s : c.Sorted h L d) : d.workers = c.workers := by
  rw [s.same]
  rfl

theorem planWorkers_of (w : h.Consistent L) (s : c.Sorted h L d) :
    ∃ e fill, d.run .plan planWorker = .ok e ∧ c.WorkersPlanned h L d c.workers e fill := by
  obtain ⟨e, he, fill, hp⟩ := s.ready.run_of .plan planWorker
    (fun n e => ∃ fill, c.WorkersPlanned h L d n e fill)
    (fun k e hk ⟨fill, p⟩ => by
      obtain ⟨e', fill', he', p'⟩ := planWorker_of w s p (s.workers ▸ hk)
      exact ⟨e', he', fill', p'⟩)
    ⟨nothing, s.workersPlanned⟩
  exact ⟨e, fill, he, s.workers ▸ hp⟩

end Collector

end RegionHeap
