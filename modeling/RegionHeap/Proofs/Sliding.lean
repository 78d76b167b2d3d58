import Mathlib.Data.List.Chain
import RegionHeap.Proofs.Packing

/-!
Compaction points at work. The regions of a point that its objects may go into fall into those it
has left, the current one, and those it has not come to. The current region never lies behind the
region whose objects are being forwarded, so that objects only move down and always find room. A
region is left only for an object that did not fit into what it had left.
-/
set_option autoImplicit false

namespace RegionHeap.CompactionPoint

/-- The first object of a region did not fit behind those of another one. -/
def Follows (size : Nat → Nat) (L : Layout) (fill : Nat → List (Nat × Nat)) (j k : Nat) : Prop :=
  ∃ q ps, fill k = q :: ps ∧
    L.bytes < 8 * (Word.total ((fill j).map fun p => size p.1) + size q.1)

/-- One more object goes into a region. -/
def push (fill : Nat → List (Nat × Nat)) (k : Nat) (q : Nat × Nat) (j : Nat) : List (Nat × Nat) :=
  if j = k then fill j ++ [q] else fill j

theorem Follows.push {size : Nat → Nat} {L : Layout} {fill : Nat → List (Nat × Nat)} {j k : Nat}
    (f : Follows size L fill j k) (k' : Nat) (q : Nat × Nat) :
    Follows size L (push fill k' q) j k := by
  obtain ⟨first, ps, hk, hj⟩ := f
  have hle : Word.total ((fill j).map fun p => size p.1) ≤
      Word.total ((CompactionPoint.push fill k' q j).map fun p => size p.1) := by
    unfold CompactionPoint.push
    split
    · rw [List.map_append, Word.total_append]
      exact Nat.le_add_right _ _
    · exact Nat.le_refl _
  have hfirst : ∃ ps', CompactionPoint.push fill k' q k = first :: ps' := by
    unfold CompactionPoint.push
    split
    · exact ⟨ps ++ [q], by rw [hk, List.cons_append]⟩
    · exact ⟨ps, hk⟩
  obtain ⟨ps', hk'⟩ := hfirst
  exact ⟨first, ps', hk', by omega⟩

/-- A point with its regions: those it has left, the current one, those emptied for it, and the
rest. -/
structure Working (h : Heap) (L : Layout) (clearSoft : Bool) (threshold : Nat) (t : RegionTable)
    (before : List Nat) (cur : Nat) (after rest : List Nat) (fill : Nat → List (Nat × Nat))
    (p : CompactionPoint) (s : Plan) : Prop where
  point : p = ⟨before ++ cur :: (after ++ rest), some before.length, p.top⟩
  plan : s.Of h L clearSoft threshold t
  nodup : (before ++ cur :: (after ++ rest)).Nodup
  inside : ∀ k ∈ before ++ cur :: (after ++ rest),
    k < L.count ∧ h.fate clearSoft threshold k = .compacting
  filled : ∀ k ∈ before, Filled (Object.size h.memory) L s k (fill k) (Table.entry s.tops k)
  current : Filled (Object.size h.memory) L s cur (fill cur) p.top
  empty : ∀ k ∈ after ++ rest, fill k = []
  bottoms : ∀ k ∈ after, Table.entry s.tops k = L.bottom k

/-- A point between two objects. It came to each region but the first for an object that did not fit
into the one before. -/
structure Settled (h : Heap) (L : Layout) (clearSoft : Bool) (threshold : Nat) (t : RegionTable)
    (before : List Nat) (cur : Nat) (after rest : List Nat) (fill : Nat → List (Nat × Nat))
    (p : CompactionPoint) (s : Plan) : Prop
    extends Working h L clearSoft threshold t before cur after rest fill p s where
  full : (before ++ [cur]).IsChain (Follows (Object.size h.memory) L fill)

variable {h : Heap} {L : Layout} {clearSoft : Bool} {threshold : Nat} {t : RegionTable}
  {before after rest done : List Nat} {cur i o : Nat} {fill : Nat → List (Nat × Nat)}
  {p : CompactionPoint} {s : Plan}

namespace Working

variable (k : Working h L clearSoft threshold t before cur after rest fill p s)

include k

theorem ne_of_mem {j : Nat} (hj : j ∈ before ++ (after ++ rest)) : cur ≠ j := by
  have hn := (List.nodup_cons.mp (List.perm_middle.nodup_iff.mp k.nodup)).1
  exact fun e => hn (e ▸ hj)

theorem currentRegion_of : p.currentRegion? = .ok (some cur) := by
  rw [k.point]
  simp [currentRegion?, regionAt]

theorem target_of : p.target s.table = .ok (s.table.region cur) := by
  have hc := (k.inside cur (by simp)).1
  rw [target, k.point]
  simp [regionAt, k.plan.laid.get_of hc]

theorem fits_of (words : Nat) :
    p.fits s.table words = .ok (decide (p.top + 8 * words ≤ L.bottom cur + L.bytes)) := by
  have hl := k.plan.laid.region cur (k.inside cur (by simp)).1
  have hle := k.current.le
  have hw : Address.wordsFrom (s.table.region cur).limit p.top =
      .ok ((L.bottom cur + L.bytes - p.top) / 8) := by
    rw [Address.wordsFrom_eq_ok, hl.limit]
    exact ⟨hle, rfl⟩
  rw [fits, Checked.bind_of k.target_of, Checked.bind_of hw]
  congr 1
  apply decide_eq_decide.mpr
  omega

theorem save_of : p.save s = .ok { s with tops := s.tops.setIfInBounds cur p.top } := by
  have hc := (k.inside cur (by simp)).1
  rw [save, Checked.bind_of k.currentRegion_of]
  simp only [Plan.setTop, Table.set_of_lt (show cur < s.tops.size from k.plan.tops ▸ hc),
    Checked.ok_bind, Checked.pure_eq]

theorem saved : s.Of h L clearSoft threshold t ∧
    ({ s with tops := s.tops.setIfInBounds cur p.top } : Plan).Of h L clearSoft threshold t ∧
    Plan.Within (· = cur) (fun _ => False) s { s with tops := s.tops.setIfInBounds cur p.top } :=
  ⟨k.plan, k.plan.setTop cur p.top,
    ⟨fun _ _ => rfl, fun _ hk => Table.entry_set_of_ne _ (Ne.symm hk) _, fun _ _ => rfl⟩⟩

end Working

theorem Working.filled_saved
    (k : Working h L clearSoft threshold t before cur after [] fill p s) {j : Nat}
    (hj : j ∈ before ++ cur :: after) :
    Filled (Object.size h.memory) L { s with tops := s.tops.setIfInBounds cur p.top } j (fill j)
      (Table.entry (s.tops.setIfInBounds cur p.top) j) := by
  have hcl := (k.inside cur (by simp)).1
  have hne : j ≠ cur → Table.entry (s.tops.setIfInBounds cur p.top) j = Table.entry s.tops j :=
    fun h => Table.entry_set_of_ne _ (Ne.symm h) _
  rcases List.mem_append.mp hj with hj | hj
  · rw [hne fun e => k.ne_of_mem (by simp [hj]) e.symm]
    exact (k.filled j hj).congr rfl fun _ _ => rfl
  · rcases List.mem_cons.mp hj with rfl | hj
    · rw [Table.entry_set_self (k.plan.tops ▸ hcl)]
      exact k.current.congr rfl fun _ _ => rfl
    · rw [hne fun e => k.ne_of_mem (by simp [hj]) e.symm, k.bottoms j hj, k.empty j (by simp [hj])]
      exact Filled.empty (k.plan.laid.region j (k.inside j (by simp [hj])).1)

/-- The point moves on to the next region, which is empty. -/
theorem advance_of {next : Nat}
    (k : Working h L clearSoft threshold t before cur (next :: after) rest fill p s) :
    ∃ p' s', p.advance s = .ok (p', s') ∧
      Working h L clearSoft threshold t (before ++ [cur]) next after rest fill p' s' ∧
      p'.top = L.bottom next ∧ Plan.Within (· = cur) (fun _ => False) s s' := by
  obtain ⟨-, hplan, hwithin⟩ := k.saved
  have hcl := (k.inside cur (by simp)).1
  have hnl := (k.inside next (by simp)).1
  have hcn : cur ≠ next := k.ne_of_mem (by simp)
  have htop : Table.entry (s.tops.setIfInBounds cur p.top) next = L.bottom next := by
    rw [Table.entry_set_of_ne _ hcn, k.bottoms next (by simp)]
  have hsplit : before ++ cur :: (next :: after ++ rest) =
      (before ++ [cur]) ++ next :: (after ++ rest) := by simp
  refine ⟨{ p with current := some (before.length + 1), top := L.bottom next },
    { s with tops := s.tops.setIfInBounds cur p.top }, ?advance, {
      point := by rw [k.point]; simp
      plan := hplan
      nodup := hsplit ▸ k.nodup
      inside := fun j hj => k.inside j (hsplit ▸ hj)
      filled := fun j hj => ?filled
      current := ?current
      empty := fun j hj => k.empty j (List.mem_cons_of_mem next hj)
      bottoms := fun j hj => ?bottoms }, rfl, hwithin⟩
  case advance =>
    have hreg : p.regions[before.length + 1]? = some next := by
      rw [k.point]
      simp
    have hget : Table.get (s.tops.setIfInBounds cur p.top) next = .ok (L.bottom next) := by
      rw [Table.get_of_lt (by rw [Array.size_setIfInBounds, k.plan.tops]; exact hnl), htop]
    have hcur : (p.current.map (· + 1)).getD 0 = before.length + 1 := by
      rw [k.point]
      rfl
    rw [advance, Checked.bind_of k.save_of]
    simp only [hreg, Plan.top, hget, k.plan.laid.get_of hnl, (k.plan.laid.region next hnl).bottom,
      beq_self_eq_true, Checked.unless_true, Checked.ok_bind, Checked.pure_eq, hcur]
  -- the region that is left keeps the top that is saved for it
  case filled =>
    rcases List.mem_append.mp hj with hj | hj
    · have hne : cur ≠ j := k.ne_of_mem (by simp [hj])
      rw [Table.entry_set_of_ne _ hne]
      exact (k.filled j hj).congr rfl fun _ _ => rfl
    · obtain rfl : j = cur := by simpa using hj
      rw [Table.entry_set_self (k.plan.tops ▸ hcl)]
      exact k.current.congr rfl fun _ _ => rfl
  case current =>
    rw [k.empty next (by simp)]
    exact Filled.empty (k.plan.laid.region next hnl)
  case bottoms =>
    have hne : cur ≠ j := k.ne_of_mem (by simp [hj])
    show Table.entry (s.tops.setIfInBounds cur p.top) j = _
    rw [Table.entry_set_of_ne _ hne, k.bottoms j (by simp [hj])]

/-- If there is no room in the current region there is in the next one, at the latest in the region
that the object comes from. -/
theorem makeRoom_of (words : Nat) {n : Nat}
    (k : Settled h L clearSoft threshold t before cur after rest fill p s)
    (hlist : before ++ cur :: after = done ++ [i]) (hcur : cur = i → p.top ≤ o)
    (hbot : L.bottom i ≤ o) (hlim : o + 8 * words ≤ L.bottom i + L.bytes) (hn : 1 < n) :
    ∃ before' cur' after' p' s', makeRoom words n p s = .ok (p', s') ∧
      before' ++ cur' :: after' = done ++ [i] ∧
      Working h L clearSoft threshold t before' cur' after' rest fill p' s' ∧
      p'.top + 8 * words ≤ L.bottom cur' + L.bytes ∧ (cur' = i → p'.top ≤ o) ∧
      Plan.Within (· ∈ done ++ [i]) (fun _ => False) s s' ∧
      ∀ q, Object.size h.memory q.1 = words →
        (before' ++ [cur']).IsChain (Follows (Object.size h.memory) L (push fill cur' q)) := by
  obtain ⟨n, rfl⟩ : ∃ m, n = m + 2 := ⟨n - 2, by omega⟩
  -- the object fits where the point is, or else at the start of the next region
  by_cases hroom : p.top + 8 * words ≤ L.bottom cur + L.bytes
  · refine ⟨before, cur, after, p, s, ?_, hlist, k.toWorking, hroom, hcur, .refl s, fun q _ =>
      k.full.imp fun _ _ f => f.push cur q⟩
    rw [makeRoom, Checked.bind_of (k.fits_of words)]
    simp only [hroom, decide_true, if_true, Checked.pure_eq]
  cases after with
  | nil =>
    obtain rfl : cur = i := by simpa using (List.append_inj' hlist rfl).2
    have := hcur rfl
    omega
  | cons next after =>
    obtain ⟨p', s', hadvance, k', htop, hw⟩ := advance_of k.toWorking
    have hmem : cur ∈ done ++ [i] := hlist ▸ by simp
    have hroom' : p'.top + 8 * words ≤ L.bottom next + L.bytes := by omega
    refine ⟨before ++ [cur], next, after, p', s', ?_, by simpa using hlist, k', hroom',
      fun e => by rw [htop, e]; exact hbot, hw.mono (fun _ e => e ▸ hmem) fun _ h => h,
      fun q hq => ?_⟩
    · rw [makeRoom, Checked.bind_of (k.fits_of words)]
      simp only [hroom, decide_false, Bool.false_eq_true, if_false, hadvance, Checked.ok_bind]
      rw [makeRoom, Checked.bind_of (k'.fits_of words)]
      simp only [hroom', decide_true, if_true, Checked.pure_eq]
    · -- the region was left since the object did not fit, and is the first one in the next
      have hend := k.current.packed.end_eq
      have hcn : cur ≠ next := k.ne_of_mem (by simp)
      rw [List.append_assoc, List.singleton_append, List.isChain_append_cons_cons]
      refine ⟨k.full.imp fun _ _ f => f.push next q, ⟨q, [], ?_, ?_⟩, .singleton _⟩
      · rw [push, if_pos rfl, k.empty next (by simp), List.nil_append]
      · rw [push, if_neg hcn, hq]
        omega

theorem Working.record_of {start : Nat}
    (k : Working h L clearSoft threshold t before cur after rest fill p s) (stop : Nat)
    (hlt : start < stop)
    {os : List Nat} (hs : (s.table.region cur).blocks.Sound os start) :
    ∃ r, (s.table.region cur).recordBlock start stop = .ok r ∧
      r = { s.table.region cur with blocks := r.blocks } ∧ r.Laid L cur ∧
      r.blocks.Sound (os ++ [start]) stop := by
  have hl := k.plan.laid.region cur (k.inside cur (by simp)).1
  obtain ⟨starts, hr, hz, he⟩ := BlockTable.record_of (BlockTable.Whole.of_laid hl) hlt
  refine ⟨{ s.table.region cur with blocks := { (s.table.region cur).blocks with
    starts := starts } }, ?_, rfl, ?_, hs.record hz he⟩
  · simp only [Region.recordBlock, hr, Checked.ok_bind, Checked.pure_eq]
  · exact ⟨hl.index, hl.bottom, hl.limit, hl.blocksBottom, hl.blocksLimit, hz.trans hl.blocks,
      hl.bottom_le, hl.top_le, hl.aligned⟩

theorem header_of (m : Memory) (o place : Nat) :
    ∃ m', (if o = place then Object.unforward m o else Object.forwardTo m o place) = m' ∧
      m'.read o = (if o = place then 0 else place) ∧ ∀ a, a ≠ o → m'.read a = m.read a := by
  refine ⟨m.write o (if o = place then 0 else place), ?_, Memory.read_write_self ..,
    fun a ha => Memory.read_write_of_ne _ _ (Ne.symm ha)⟩
  split <;> rfl

/-- Where there is room, an object is put behind the others of the current region. -/
theorem Working.put_of (k : Working h L clearSoft threshold t before cur after rest fill p s)
    (hslides : h.Slides clearSoft threshold o) (hsize : 0 < Object.size h.memory o)
    (hfits : p.top + 8 * Object.size h.memory o ≤ L.bottom cur + L.bytes)
    (hnew : ∀ j ∈ before ++ cur :: after, ∀ q ∈ fill j, q.1 ≠ o) :
    ∃ m r, (if o = p.top then Object.unforward s.table.memory o
        else Object.forwardTo s.table.memory o p.top) = m ∧
      (s.table.region cur).recordBlock p.top (p.top + 8 * Object.size h.memory o) = .ok r ∧
      Working h L clearSoft threshold t before cur after rest (push fill cur (o, p.top))
        { p with top := p.top + 8 * Object.size h.memory o }
        { s with table := ({ s.table with memory := m } : RegionTable).put cur r } ∧
      Plan.Within (· = cur) (· = o) s
        { s with table := ({ s.table with memory := m } : RegionTable).put cur r } := by
  have hc := k.inside cur (by simp)
  obtain ⟨m, hm, hself, hread⟩ := header_of s.table.memory o p.top
  obtain ⟨r, hrec, hr, hrl, hsound⟩ := k.record_of
    (p.top + 8 * Object.size h.memory o) (by omega) k.current.sound
  have hregion : ∀ j, (({ s.table with memory := m } : RegionTable).put cur r).region j =
      if cur = j then r else s.table.region j := (k.plan.laid.withMemory m).region_put_of hc.1 r
  have hother : ∀ j ∈ before, j ≠ cur := fun j hj => (k.ne_of_mem (by simp [hj])).symm
  refine ⟨m, r, hm, hrec, {
    point := by rw [k.point]
    plan := (k.plan.send hslides hread).putBlocks hc.1 hc.2 hr hrl
    nodup := k.nodup
    inside := k.inside
    filled := fun j hj => ?filled
    current := ?current
    empty := fun j hj => ?empty
    bottoms := k.bottoms },
    fun j hj => (hregion j).trans (if_neg (Ne.symm hj)), fun _ _ => rfl, hread⟩
  case filled =>
    rw [push, if_neg (hother j hj)]
    exact (k.filled j hj).congr ((hregion j).trans (if_neg (hother j hj).symm))
      fun q hq => hread q.1 (hnew j (by simp [hj]) q hq)
  case current =>
    rw [push, if_pos rfl]
    refine k.current.snoc hfits (fun q hq => hread q.1 (hnew cur (by simp) q hq)) hself ?_
    rw [hregion, if_pos rfl]
    exact hsound
  case empty =>
    rw [push, if_neg (k.ne_of_mem (List.mem_append_right _ hj)).symm]
    exact k.empty j hj

theorem Working.forward_eq (k : Working h L clearSoft threshold t before cur after rest fill p s)
    {words : Nat} {p₀ : CompactionPoint} {s₀ : Plan} {m : Memory} {r : Region}
    (hstarted : p₀.isStarted = true)
    (hroom : makeRoom words (p₀.regions.length + 1) p₀ s₀ = .ok (p, s))
    (hm : (if o = p.top then Object.unforward s.table.memory o
      else Object.forwardTo s.table.memory o p.top) = m)
    (hrec : (s.table.region cur).recordBlock p.top (p.top + 8 * words) = .ok r)
    (hfits : p.top + 8 * words ≤ L.bottom cur + L.bytes) :
    p₀.forward s₀ o words = .ok ({ p with top := p.top + 8 * words },
      { s with table := ({ s.table with memory := m } : RegionTable).put cur r }) := by
  have hc := (k.inside cur (by simp)).1
  have hlc := k.plan.laid.region cur hc
  have hcl := Layout.bottom_add_le_limit hc
  have hlim := L.limit_lt
  have hpos := L.bottom_pos cur
  have hge := k.current.packed.le
  have hzero : (o == p.top || p.top != 0) = true := by
    simp only [Bool.or_eq_true, bne_iff_ne]
    exact .inr (by omega)
  have hadd : Address.addWords p.top words = .ok (p.top + 8 * words) :=
    Address.addWords_of (by omega)
  have hset : ({ s.table with memory := m } : RegionTable).set cur r =
      .ok (({ s.table with memory := m } : RegionTable).put cur r) :=
    RegionTable.set_of_lt ((k.plan.laid.withMemory m).size ▸ hc) r
  have hin : decide (p.top + 8 * words ≤ (s.table.region cur).limit) = true := by
    rw [decide_eq_true_iff, hlc.limit]
    exact hfits
  rw [forward, Checked.unless_of hstarted, Checked.ok_bind, Checked.bind_of hroom]
  simp only [hzero, Checked.unless_true, Checked.ok_bind, hm, hadd, k.target_of, hin, hrec,
    hlc.index, hset, Checked.pure_eq]

theorem Working.source_of (k : Working h L clearSoft threshold t before cur after rest fill p s)
    (hlist : before ++ cur :: after = done ++ [i]) :
    i < L.count ∧ h.fate clearSoft threshold i = .compacting := by
  refine k.inside i ?_
  have hmem : i ∈ before ++ cur :: after := hlist ▸ by simp
  rw [← List.cons_append, ← List.append_assoc]
  exact List.mem_append_left _ hmem

/-- An object is forwarded to a place at or below its own. -/
theorem forward_of (w : h.Consistent L)
    (k : Settled h L clearSoft threshold t before cur after rest fill p s)
    (hlist : before ++ cur :: after = done ++ [i]) (hlt : ∀ j ∈ done, j < i)
    (hcur : cur = i → p.top ≤ o) (ho : o ∈ h.liveIn clearSoft i)
    (hnew : ∀ j ∈ done ++ [i], ∀ q ∈ fill j, q.1 ≠ o) :
    ∃ before' cur' after' q p' s', p.forward s o (Object.size h.memory o) = .ok (p', s') ∧
      before' ++ cur' :: after' = done ++ [i] ∧
      Settled h L clearSoft threshold t before' cur' after' rest (push fill cur' (o, q)) p' s' ∧
      q ≤ o ∧ (cur' = i → p'.top ≤ Object.limit h.memory o) ∧
      Plan.Within (· ∈ done ++ [i]) (· = o) s s' := by
  obtain ⟨hi, hfate⟩ := k.source_of hlist
  have hord := ((w.fate_eq_compacting hi).mp hfate).1
  have hobj := (Heap.mem_liveIn.mp ho).1
  obtain ⟨hb, hl, htop⟩ := w.within_of hi hord hobj
  have hslides : h.Slides clearSoft threshold o := ⟨i, by rw [w.regionCount]; exact hi, hfate, ho⟩
  have hsize := w.size_ge (w.isObject hi hobj)
  unfold Object.limit at hl
  obtain ⟨before₁, c, after₁, p₁, s₁, hroom, hlist₁, k₁, hfits, hcur₁, hw₁, hfull⟩ :=
    makeRoom_of (Object.size h.memory o) (n := p.regions.length + 1) k hlist hcur hb (by omega)
      (by rw [k.point]; simp only [List.length_append, List.length_cons]; omega)
  have hcmem : c ∈ done ++ [i] := hlist₁ ▸ by simp
  -- a region before that of the object ends below it
  have hle : p₁.top ≤ o := by
    rcases List.mem_append.mp hcmem with hd | hd
    · have := Layout.bottom_add_le (L := L) (hlt c hd)
      omega
    · exact hcur₁ (by simpa using hd)
  obtain ⟨m, r, hm, hrec, k₂, hw₂⟩ :=
    k₁.put_of hslides (by omega) hfits (hlist₁ ▸ hnew)
  refine ⟨before₁, c, after₁, p₁.top, _, _,
    k₁.forward_eq (by rw [k.point]; rfl) hroom hm hrec hfits, hlist₁, ⟨k₂, hfull _ rfl⟩, hle,
    fun e => ?_, (hw₁.mono (fun _ h => h) fun _ h => h.elim).trans
      (hw₂.mono (fun _ e => e ▸ hcmem) fun _ h => h)⟩
  have := hcur₁ e
  show p₁.top + _ ≤ _
  unfold Object.limit
  omega

/-- Objects went into some regions in this order, each to a place at or below its own. -/
structure Grown (fill fill' : Nat → List (Nat × Nat)) (ks os : List Nat) : Prop where
  same : ∀ k, k ∉ ks → fill' k = fill k
  keeps : ∀ k, ∀ q ∈ fill k, q ∈ fill' k
  only : ∀ k, ∀ q ∈ fill' k, q ∈ fill k ∨ q.1 ∈ os ∧ q.2 ≤ q.1
  all : ∀ o ∈ os, ∃ k ∈ ks, ∃ q, q ≤ o ∧ (o, q) ∈ fill' k
  order : (ks.flatMap fill').map Prod.fst = (ks.flatMap fill).map Prod.fst ++ os

namespace Grown

variable {fill fill' fill'' : Nat → List (Nat × Nat)} {ks os os' : List Nat}

theorem refl (fill : Nat → List (Nat × Nat)) (ks : List Nat) : Grown fill fill ks [] :=
  ⟨fun _ _ => rfl, fun _ _ h => h, fun _ _ h => .inl h, by simp, by simp⟩

theorem trans (g : Grown fill fill' ks os) (g' : Grown fill' fill'' ks os') :
    Grown fill fill'' ks (os ++ os') := by
  refine ⟨fun k hk => (g'.same k hk).trans (g.same k hk),
    fun k q hq => g'.keeps k q (g.keeps k q hq), fun k q hq => ?_, fun o ho => ?_,
    by rw [g'.order, g.order, List.append_assoc]⟩
  · rcases g'.only k q hq with hq | ⟨hq, hle⟩
    · rcases g.only k q hq with hq | ⟨hq, hle⟩
      · exact .inl hq
      · exact .inr ⟨List.mem_append_left _ hq, hle⟩
    · exact .inr ⟨List.mem_append_right _ hq, hle⟩
  · rcases List.mem_append.mp ho with ho | ho
    · obtain ⟨k, hk, q, hle, hq⟩ := g.all o ho
      exact ⟨k, hk, q, hle, g'.keeps k _ hq⟩
    · exact g'.all o ho

theorem extend {extra : List Nat} (g : Grown fill fill' ks os) (he : ∀ k ∈ extra, fill' k = []) :
    Grown fill fill' (ks ++ extra) os := by
  have he' : ∀ k ∈ extra, fill k = [] := fun k hk =>
    List.eq_nil_iff_forall_not_mem.mpr fun q hq => by
      have := g.keeps k q hq
      simp [he k hk] at this
  refine ⟨fun k hk => g.same k fun h => hk (List.mem_append_left _ h), g.keeps, g.only,
    fun o ho => ?_, ?_⟩
  · obtain ⟨k, hk, hq⟩ := g.all o ho
    exact ⟨k, List.mem_append_left _ hk, hq⟩
  · rw [List.flatMap_append, List.flatMap_append, List.flatMap_eq_nil_iff.mpr he,
      List.flatMap_eq_nil_iff.mpr he', List.append_nil, List.append_nil, g.order]

theorem push {before after : List Nat} {k o q : Nat} (hnodup : (before ++ k :: after).Nodup)
    (he : ∀ j ∈ after, fill j = []) (hle : q ≤ o) :
    Grown fill (push fill k (o, q)) (before ++ k :: after) [o] := by
  have hother : ∀ {j}, j ≠ k → CompactionPoint.push fill k (o, q) j = fill j := fun h => if_neg h
  have hself : CompactionPoint.push fill k (o, q) k = fill k ++ [(o, q)] := if_pos rfl
  refine ⟨fun j hj => hother fun e => hj (by simp [e]), fun j p hp => ?_, fun j p hp => ?_,
    fun o' ho => ?_, ?_⟩
  · by_cases e : j = k
    · rw [e, hself]
      exact List.mem_append_left _ (e ▸ hp)
    · rwa [hother e]
  · by_cases e : j = k
    · subst e
      rw [hself, List.mem_append, List.mem_singleton] at hp
      rcases hp with hp | rfl
      · exact .inl hp
      · exact .inr ⟨by simp, hle⟩
    · exact .inl (hother e ▸ hp)
  · obtain rfl : o' = o := by simpa using ho
    exact ⟨k, by simp, q, hle, by simp [hself]⟩
  · rw [List.nodup_append, List.nodup_cons] at hnodup
    have hbefore : before.flatMap (CompactionPoint.push fill k (o, q)) = before.flatMap fill :=
      List.flatMap_congr fun j hj => hother (hnodup.2.2 j hj k (by simp))
    have hafter : after.flatMap (CompactionPoint.push fill k (o, q)) = [] :=
      List.flatMap_eq_nil_iff.mpr fun j hj =>
        (hother fun e => hnodup.2.1.1 (e ▸ hj)).trans (he j hj)
    simp only [List.flatMap_append, List.flatMap_cons, hbefore, hself, hafter,
      List.flatMap_eq_nil_iff.mpr he, List.append_nil, List.map_append, List.map_cons,
      List.map_nil, List.append_assoc]

end Grown

/-- Those live objects of a region that were seen are forwarded, as far as they were asked for. -/
structure Forwarding (h : Heap) (L : Layout) (clearSoft : Bool) (threshold : Nat) (t : RegionTable)
    (ks rest : List Nat) (i : Nat) (asked : Nat → Bool) (fill : Nat → List (Nat × Nat))
    (s : Plan) (seen left : List Nat) (x : CompactionPoint × Plan) (before : List Nat) (cur : Nat)
    (after : List Nat) (fill' : Nat → List (Nat × Nat)) : Prop where
  all : h.liveIn clearSoft i = seen ++ left
  regions : before ++ cur :: after = ks
  settled : Settled h L clearSoft threshold t before cur after rest fill' x.1 x.2
  below : cur = i → ∀ o ∈ left, x.1.top ≤ o
  grown : Grown fill fill' ks (seen.filter asked)
  within : Plan.Within (· ∈ ks) (· ∈ seen.filter asked) s x.2

namespace Forwarding

variable {asked : Nat → Bool} {seen left : List Nat} {x : CompactionPoint × Plan}
  {fill' : Nat → List (Nat × Nat)}
  (g : Forwarding h L clearSoft threshold t (done ++ [i]) rest i asked fill s seen (o :: left) x
    before cur after fill')

include g

theorem skip (hao : asked o = false) :
    Forwarding h L clearSoft threshold t (done ++ [i]) rest i asked fill s (seen ++ [o]) left x
      before cur after fill' :=
  ⟨by simp [g.all], g.regions, g.settled, fun e o' ho' => g.below e o' (by simp [ho']),
    by simpa [hao] using g.grown, by simpa [hao] using g.within⟩

theorem fresh (w : h.Consistent L) (hi : i < L.count) : o ∉ seen := by
  have hnodup : (h.liveIn clearSoft i).Nodup := (w.liveIn_sorted hi).imp Nat.ne_of_lt
  rw [g.all, List.nodup_append] at hnodup
  exact fun hm => hnodup.2.2 o hm o (by simp) rfl

theorem step (w : h.Consistent L) (hi : i < L.count) (hlt : ∀ j ∈ done, j < i)
    (hnew : ∀ j ∈ done ++ [i], ∀ q ∈ fill j, q.1 ∈ h.liveIn clearSoft i → asked q.1 = false)
    (hao : asked o = true) :
    ∃ y before' cur' after' fill'', x.1.forward x.2 o (Object.size h.memory o) = .ok y ∧
      Forwarding h L clearSoft threshold t (done ++ [i]) rest i asked fill s (seen ++ [o]) left y
        before' cur' after' fill'' := by
  have ho : o ∈ h.liveIn clearSoft i := g.all ▸ by simp
  have hfresh := g.fresh w hi
  have hnext : ∀ o' ∈ left, Object.limit h.memory o ≤ o' := by
    have hap : (h.liveIn clearSoft i).Pairwise fun o p => Object.limit h.memory o ≤ p :=
      w.liveIn_apart hi
    rw [g.all, List.pairwise_append, List.pairwise_cons] at hap
    exact hap.2.1.1
  -- nothing that was placed so far is this object: it is asked for, and not seen before
  obtain ⟨before', cur', after', q, p', s', hf, hl', k', hle, hc', hw'⟩ :=
    forward_of w g.settled g.regions hlt (fun e => g.below e o (by simp)) ho (fun j hj q hq => by
      rcases g.grown.only j q hq with hq | ⟨hq, -⟩
      · intro e
        have := hnew j hj q hq (e ▸ ho)
        rw [e, hao] at this
        contradiction
      · exact fun e => hfresh (e ▸ (List.mem_filter.mp hq).1))
  have hcm : cur' ∈ done ++ [i] := hl' ▸ by simp
  refine ⟨(p', s'), before', cur', after', _, hf, by simp [g.all], hl', k',
    fun e o' ho' => Nat.le_trans (hc' e) (hnext o' ho'), ?_, ?_⟩
  · rw [List.filter_append]
    have hnodup := k'.nodup
    rw [show before' ++ cur' :: (after' ++ rest) = (before' ++ cur' :: after') ++ rest by simp,
      List.nodup_append] at hnodup
    have hlast : Grown fill' (CompactionPoint.push fill' cur' (o, q))
        (before' ++ cur' :: after') [o] :=
      .push hnodup.1 (fun j hj => by
        have := k'.empty j (List.mem_append_left _ hj)
        unfold CompactionPoint.push at this
        split at this
        · simp at this
        · exact this) hle
    simpa [hao] using g.grown.trans (hl' ▸ hlast)
  · refine (g.within.mono (fun _ h => h) fun a ha => ?_).trans
      (hw'.mono (fun _ h => h) fun a ha => ?_)
    · rw [List.filter_append]
      exact List.mem_append_left _ ha
    · simp [ha, hao]

theorem visit (w : h.Consistent L) (hi : i < L.count) (hlt : ∀ j ∈ done, j < i)
    (hnew : ∀ j ∈ done ++ [i], ∀ q ∈ fill j, q.1 ∈ h.liveIn clearSoft i → asked q.1 = false)
    {which : Memory → Nat → Checked Bool} (hwhich : ∀ o ∈ h.liveIn clearSoft i, ∀ m : Memory,
      m.read o = s.table.memory.read o → which m o = .ok (asked o)) :
    ∃ y, (do
        let words := Object.size x.2.table.memory o
        if ← which x.2.table.memory o then
          let state ← x.1.forward x.2 o words
          return (words, state)
        return (words, x.1, x.2)) = .ok (Object.size h.memory o, y) ∧
      ∃ seen' before' cur' after' fill'', Forwarding h L clearSoft threshold t (done ++ [i]) rest i
        asked fill s seen' left y before' cur' after' fill'' := by
  have ho : o ∈ h.liveIn clearSoft i := g.all ▸ by simp
  have hsize : Object.size x.2.table.memory o = Object.size h.memory o :=
    g.settled.plan.size w (w.isObject hi (Heap.mem_liveIn.mp ho).1)
  have hask := hwhich o ho x.2.table.memory
    (g.within.memory o fun hm => g.fresh w hi (List.mem_filter.mp hm).1)
  cases hao : asked o with
  | false =>
    refine ⟨x, ?_, _, _, _, _, _, g.skip hao⟩
    simp only [hask, hao, hsize, Checked.ok_bind, Bool.false_eq_true, if_false, Checked.pure_eq]
  | true =>
    obtain ⟨y, _, _, _, _, hf, g'⟩ := g.step w hi hlt hnew hao
    refine ⟨y, ?_, _, _, _, _, _, g'⟩
    simp only [hask, hao, hsize, hf, Checked.ok_bind, if_true, Checked.pure_eq]

end Forwarding

theorem emptyTarget_of (f : s.Of h L clearSoft threshold t) (hi : i < L.count)
    (hf : h.fate clearSoft threshold i = .compacting) :
    ∃ s', Collector.emptyTarget s i = .ok s' ∧ s'.Of h L clearSoft threshold t ∧
      Table.entry s'.tops i = L.bottom i ∧ Plan.Within (· = i) (fun _ => False) s s' := by
  have hz : i < s.tops.size := f.tops ▸ hi
  have hl := f.laid.region i hi
  have hlaid : (s.table.region i).resetBlocks.Laid L i :=
    ⟨hl.index, hl.bottom, hl.limit, hl.blocksBottom, hl.blocksLimit,
      by simp [Region.resetBlocks, BlockTable.reset, hl.blocks], hl.bottom_le, hl.top_le, hl.aligned⟩
  have hupdate : s.table.update i (fun r => .ok r.resetBlocks) =
      .ok (s.table.put i (s.table.region i).resetBlocks) := f.laid.update_of hi rfl
  refine ⟨⟨s.table.put i (s.table.region i).resetBlocks,
    s.tops.setIfInBounds i (s.table.region i).bottom⟩, ?_,
    (f.putBlocks hi hf rfl hlaid).setTop i _, ?_, {
      region := fun j hj => (f.laid.region_put_of hi _ j).trans (if_neg (Ne.symm hj))
      top := fun j hj => Table.entry_set_of_ne _ (Ne.symm hj) _
      memory := fun _ _ => rfl }⟩
  · simp only [Collector.emptyTarget, f.laid.get_of hi, Plan.setTop, Table.set_of_lt hz,
      Checked.ok_bind, Checked.pure_eq, hupdate]
  · rw [Table.entry_set_self hz, hl.bottom]

theorem Settled.extend
    (k : Settled h L clearSoft threshold t before cur after (i :: rest) fill p s) :
    ∃ s', Collector.emptyTarget s i = .ok s' ∧
      Settled h L clearSoft threshold t before cur (after ++ [i]) rest fill p s' ∧
      Plan.Within (· = i) (fun _ => False) s s' := by
  obtain ⟨hi, hf⟩ := k.inside i (by simp)
  obtain ⟨s', he, hplan, htop, hw⟩ := emptyTarget_of k.plan hi hf
  have hsplit : after ++ i :: rest = after ++ [i] ++ rest := by simp
  have hne : ∀ j, j ∈ before ++ cur :: after → j ≠ i := by
    have := k.nodup
    rw [show before ++ cur :: (after ++ i :: rest) = (before ++ cur :: after) ++ i :: rest by simp,
      List.nodup_append] at this
    exact fun j hj => this.2.2 j hj i (by simp)
  refine ⟨s', he, ⟨⟨hsplit ▸ k.point, hplan, hsplit ▸ k.nodup, hsplit ▸ k.inside, fun j hj => ?_,
    k.current.within hw (hne cur (by simp)) (by simp), hsplit ▸ k.empty, fun j hj => ?_⟩, k.full⟩,
    hw⟩
  · have := hne j (by simp [hj])
    rw [hw.top j this]
    exact (k.filled j hj).within hw this (by simp)
  · rcases List.mem_append.mp hj with hj | hj
    · rw [hw.top j (hne j (by simp [hj])), k.bottoms j hj]
    · obtain rfl : j = i := by simpa using hj
      exact htop

theorem start_of {regions : List Nat} (fill : Nat → List (Nat × Nat))
    (hp : p.regions = i :: regions) {top : Nat}
    (f : s.Of h L clearSoft threshold t) (htop : Table.entry s.tops i = top)
    (hd : (i :: regions).Nodup)
    (hin : ∀ k ∈ i :: regions, k < L.count ∧ h.fate clearSoft threshold k = .compacting)
    (hfill : Filled (Object.size h.memory) L s i (fill i) top) (he : ∀ k ∈ regions, fill k = []) :
    ∃ p', p.start s = .ok p' ∧ p'.top = top ∧
      Settled h L clearSoft threshold t [] i [] regions fill p' s := by
  have hi := (hin i (by simp)).1
  refine ⟨{ p with current := some 0, top := top }, ?_, rfl, ⟨?_, f, hd, hin, by simp, hfill,
    by simpa using he, by simp⟩, .singleton i⟩
  · rw [start, hp]
    simp only [Plan.top, Table.get_of_lt (show i < s.tops.size from f.tops ▸ hi), htop,
      Checked.ok_bind, Checked.pure_eq]
  · simp [hp]

section Forward

variable (w : h.Consistent L)
  (ht : ∀ j, j < L.count → h.fate clearSoft threshold j = .compacting →
    (t.region j).top = (h.region j).top)
  {l : LivenessMap} (hl : l.Laid L)
  (he : ∀ o, L.IsWord o → (l.marked L o = true ↔ h.Traced clearSoft o))

include w ht hl he

/-- The live objects of a region are forwarded, as far as they are asked for. -/
theorem forwardRegion_of (which : Memory → Nat → Checked Bool) (asked : Nat → Bool)
    (k : Settled h L clearSoft threshold t before cur after rest fill p s)
    (hlist : before ++ cur :: after = done ++ [i]) (hlt : ∀ j ∈ done, j < i)
    (hcur : cur = i → p.top ≤ L.bottom i)
    (hnew : ∀ j ∈ done ++ [i], ∀ q ∈ fill j, q.1 ∈ h.liveIn clearSoft i → asked q.1 = false)
    (hwhich : ∀ o ∈ h.liveIn clearSoft i, ∀ m : Memory,
      m.read o = s.table.memory.read o → which m o = .ok (asked o)) :
    ∃ before' cur' after' fill' p' s',
      Collector.forwardRegion l which p s i = .ok (p', s') ∧
      before' ++ cur' :: after' = done ++ [i] ∧
      Settled h L clearSoft threshold t before' cur' after' rest fill' p' s' ∧
      Grown fill fill' (done ++ [i]) ((h.liveIn clearSoft i).filter asked) ∧
      Plan.Within (· ∈ done ++ [i]) (· ∈ (h.liveIn clearSoft i).filter asked) s s' := by
  obtain ⟨hi, hfate⟩ := k.source_of hlist
  have hr := k.plan.laid.region i hi
  have htop : (s.table.region i).top = (h.region i).top := by
    rw [(k.plan.region i hi).top, ht i hi hfate]
  -- planning changes no marks, so that the walk meets the live objects in ascending order
  have walk := w.walkInvariant hi hl he htop
    (I := fun left x => ∃ seen before' cur' after' fill', Forwarding h L clearSoft threshold t
      (done ++ [i]) rest i asked fill s seen left x before' cur' after' fill')
    (fun _ _ ⟨seen, _, _, _, _, g⟩ => ⟨seen, g.all⟩)
    (fun _ _ _ ⟨_, _, _, _, _, g⟩ => g.visit w hi hlt hnew hwhich)
  have hbelow : ∀ o ∈ h.liveIn clearSoft i, L.bottom i ≤ o := fun o ho => by
    obtain ⟨hword, hregion, -⟩ := w.liveIn_inside hi ho
    exact (Layout.bounds_of_regionOf hword.start_le hregion).1
  obtain ⟨⟨p', s'⟩, hwalk, seen, before', cur', after', fill', g⟩ :=
    LivenessMap.walk_of walk hi hr.top_le hr.aligned (w.liveIn_apart hi) (s := (p, s))
      ⟨[], before, cur, after, fill, rfl, hlist, k,
        fun e o ho => Nat.le_trans (hcur e) (hbelow o ho), by simpa using Grown.refl fill _,
        .refl s⟩
  have hseen : h.liveIn clearSoft i = seen := g.all.trans (List.append_nil seen)
  refine ⟨before', cur', after', fill', p', s', ?_, g.regions, g.settled, hseen ▸ g.grown,
    hseen ▸ g.within⟩
  rw [Collector.forwardRegion, Checked.bind_of (k.plan.laid.get_of hi)]
  exact hwalk

theorem slideRegion_of (which : Memory → Nat → Checked Bool) (asked : Nat → Bool)
    (k : Settled h L clearSoft threshold t before cur after (i :: rest) fill p s)
    (hlt : ∀ j ∈ before ++ cur :: after, j < i)
    (hnew : ∀ j, ∀ q ∈ fill j, q.1 ∈ h.liveIn clearSoft i → asked q.1 = false)
    (hwhich : ∀ o ∈ h.liveIn clearSoft i, ∀ m : Memory,
      m.read o = s.table.memory.read o → which m o = .ok (asked o)) :
    ∃ before' cur' after' fill' s₁ p' s', Collector.emptyTarget s i = .ok s₁ ∧
      Collector.forwardRegion l which p s₁ i = .ok (p', s') ∧
      before' ++ cur' :: after' = before ++ cur :: after ++ [i] ∧
      Settled h L clearSoft threshold t before' cur' after' rest fill' p' s' ∧
      Grown fill fill' (before ++ cur :: after ++ [i]) ((h.liveIn clearSoft i).filter asked) ∧
      Plan.Within (· ∈ before ++ cur :: after ++ [i]) (· ∈ (h.liveIn clearSoft i).filter asked)
        s s' := by
  obtain ⟨s₁, hs, k₁, hw₁⟩ := k.extend
  obtain ⟨before', cur', after', fill', p', s', hf, hlist, k', g, hw⟩ :=
    forwardRegion_of w ht hl he which asked k₁
      (show before ++ cur :: (after ++ [i]) = (before ++ cur :: after) ++ [i] by simp) hlt
      (fun e => by
        have := hlt cur (by simp)
        omega)
      (fun j _ => hnew j) fun o ho m hm => hwhich o ho m (hm.trans (hw₁.memory o (by simp)))
  exact ⟨before', cur', after', fill', s₁, p', s', hs, hf, hlist, k', g,
    (hw₁.mono (fun _ e => by simp [e]) fun _ h => h.elim).trans hw⟩

end Forward

end RegionHeap.CompactionPoint
