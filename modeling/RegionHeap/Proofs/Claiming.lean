import Mathlib.Data.List.Rotate
import RegionHeap.Proofs.Sums
import RegionHeap.Schedule.ClaimingGang

/-!
Every region is claimed once. Each walk of a claimer passes every region, so that whoever gets to
the end of one leaves no region unclaimed behind; and of all workers that come to a region only the
one whose exchange passes claims it. Nothing of this depends on the order in which workers take
their steps, nor on workers that stop early.
-/
set_option autoImplicit false

namespace RegionHeap

namespace Claimer

variable {c c' : Claimer} {n m w a : Nat}

theorem create_eq_ok (h : create n m = .ok c) :
    c.workers = n ∧ c.regions = m ∧ c.claimed = Array.replicate c.regions false := by
  simp only [create, Table.replicate, Checked.bind_eq_ok, Checked.pure_eq, Except.ok.injEq] at h
  obtain ⟨-, -, _, ⟨-, -, rfl⟩, rfl⟩ := h
  simp [regions]

theorem offset_eq_ok : c.offset w = .ok a ↔
    w < c.workers ∧ c.regions * w < Word.limit ∧ a = c.regions * w / c.workers := by
  simp only [offset, Checked.bind_eq_ok, Fault.unless_eq_ok, decide_eq_true_eq, Word.mul_eq_ok,
    Checked.pure_eq, Except.ok.injEq]
  constructor
  · rintro ⟨-, hw, _, ⟨hl, rfl⟩, rfl⟩
    exact ⟨hw, hl, rfl⟩
  · rintro ⟨hw, hl, rfl⟩
    exact ⟨(), hw, _, ⟨hl, rfl⟩, rfl⟩

theorem offset_mono {v b : Nat} (hv : v ≤ w) (ha : c.offset v = .ok a) (hb : c.offset w = .ok b) :
    a ≤ b := by
  obtain ⟨-, -, rfl⟩ := offset_eq_ok.mp ha
  obtain ⟨-, -, rfl⟩ := offset_eq_ok.mp hb
  exact Nat.div_le_div_right (Nat.mul_le_mul_left _ hv)

theorem offset_lt (hm : 0 < c.regions) (ha : c.offset w = .ok a) : a < c.regions := by
  obtain ⟨hw, -, rfl⟩ := offset_eq_ok.mp ha
  exact Nat.div_lt_of_lt_mul (Nat.mul_comm c.workers _ ▸ Nat.mul_lt_mul_of_pos_left hw hm)

theorem orderFrom_eq_rotate (m start : Nat) : orderFrom m start = (List.range m).rotate start := by
  refine List.ext_getElem (by simp [orderFrom]) fun i h _ => ?_
  simp [orderFrom, List.getElem_rotate, Nat.add_comm]

theorem orderFrom_perm (m start : Nat) : (orderFrom m start).Perm (List.range m) :=
  orderFrom_eq_rotate m start ▸ List.rotate_perm _ _

theorem head_orderFrom (h : a < m) : (orderFrom m a).head? = some a := by
  obtain ⟨m, rfl⟩ : ∃ k, m = k + 1 := ⟨m - 1, by omega⟩
  simp [orderFrom, List.range_succ_eq_map, Nat.mod_eq_of_lt h]

theorem order_of_offset (h : c.offset w = .ok a) : c.order w = .ok (orderFrom c.regions a) := by
  rw [order, h]
  rfl

theorem order_of_overflow (hw : w < c.workers) (h : Word.limit ≤ c.regions * w) :
    c.order w = .error .overflow := by
  rw [order, offset, Word.mul, if_neg (Nat.not_lt.mpr h)]
  simp [hw]

/-- The walk of a worker, whether from the first region on or not, passes every region once. -/
theorem walk_of {fromStart : Bool} (hw : w < c.workers)
    (h : fromStart = false → c.regions * w < Word.limit) :
    ∃ walk, c.walk fromStart w = .ok walk ∧ walk.Perm (List.range c.regions) := by
  cases fromStart with
  | true => exact ⟨_, rfl, .refl _⟩
  | false => exact ⟨_, order_of_offset (offset_eq_ok.mpr ⟨hw, h rfl, rfl⟩), orderFrom_perm _ _⟩

theorem walks_of {fromStart : Bool} {workers : List Nat} (h : ∀ w ∈ workers,
    w < c.workers ∧ (fromStart = false → c.regions * w < Word.limit)) :
    ∃ walks, workers.mapM (c.walk fromStart) = .ok walks ∧ walks.length = workers.length ∧
      ∀ walk ∈ walks, walk.Perm (List.range c.regions) := by
  obtain ⟨walks, hwalks, hlength, hall⟩ := Checked.mapM_exists (f := c.walk fromStart)
    (P := fun _ walk => walk.Perm (List.range c.regions)) fun w hw => walk_of (h w hw).1 (h w hw).2
  refine ⟨walks, hwalks, hlength, fun walk hwalk => ?_⟩
  obtain ⟨k, hk⟩ := List.getElem?_of_mem hwalk
  have hlt : k < workers.length := hlength ▸ (List.getElem?_eq_some_iff.mp hk).1
  obtain ⟨walk', hwalk', hp⟩ := hall k _ (List.getElem?_eq_getElem hlt)
  obtain rfl := Option.some.inj (hk.symm.trans hwalk')
  exact hp

theorem claim_of {i : Nat} {marked : Bool} (h : c.claimed[i]? = some marked) :
    c.claim i = .ok (!marked, if marked then c else { c with claimed := c.claimed.set! i true }) := by
  rw [claim, Checked.bind_of (Table.get_eq_ok.mpr h)]
  cases marked <;> rfl

end Claimer

/-- How many steps a worker needs at most to get to the end of its walk. -/
def ClaimWorker.left (w : ClaimWorker) : Nat := 2 * w.walk.length - w.looked.toNat

namespace ClaimingGang

variable {g g' : ClaimingGang} {k m : Nat} {w w' : ClaimWorker}

/-- The next region of a worker is claimed already, is seen unclaimed, or is claimed by it now. -/
inductive Moves (g : ClaimingGang) (k : Nat) : ClaimingGang → Prop where
  /-- There is no such worker, or it is at the end of its walk. -/
  | rests : (∀ w, g.workers[k]? = some w → w.walk = []) → Moves g k g
  | skips {w : ClaimWorker} {i : Nat} {rest : List Nat} :
    g.workers[k]? = some w → w.walk = i :: rest → g.claimer.claimed[i]? = some true →
    Moves g k (g.put k ⟨rest, false, w.taken⟩)
  | looks {w : ClaimWorker} {i : Nat} {rest : List Nat} :
    g.workers[k]? = some w → w.walk = i :: rest → w.looked = false →
    Moves g k (g.put k { w with looked := true })
  | claims {w : ClaimWorker} {i : Nat} {rest : List Nat} :
    g.workers[k]? = some w → w.walk = i :: rest → g.claimer.claimed[i]? = some false →
    Moves g k ({ g with claimer :=
      { g.claimer with claimed := g.claimer.claimed.set! i true } }.put k
        ⟨rest, false, w.taken ++ [i]⟩)

theorem step_of (h : ∀ w ∈ g.workers, ∀ i ∈ w.walk, i < g.claimer.claimed.size) (k : Nat) :
    ∃ g', g.step k = .ok g' ∧ g.Moves k g' := by
  unfold step
  cases hw : g.workers[k]? with
  | none => exact ⟨g, rfl, .rests (by simp [hw])⟩
  | some w =>
    obtain ⟨walk, looked, taken⟩ := w
    cases walk with
    | nil => exact ⟨g, rfl, .rests fun w h => by rw [hw] at h; exact Option.some.inj h ▸ rfl⟩
    | cons i rest =>
      have hi := h _ (List.mem_of_getElem? hw) i (by simp)
      obtain ⟨marked, hmarked⟩ : ∃ marked, g.claimer.claimed[i]? = some marked :=
        ⟨_, Array.getElem?_eq_getElem hi⟩
      cases looked with
      | false =>
        refine ⟨_, Checked.bind_of (Table.get_eq_ok.mpr hmarked) _, ?_⟩
        cases marked with
        | true => exact .skips hw rfl hmarked
        | false => exact .looks hw rfl rfl
      | true =>
        refine ⟨_, Checked.bind_of (Claimer.claim_of hmarked) _, ?_⟩
        cases marked with
        | true => exact .skips hw rfl hmarked
        | false => exact .claims hw rfl hmarked

/-- The workers have claimed the regions whose marks are set, each of them once, and whatever a
worker has left behind is claimed. -/
structure Claiming (m : Nat) (g : ClaimingGang) : Prop where
  size : g.claimer.claimed.size = m
  inside : ∀ w ∈ g.workers, ∀ i ∈ w.walk, i < m
  passed : ∀ w ∈ g.workers, ∀ i, i < m → i ∈ w.walk ∨ g.claimer.claimed[i]? = some true
  taken : ∀ i, i ∈ g.taken ↔ g.claimer.claimed[i]? = some true
  nodup : g.taken.Nodup

namespace Claiming

variable {i : Nat} {rest : List Nat}

theorem lt_of_mem (h : g.Claiming m) (hi : i ∈ g.taken) : i < m :=
  h.size ▸ (Array.getElem?_eq_some_iff.mp ((h.taken i).mp hi)).1

theorem put (h : g.Claiming m) (hw : g.workers[k]? = some w) (ht : w'.taken = w.taken)
    (hsub : ∀ i ∈ w'.walk, i ∈ w.walk)
    (hpassed : ∀ i ∈ w.walk, i ∈ w'.walk ∨ g.claimer.claimed[i]? = some true) :
    (g.put k w').Claiming m := by
  have htaken : (g.put k w').taken = g.taken := flatMap_set_of_eq hw ht
  have hmem := List.mem_of_getElem? hw
  refine ⟨h.size, fun v hv i hi => ?_, fun v hv i hi => ?_, htaken ▸ h.taken, htaken ▸ h.nodup⟩
  · rcases List.mem_or_eq_of_mem_set hv with hv | rfl
    · exact h.inside v hv i hi
    · exact h.inside w hmem i (hsub i hi)
  · rcases List.mem_or_eq_of_mem_set hv with hv | rfl
    · exact h.passed v hv i hi
    · exact (h.passed w hmem i hi).elim (hpassed i) .inr

/-- A worker claims a region whose mark is not set. -/
theorem claim (h : g.Claiming m) (hw : g.workers[k]? = some w) (hi : w.walk = i :: rest)
    (hfree : g.claimer.claimed[i]? = some false) :
    ({ g with claimer := { g.claimer with claimed := g.claimer.claimed.set! i true } }.put k
      ⟨rest, false, w.taken ++ [i]⟩).Claiming m := by
  have hmem := List.mem_of_getElem? hw
  have hlt : i < g.claimer.claimed.size := (Array.getElem?_eq_some_iff.mp hfree).1
  have hmark : ∀ j, (g.claimer.claimed.set! i true)[j]? =
      if i = j then some true else g.claimer.claimed[j]? := fun j => by
    rw [Array.set!_eq_setIfInBounds, Array.getElem?_setIfInBounds, if_pos hlt]
  have hkept : ∀ {j}, g.claimer.claimed[j]? = some true →
      (g.claimer.claimed.set! i true)[j]? = some true := fun {j} hj => by
    rw [hmark]
    split
    · rfl
    · exact hj
  have htaken : ({ g with claimer := { g.claimer with
      claimed := g.claimer.claimed.set! i true } }.put k ⟨rest, false, w.taken ++ [i]⟩).taken.Perm
      (i :: g.taken) := by
    have hgain := flatMap_set_perm (f := ClaimWorker.taken) (y := ⟨rest, false, w.taken ++ [i]⟩)
      [] [i] hw (.of_eq (List.append_nil _))
    rw [List.append_nil] at hgain
    exact hgain.trans (List.perm_append_singleton _ _)
  refine {
    size := by simpa [ClaimingGang.put] using h.size
    inside := fun v hv j hj => ?inside
    passed := fun v hv j hj => ?passed
    taken := fun j => ?taken
    nodup := htaken.nodup_iff.mpr (List.nodup_cons.mpr ⟨fun hm => ?nodup, h.nodup⟩) }
  case inside =>
    rcases List.mem_or_eq_of_mem_set hv with hv | rfl
    · exact h.inside v hv j hj
    · exact h.inside w hmem j (hi ▸ List.mem_cons_of_mem i hj)
  case passed =>
    rcases List.mem_or_eq_of_mem_set hv with hv | rfl
    · exact (h.passed v hv j hj).imp_right hkept
    · rcases h.passed w hmem j hj with hj | hj
      · rw [hi] at hj
        rcases List.mem_cons.mp hj with rfl | hj
        · exact .inr ((hmark j).trans (if_pos rfl))
        · exact .inl hj
      · exact .inr (hkept hj)
  case taken =>
    refine htaken.mem_iff.trans ?_
    show _ ↔ (g.claimer.claimed.set! i true)[j]? = some true
    rw [hmark, List.mem_cons, h.taken]
    by_cases e : i = j
    · simp [e]
    · simp [e, Ne.symm e]
  case nodup =>
    -- whoever had claimed the region would have set its mark
    rw [(h.taken i).mp hm] at hfree
    contradiction

theorem step (h : g.Claiming m) (k : Nat) : ∃ g', g.step k = .ok g' ∧ g.Moves k g' ∧
    g'.Claiming m := by
  obtain ⟨g', hstep, hmoves⟩ := step_of (fun w hw i hi => h.size ▸ h.inside w hw i hi) k
  refine ⟨g', hstep, hmoves, ?_⟩
  cases hmoves with
  | rests _ => exact h
  | skips hw hi hclaimed =>
    refine h.put hw rfl (fun j hj => hi ▸ List.mem_cons_of_mem _ hj) fun j hj => ?_
    rw [hi] at hj
    rcases List.mem_cons.mp hj with rfl | hj
    · exact .inr hclaimed
    · exact .inl hj
  | looks hw _ _ => exact h.put hw rfl (fun _ => id) fun _ => .inl
  | claims hw hi hfree => exact h.claim hw hi hfree

theorem run (h : g.Claiming m) (schedule : List Nat) :
    ∃ g', g.run schedule = .ok g' ∧ g'.Claiming m :=
  Checked.foldlM_of (f := ClaimingGang.step) (fun _ g => g.Claiming m)
    (fun k _ _ h => (h.step k).imp fun _ hg => ⟨hg.1, hg.2.2⟩) schedule g h

theorem complete (h : g.Claiming m) (hdone : g.someoneDone = true) :
    g.taken.Perm (List.range m) := by
  obtain ⟨w, hw, he⟩ := List.any_eq_true.mp hdone
  refine (List.perm_ext_iff_of_nodup h.nodup List.nodup_range).mpr fun i => ?_
  rw [List.mem_range]
  refine ⟨h.lt_of_mem, fun hi => (h.taken i).mpr ((h.passed w hw i hi).resolve_left ?_)⟩
  rw [List.isEmpty_iff.mp he]
  exact List.not_mem_nil

end Claiming

theorem done_of_left (h : w.left = 0) : w.walk = [] := by
  refine List.length_eq_zero_iff.mp ?_
  have := Bool.toNat_le w.looked
  unfold ClaimWorker.left at h
  omega

/-- A worker that takes a step comes closer to the end of its walk, and the others stay where they
are. -/
theorem Moves.left {j : Nat} (h : g.Moves k g') (hw : g.workers[j]? = some w) :
    ∃ w', g'.workers[j]? = some w' ∧ w'.left ≤ w.left - if j = k then 1 else 0 := by
  have hput : ∀ {v v' : ClaimWorker} {claimer : Claimer}, g.workers[k]? = some v →
      v'.left < v.left → ∃ w', ((ClaimingGang.mk claimer g.workers).put k v').workers[j]? = some w' ∧
        w'.left ≤ w.left - if j = k then 1 else 0 := by
    intro v v' claimer hv hlt
    have hset := List.getElem?_set (l := g.workers) (i := k) (j := j) (a := v')
    by_cases e : k = j
    · subst e
      obtain rfl : w = v := Option.some.inj (hw.symm.trans hv)
      have hlen := (List.getElem?_eq_some_iff.mp hv).1
      refine ⟨v', hset.trans (by simp [hlen]), ?_⟩
      rw [if_pos rfl]
      omega
    · exact ⟨w, hset.trans (by rw [if_neg e, hw]), by simp [Ne.symm e]⟩
  cases h with
  | rests hrest =>
    refine ⟨w, hw, ?_⟩
    split
    · next e =>
      have hleft : w.left = 0 := by simp [ClaimWorker.left, hrest w (e ▸ hw)]
      omega
    · exact Nat.le_refl _
  | skips hv hi _ | claims hv hi _ =>
    refine hput hv ?_
    have := Bool.toNat_le (ClaimWorker.looked ‹_›)
    simp only [ClaimWorker.left, hi, List.length_cons, Bool.toNat_false]
    omega
  | looks hv hi hl =>
    refine hput hv ?_
    simp only [ClaimWorker.left, hi, hl, List.length_cons, Bool.toNat_false, Bool.toNat_true]
    omega

theorem Claiming.left {schedule : List Nat} (h : g.Claiming m) (hw : g.workers[k]? = some w)
    (hr : g.run schedule = .ok g') :
    ∃ w', g'.workers[k]? = some w' ∧ w'.left ≤ w.left - schedule.count k := by
  induction schedule generalizing g w with
  | nil =>
    obtain rfl := Except.ok.inj hr
    exact ⟨w, hw, Nat.le_refl _⟩
  | cons j schedule ih =>
    obtain ⟨g₁, hstep, hmoves, h₁⟩ := h.step j
    obtain ⟨w₁, hw₁, hleft₁⟩ := hmoves.left hw
    rw [ClaimingGang.run, List.foldlM_cons, Checked.bind_of hstep] at hr
    obtain ⟨w', hw', hleft⟩ := ih h₁ hw₁ hr
    refine ⟨w', hw', ?_⟩
    rw [List.count_cons]
    by_cases e : k = j
    · subst e
      simp only [beq_self_eq_true, if_true] at hleft₁ ⊢
      omega
    · simp only [if_neg e] at hleft₁
      simp only [beq_iff_eq, Ne.symm e, if_false]
      omega

theorem run_append {schedule schedule' : List Nat} (h : g.run schedule = .ok g') :
    g.run (schedule ++ schedule') = g'.run schedule' := by
  rw [run, List.foldlM_append]
  exact Checked.bind_of h _

theorem put_self (h : g.workers[k]? = some w) : g.put k w = g := by
  rw [put, set_of_getElem? h]

/-- A worker that nobody gets in the way of claims the next region if nobody has claimed it. -/
theorem exists_run_claim {i : Nat} {rest mine : List Nat} {marked : Bool}
    (hw : g.workers[k]? = some ⟨i :: rest, false, mine⟩)
    (hmarked : g.claimer.claimed[i]? = some marked) :
    ∃ schedule, g.run schedule = .ok ({ g with claimer :=
      if marked then g.claimer else { g.claimer with claimed := g.claimer.claimed.set! i true } }.put
        k ⟨rest, false, mine ++ if marked then [] else [i]⟩) := by
  have hlook : g.step k = .ok (g.put k
      (if marked then ⟨rest, false, mine⟩ else ⟨i :: rest, true, mine⟩)) := by
    rw [step, hw]
    exact Checked.bind_of (Table.get_eq_ok.mpr hmarked) _
  cases marked with
  | true => exact ⟨[k], by simp [run, hlook]⟩
  | false =>
    have hlooked : (g.put k ⟨i :: rest, true, mine⟩).workers[k]? = some ⟨i :: rest, true, mine⟩ :=
      List.getElem?_set_self (List.getElem?_eq_some_iff.mp hw).1
    have hexchange : (g.put k ⟨i :: rest, true, mine⟩).step k =
        .ok ({ g with claimer :=
          { g.claimer with claimed := g.claimer.claimed.set! i true } }.put k
            ⟨rest, false, mine ++ [i]⟩) := by
      rw [step, hlooked]
      refine (Checked.bind_of (Claimer.claim_of hmarked) _).trans ?_
      simp [put]
    refine ⟨[k, k], ?_⟩
    rw [run, List.foldlM_cons, Checked.bind_of hlook, List.foldlM_cons]
    exact Checked.bind_of hexchange _

theorem exists_run_claimAll {walk : List Nat} (mine : List Nat) (hw : g.workers[k]? = some ⟨walk, false, mine⟩)
    (hin : ∀ i ∈ walk, i < g.claimer.regions) :
    ∃ taken c schedule, g.claimer.claimAll walk = .ok (taken, c) ∧
      c.regions = g.claimer.regions ∧
      g.run schedule = .ok ({ g with claimer := c }.put k ⟨[], false, mine ++ taken⟩) := by
  induction walk generalizing g mine with
  | nil => exact ⟨[], g.claimer, [], rfl, rfl, by simp [run, put_self hw]⟩
  | cons i rest ih =>
    obtain ⟨marked, hmarked⟩ : ∃ marked, g.claimer.claimed[i]? = some marked :=
      ⟨_, Array.getElem?_eq_getElem (hin i (by simp))⟩
    obtain ⟨steps, hsteps⟩ := exists_run_claim hw hmarked
    obtain ⟨c₁, hc₁⟩ : ∃ c, (if marked then g.claimer else
        { g.claimer with claimed := g.claimer.claimed.set! i true }) = c := ⟨_, rfl⟩
    have hregions : c₁.regions = g.claimer.regions := by
      rw [← hc₁]
      cases marked <;> simp [Claimer.regions]
    have hclaim := Claimer.claim_of hmarked
    rw [hc₁] at hsteps hclaim
    obtain ⟨taken, c, schedule, hall, hc, hrun⟩ := ih
      (g := { g with claimer := c₁ }.put k ⟨rest, false, mine ++ if marked then [] else [i]⟩)
      _ (List.getElem?_set_self (List.getElem?_eq_some_iff.mp hw).1)
      fun j hj => hregions ▸ hin j (by simp [hj])
    refine ⟨if !marked then i :: taken else taken, c, steps ++ schedule, ?_, hc.trans hregions, ?_⟩
    · rw [Claimer.claimAll, Checked.bind_of hclaim]
      exact Checked.bind_of hall _
    · rw [run_append hsteps, hrun]
      cases marked <;> simp [put]

theorem exists_run_claimEach {walks : List (List Nat)} (done : List ClaimWorker) {c : Claimer}
    (hin : ∀ walk ∈ walks, ∀ i ∈ walk, i < c.regions) :
    ∃ takens c' schedule, c.claimEach walks = .ok (takens, c') ∧
      run ⟨c, done ++ walks.map fun walk => { walk := walk }⟩ schedule =
        .ok ⟨c', done ++ takens.map fun taken => ⟨[], false, taken⟩⟩ := by
  induction walks generalizing c done with
  | nil => exact ⟨[], c, [], rfl, rfl⟩
  | cons walk walks ih =>
    obtain ⟨taken, c₁, schedule, hall, hregions, hrun⟩ := exists_run_claimAll
      (g := ⟨c, done ++ (walk :: walks).map fun walk => { walk := walk }⟩) (k := done.length)
      [] (by simp) (hin walk (by simp))
    obtain ⟨takens, c', schedule', heach, hrun'⟩ := ih (c := c₁) (done ++ [⟨[], false, taken⟩])
      fun walk' hwalk i hi => hregions ▸ hin walk' (by simp [hwalk]) i hi
    refine ⟨taken :: takens, c', schedule ++ schedule', ?_, ?_⟩
    · rw [Claimer.claimEach, Checked.bind_of hall]
      exact Checked.bind_of heach _
    · rw [run_append hrun]
      simpa [put] using hrun'

theorem Claiming.start {walks : List (List Nat)} {c : Claimer}
    (hc : c.claimed = Array.replicate m false) (hwalks : ∀ walk ∈ walks, walk.Perm (List.range m)) :
    (ClaimingGang.mk c (walks.map fun walk => { walk := walk })).Claiming m := by
  have hwalk : ∀ w ∈ walks.map fun walk => ({ walk := walk } : ClaimWorker),
      ∀ i, i ∈ w.walk ↔ i < m := by
    intro w hw i
    obtain ⟨walk, hmem, rfl⟩ := List.mem_map.mp hw
    exact (hwalks walk hmem).mem_iff.trans List.mem_range
  have htaken : (ClaimingGang.mk c (walks.map fun walk => { walk := walk })).taken = [] := by
    simp [ClaimingGang.taken, List.flatMap_map]
  refine ⟨by simp [hc], fun w hw i hi => (hwalk w hw i).mp hi,
    fun w hw i hi => .inl ((hwalk w hw i).mpr hi), fun i => ?_, ?_⟩
  · rw [htaken, hc, Array.getElem?_replicate]
    split <;> simp
  · rw [htaken]
    exact .nil

/-- What workers have claimed after some steps. -/
structure Exclusive (m : Nat) (g : ClaimingGang) : Prop where
  once : g.taken.Nodup
  inside : ∀ i ∈ g.taken, i < m
  all : g.someoneDone = true → g.taken.Perm (List.range m)

theorem Claiming.exclusive (h : g.Claiming m) : g.Exclusive m :=
  ⟨h.nodup, fun _ => h.lt_of_mem, h.complete⟩

end ClaimingGang

open ClaimingGang in
/-- A worker whose offset can be computed walks from there through all regions, and whatever turns
such workers take each region is claimed by one of them alone, as soon as one is done. -/
theorem Claimer.claims_each_once {n m : Nat} {c : Claimer} (hc : create n m = .ok c) :
    (∀ w a, c.offset w = .ok a ↔ w < n ∧ m * w < Word.limit ∧ a = m * w / n) ∧
    (∀ w, w < n → Word.limit ≤ m * w → c.order w = .error .overflow) ∧
    (∀ v w a b, v ≤ w → c.offset v = .ok a → c.offset w = .ok b → a ≤ b ∧ (0 < m → b < m)) ∧
    (∀ w a, c.offset w = .ok a → ∃ walk, c.order w = .ok walk ∧ walk.Perm (List.range m) ∧
      (0 < m → walk.head? = some a)) ∧
    ∀ (fromStart : Bool) (workers : List Nat),
      (∀ w ∈ workers, w < n ∧ (fromStart = false → m * w < Word.limit)) →
      ∃ g, start c fromStart workers = .ok g ∧
        (∃ schedule g', g.run schedule = .ok g' ∧
          c.share fromStart workers = .ok (g'.workers.map ClaimWorker.taken)) ∧
        ∀ schedule, ∃ g', g.run schedule = .ok g' ∧ g'.Exclusive m ∧
          ∀ k, k < workers.length → 2 * m ≤ schedule.count k →
            ∃ w, g'.workers[k]? = some w ∧ w.walk = [] := by
  obtain ⟨rfl, rfl, hclaimed⟩ := create_eq_ok hc
  refine ⟨fun w a => offset_eq_ok, fun w hw hl => order_of_overflow hw hl,
    fun v w a b hv ha hb => ⟨offset_mono hv ha hb, fun hm => offset_lt hm hb⟩,
    fun w a ha => ⟨_, order_of_offset ha, orderFrom_perm _ _,
      fun hm => head_orderFrom (offset_lt hm ha)⟩, fun fromStart workers hworkers => ?_⟩
  obtain ⟨walks, hwalks, hlength, hperm⟩ := walks_of hworkers
  have hstart := Claiming.start hclaimed hperm
  refine ⟨_, Checked.bind_of hwalks _, ?_, fun schedule => ?_⟩
  · obtain ⟨takens, c', schedule, heach, hrun⟩ := exists_run_claimEach [] (c := c)
      fun walk hwalk i hi => List.mem_range.mp ((hperm walk hwalk).mem_iff.mp hi)
    refine ⟨schedule, _, hrun, (Checked.bind_of hwalks _).trans ?_⟩
    refine (Checked.bind_of heach _).trans ?_
    simp [Function.comp_def]
  · obtain ⟨g', hrun, hg'⟩ := hstart.run schedule
    refine ⟨g', hrun, hg'.exclusive, fun k hk hcount => ?_⟩
    obtain ⟨walk, hwalk⟩ : ∃ walk, walks[k]? = some walk :=
      ⟨_, List.getElem?_eq_getElem (hlength.symm ▸ hk)⟩
    have hlen : walk.length = c.regions := by
      simpa using (hperm walk (List.mem_of_getElem? hwalk)).length_eq
    obtain ⟨w, hw, hleft⟩ := hstart.left (k := k) (w := { walk := walk }) (by simp [hwalk]) hrun
    refine ⟨w, hw, done_of_left ?_⟩
    simp only [ClaimWorker.left, hlen, Bool.toNat_false] at hleft ⊢
    omega

/-- Three workers share four regions. The first one stops after it has seen its first region
unclaimed, the second one after it has claimed one. If there are very many workers, some have no
offset even in two regions. -/
theorem Claimer.claims_sample : (∃ c g g', create 3 4 = .ok c ∧ (∀ w ∈ [0, 1, 2], w < 3) ∧
      ClaimingGang.start c false [0, 1, 2] = .ok g ∧
      g.run [0, 1, 2, 2, 1, 2, 2, 2, 2, 2, 2] = .ok g' ∧
      g'.taken.Perm (List.range 4)) ∧
    ∃ c, create (1 <<< 63 + 1) 2 = .ok c ∧ 1 <<< 63 < 1 <<< 63 + 1 ∧
      c.order (1 <<< 63) = .error .overflow := by
  refine ⟨?_, ?_⟩
  · obtain ⟨c, hc⟩ : ∃ c, create 3 4 = .ok c := ⟨_, rfl⟩
    obtain ⟨-, -, -, -, hgang⟩ := claims_each_once hc
    obtain ⟨g, hg, -, hall⟩ := hgang false [0, 1, 2] (by decide)
    obtain ⟨g', hrun, hshared, hdone⟩ := hall [0, 1, 2, 2, 1, 2, 2, 2, 2, 2, 2]
    obtain ⟨w, hw, he⟩ := hdone 2 (by decide) (by decide)
    refine ⟨c, g, g', hc, by decide, hg, hrun, hshared.all (List.any_eq_true.mpr ⟨w, ?_, ?_⟩)⟩
    · exact List.mem_of_getElem? hw
    · rw [he, List.isEmpty_nil]
  · obtain ⟨c, hc⟩ : ∃ c, create (1 <<< 63 + 1) 2 = .ok c := ⟨_, rfl⟩
    obtain ⟨-, hrefused, -⟩ := claims_each_once hc
    exact ⟨c, hc, by decide, hrefused (1 <<< 63) (by decide) (by decide)⟩

end RegionHeap
