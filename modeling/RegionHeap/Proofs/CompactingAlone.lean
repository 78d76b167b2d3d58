import RegionHeap.Collection.CompactionGang
import RegionHeap.Proofs.Interleaving

/-!
A worker that is not interrupted compacts its regions one after the other, as a task on one worker
does. This needs nothing of the heap.
-/
set_option autoImplicit false

namespace RegionHeap

namespace LivenessMap

theorem le_nextInRegion {l : LivenessMap} {i start stop o : Nat}
    (hn : l.nextInRegion i start stop = .ok (some o)) (hs : l.regionStart i ≤ start)
    (hle : start ≤ stop) : start ≤ o + 7 := by
  unfold nextInRegion at hn
  obtain ⟨s, -, hn⟩ := Checked.bind_eq_ok.mp hn
  split at hn
  · simp at hn
  · obtain ⟨-, -, hn⟩ := Checked.bind_eq_ok.mp hn
    have hbit := s.bits.le_next
      (show (start - l.regionStart i) / 8 ≤ (stop - l.regionStart i) / 8 by omega)
    dsimp only at hn
    split at hn
    · obtain rfl := Option.some.inj (Except.ok.inj hn)
      omega
    · simp at hn

theorem regionStart_regionOf {l : LivenessMap} {a i : Nat} (h : l.regionOf a = .ok i) :
    l.regionStart i ≤ a ∧ a < l.regionStart (i + 1) := by
  obtain ⟨_, hle, h⟩ := Checked.bind_eq_ok.mp h
  obtain ⟨-, -, h⟩ := Checked.bind_eq_ok.mp h
  obtain rfl := Except.ok.inj h
  have hstart : l.start ≤ a := of_decide_eq_true (Fault.unless_eq_ok.mp hle)
  have hpos : 0 < l.regionBytes := by
    rw [regionBytes, Nat.one_shiftLeft]
    exact Nat.two_pow_pos _
  have hfloor := Nat.div_mul_le_self (a - l.start) l.regionBytes
  have hceil := Nat.lt_div_mul_add hpos (a := a - l.start)
  simp only [regionStart, Nat.add_mul, Nat.one_mul]
  omega

theorem le_next {l : LivenessMap} {start limit o : Nat} (hn : l.next start limit = .ok o) :
    limit ≤ o ∨ start < limit ∧ start ≤ o + 7 := by
  unfold next at hn
  generalize l.regions + 1 = n at hn
  induction n generalizing start with
  | zero => exact .inl (Nat.le_of_eq (Except.ok.inj hn))
  | succ n ih =>
    rw [nextFrom] at hn
    split at hn
    · exact .inl (Nat.le_of_eq (Except.ok.inj hn))
    · next hlt =>
      obtain ⟨i, hi, hn⟩ := Checked.bind_eq_ok.mp hn
      obtain ⟨hfrom, hto⟩ := regionStart_regionOf hi
      obtain ⟨r, hr, hn⟩ := Checked.bind_eq_ok.mp hn
      cases r with
      | some found =>
        obtain rfl := Except.ok.inj hn
        exact .inr ⟨by omega, le_nextInRegion hr hfrom (by omega)⟩
      | none => exact (ih hn).imp_right fun h => by omega

end LivenessMap

namespace CompactionGang

open Collector

variable {g : CompactionGang} {c' : Collector} {x : CompactWorker} {k i : Nat} {rest : List Nat}

theorem getElem?_put (hx : g.workers[k]? = some x) (y : CompactWorker) :
    (g.put k y).workers[k]? = some y := by
  obtain ⟨hk, -⟩ := List.getElem?_eq_some_iff.mp hx
  exact List.getElem?_set_self hk

theorem run_cons {g' : CompactionGang} (h : g.step k = .ok g') (schedule : List Nat) :
    g.run (k :: schedule) = g'.run schedule := by
  rw [run, List.foldlM_cons, Checked.bind_of h]
  rfl

theorem moveObject_words {y z : Heap} {o words : Nat} (hm : moveObject y o = .ok (words, z)) :
    words = Object.size y.memory o := by
  unfold moveObject at hm
  obtain ⟨l, -, hm⟩ := Checked.bind_eq_ok.mp hm
  dsimp only at hm
  split at hm
  · exact (Prod.mk.inj (Except.ok.inj hm)).1.symm
  · obtain ⟨-, -, hm⟩ := Checked.bind_eq_ok.mp hm
    exact (Prod.mk.inj (Except.ok.inj hm)).1.symm

theorem lt_of_addWords {y z : Heap} {o words stop : Nat} (hm : moveObject y o = .ok (words, z))
    (hpos : Fault.unless (0 < words) .precondition = .ok ())
    (hadd : Address.addWords o words = .ok stop) : o + 8 ≤ stop := by
  have hwords : words < 2 ^ 32 := by
    rw [moveObject_words hm]
    exact Nat.mod_lt _ (by decide)
  have hpos := of_decide_eq_true (Fault.unless_eq_ok.mp hpos)
  rw [Address.addWords_of_lt (by unfold Word.limit; omega)] at hadd
  have := Word.add_eq_ok.mp hadd
  omega

theorem run_append {g' : CompactionGang} {first : List Nat} (h : g.run first = .ok g')
    (schedule : List Nat) : g.run (first ++ schedule) = g'.run schedule := by
  rw [run, List.foldlM_append]
  exact Checked.bind_of h _

/-- A walk that is not interrupted. -/
theorem run_walk {limit n cursor : Nat} {os : List Nat} {z : Heap}
    (hw : LivenessMap.walkFrom Heap.liveness moveObject limit n cursor g.collector.heap = .ok z)
    (hn : limit - cursor < n)
    (hx : g.workers[k]? = some ⟨i :: rest, .walking limit cursor, os⟩) :
    ∃ m os', g.run (List.replicate m k) = .ok ({ g with collector :=
      { g.collector with heap := z } }.put k ⟨i :: rest, .walked, os ++ os'⟩) := by
  -- the induction is on the fuel of the walk, which is more than the words that are left
  induction n generalizing g cursor os with
  | zero => omega
  | succ n ih =>
    rw [LivenessMap.walkFrom] at hw
    obtain ⟨found, hfound, hw⟩ := Checked.bind_eq_ok.mp hw
    have hnext : g.collector.liveness.next cursor limit = .ok found := hfound
    by_cases hle : limit ≤ found
    · -- the walk is over
      rw [if_pos hle] at hw
      obtain rfl := Except.ok.inj hw
      refine ⟨1, [], ?_⟩
      rw [List.append_nil]
      refine run_cons ?_ []
      simp only [step, hx, advance]
      rw [Checked.bind_of hnext, if_pos hle]
      rfl
    · rw [if_neg hle] at hw
      obtain ⟨⟨words, y⟩, hmove, hw⟩ := Checked.bind_eq_ok.mp hw
      obtain ⟨_, hpos, hw⟩ := Checked.bind_eq_ok.mp hw
      obtain ⟨cursor', hadd, hw⟩ := Checked.bind_eq_ok.mp hw
      have hstep : g.step k = .ok ({ g with collector := { g.collector with heap := y } }.put k
          ⟨i :: rest, .walking limit cursor', os ++ [found]⟩) := by
        simp only [step, hx, advance]
        rw [Checked.bind_of hnext, if_neg hle, Checked.bind_of hmove, Checked.bind_of hpos,
          Checked.bind_of hadd]
        rfl
      have hcursor : limit - cursor' < n := by
        have hfound := LivenessMap.le_next hnext
        have hmoved := lt_of_addWords hmove hpos hadd
        omega
      obtain ⟨m, os', hrun⟩ := ih (g := { g with collector := { g.collector with
        heap := y } }.put k ⟨i :: rest, .walking limit cursor', os ++ [found]⟩) hw hcursor
        (getElem?_put hx _)
      refine ⟨m + 1, found :: os', (run_cons hstep _).trans (hrun.trans ?_)⟩
      rw [List.append_assoc, List.singleton_append]
      exact congrArg (fun ws => Except.ok (CompactionGang.mk _ ws)) (List.set_set ..)

theorem run_region (hx : g.workers[k]? = some x) (hr : x.regions = i :: rest)
    (hp : x.phase = .between) (hc : g.collector.compactRegion i = .ok c') :
    ∃ m os, g.run (List.replicate m k) =
      .ok ({ g with collector := c' }.put k ⟨rest, .between, x.visited ++ os⟩) := by
  obtain ⟨regions, phase, visited⟩ := x
  obtain rfl : regions = i :: rest := hr
  obtain rfl : phase = .between := hp
  obtain ⟨r, hget, hc⟩ := Checked.bind_eq_ok.mp hc
  obtain ⟨_, hpinned, hc⟩ := Checked.bind_eq_ok.mp hc
  obtain ⟨_, hhumongous, hc⟩ := Checked.bind_eq_ok.mp hc
  obtain ⟨z, hwalk, hc⟩ := Checked.bind_eq_ok.mp hc
  obtain ⟨top, htop, hc⟩ := Checked.bind_eq_ok.mp hc
  obtain ⟨z', hupdate, hc⟩ := Checked.bind_eq_ok.mp hc
  obtain rfl := Except.ok.inj hc
  obtain ⟨marked, hmarked, hwalk⟩ := Checked.bind_eq_ok.mp hwalk
  have henter : g.step k = .ok (g.put k ⟨i :: rest, if marked then
      .walking r.top (g.collector.liveness.regionStart i) else .walked, visited⟩) := by
    simp only [step, hx, enter]
    rw [Checked.bind_of hget, Checked.bind_of hpinned, Checked.bind_of hhumongous]
    refine (Checked.bind_of hmarked _).trans ?_
    cases marked <;> rfl
  -- the worker ends its walk in any case, and then gives the region its top
  obtain ⟨m, os, hrun⟩ : ∃ m os, g.run (List.replicate m k) = .ok ({ g with collector :=
      { g.collector with heap := z } }.put k ⟨i :: rest, .walked, visited ++ os⟩) := by
    cases marked with
    | false =>
      obtain rfl := Except.ok.inj hwalk
      exact ⟨1, [], run_cons (by rw [List.append_nil]; exact henter) []⟩
    | true =>
      obtain ⟨m, os, hrun⟩ := run_walk (g := g.put k _) hwalk (by omega) (getElem?_put hx _)
      refine ⟨m + 1, os, (run_cons henter _).trans (hrun.trans ?_)⟩
      exact congrArg (fun ws => Except.ok (CompactionGang.mk _ ws)) (List.set_set ..)
  obtain ⟨g', hg'⟩ : ∃ g' : CompactionGang, g' = { g with collector :=
    { g.collector with heap := z } }.put k ⟨i :: rest, .walked, visited ++ os⟩ := ⟨_, rfl⟩
  have hx' : g'.workers[k]? = some ⟨i :: rest, .walked, visited ++ os⟩ := hg' ▸ getElem?_put hx _
  have htop' : Table.get g'.collector.tops i = .ok top := hg' ▸ htop
  have hupdate' : (g'.collector.heap.updateRegion i fun r => r.resetCompacted top) = .ok z' :=
    hg' ▸ hupdate
  refine ⟨m + 1, os, ?_⟩
  rw [List.replicate_succ', run_append (hrun.trans (congrArg Except.ok hg'.symm))]
  refine run_cons ?_ []
  simp only [step, hx', leave]
  rw [Checked.bind_of htop', Checked.bind_of hupdate', hg']
  exact congrArg (fun ws => Except.ok (CompactionGang.mk _ ws)) (List.set_set ..)

/-- All regions of a worker are compacted without interruption. -/
theorem run_regions {regions : List Nat} (hx : g.workers[k]? = some x) (hr : x.regions = regions)
    (hp : x.phase = .between) (hc : regions.foldlM compactRegion g.collector = .ok c') :
    ∃ m os, g.run (List.replicate m k) =
      .ok ({ g with collector := c' }.put k ⟨[], .between, x.visited ++ os⟩) := by
  induction regions generalizing g x with
  | nil =>
    obtain rfl := Except.ok.inj hc
    refine ⟨0, [], congrArg (fun ws => Except.ok (CompactionGang.mk _ ws)) ?_⟩
    obtain ⟨regions, phase, visited⟩ := x
    obtain rfl : regions = [] := hr
    obtain rfl : phase = .between := hp
    obtain ⟨before, after, hws, hset⟩ := split_of_getElem? hx
    rw [hset, List.append_nil, hws]
  | cons i rest ih =>
    obtain ⟨d, hd, hc⟩ := Checked.bind_eq_ok.mp hc
    obtain ⟨m, os, hrun⟩ := run_region hx hr hp hd
    obtain ⟨m', os', hrun'⟩ := ih (g := { g with collector := d }.put k
      ⟨rest, .between, x.visited ++ os⟩) (getElem?_put hx _) rfl rfl hc
    refine ⟨m + m', os ++ os', ?_⟩
    rw [← List.replicate_append_replicate, run_append hrun, hrun', List.append_assoc]
    exact congrArg (fun ws => Except.ok (CompactionGang.mk _ ws)) (List.set_set ..)

end CompactionGang

end RegionHeap
