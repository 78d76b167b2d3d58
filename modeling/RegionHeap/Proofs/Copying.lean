import RegionHeap.Collection.Full
import RegionHeap.Proofs.Places

/-!
Copying objects to their places, one after the other. An object is still whole when its turn comes
if nothing was written over it, and a copy stays whole if nothing is written over that.
-/
set_option autoImplicit false

namespace RegionHeap

/-- These objects are at their places, their forwarding words cleared; all else that was written
lies within some area. -/
structure Copied (h : Heap) (place : Nat → Nat) (m₃ : Memory) (D W : Nat → Prop) (m : Memory) :
    Prop where
  header : ∀ o, D o → m.read (place o) = 0
  moved : ∀ o, D o → ∀ i, 0 < i → i < Object.size h.memory o →
    m.read (place o + 8 * i) = m₃.read (o + 8 * i)
  other : ∀ a, ¬W a → m.read a = m₃.read a

namespace Copied

variable {h : Heap} {place : Nat → Nat} {m₃ m : Memory} {D W : Nat → Prop} {o a : Nat}

theorem nil (h : Heap) (place : Nat → Nat) (m₃ : Memory) :
    Copied h place m₃ (fun _ => False) (fun _ => False) m₃ :=
  ⟨fun _ ho => ho.elim, fun _ ho => ho.elim, fun _ _ => rfl⟩

theorem congr {D' W' : Nat → Prop} (c : Copied h place m₃ D W m) (hD : ∀ o, D' o → D o)
    (hW : ∀ a, W a → W' a) : Copied h place m₃ D' W' m :=
  ⟨fun o ho => c.header o (hD o ho), fun o ho => c.moved o (hD o ho),
    fun a ha => c.other a fun h' => ha (hW a h')⟩

theorem write (c : Copied h place m₃ D W m) (m' : Memory) (W' : Nat → Prop)
    (hm : ∀ a, ¬W' a → m'.read a = m.read a)
    (hz : ∀ o, D o → 0 < Object.size h.memory o)
    (hD : ∀ o, D o → ∀ a, h.Spot place o a → ¬W' a) :
    Copied h place m₃ D (fun a => W a ∨ W' a) m' := by
  refine ⟨fun o ho => ?_, fun o ho i hi hlt => ?_, fun a ha => ?_⟩
  · rw [hm _ (hD o ho _ ⟨Nat.le_refl _, by have := hz o ho; omega⟩), c.header o ho]
  · rw [hm _ (hD o ho _ ⟨by omega, by omega⟩), c.moved o ho i hi hlt]
  · rw [hm a fun h' => ha (.inr h'), c.other a fun h' => ha (.inl h')]

theorem move (c : Copied h place m₃ D W m) (hz : ∀ o, D o → 0 < Object.size h.memory o)
    (hsize : 0 < Object.size h.memory o)
    (whole : ∀ a, o ≤ a → a < o + 8 * Object.size h.memory o → ¬W a)
    (apart : ∀ p, D p → ∀ a, h.Spot place p a → ¬h.Spot place o a) :
    Copied h place m₃ (fun p => D p ∨ p = o) (fun a => W a ∨ h.Spot place o a)
      (Object.unforward (m.move o (place o) (Object.size h.memory o)) (place o)) := by
  have hm : ∀ a, ¬h.Spot place o a → (Object.unforward
      (m.move o (place o) (Object.size h.memory o)) (place o)).read a = m.read a := by
    intro a ha
    unfold Heap.Spot at ha
    rw [Object.unforward, Memory.read_write_of_ne _ _ (by omega),
      Memory.read_move_of_outside _ _ (by omega)]
  have c' := c.write _ _ hm hz apart
  refine ⟨fun p hp => ?_, fun p hp i hi hlt => ?_, c'.other⟩
  · rcases hp with hp | rfl
    · exact c'.header p hp
    · exact Memory.read_write_self ..
  · rcases hp with hp | rfl
    · exact c'.moved p hp i hi hlt
    · rw [Object.unforward, Memory.read_write_of_ne _ _ (by omega), Memory.read_move _ _ _ hlt]
      exact c.other _ (whole _ (by omega) (by omega))

theorem stay (c : Copied h place m₃ D W m) (hp : place o = o) (h0 : m₃.read o = 0)
    (hsize : 0 < Object.size h.memory o)
    (whole : ∀ a, o ≤ a → a < o + 8 * Object.size h.memory o → ¬W a) :
    Copied h place m₃ (fun p => D p ∨ p = o) (fun a => W a ∨ h.Spot place o a) m := by
  refine ⟨fun p hp' => ?_, fun p hp' i hi hlt => ?_, fun a ha => c.other a fun h' => ha (.inl h')⟩
  · rcases hp' with hp' | rfl
    · exact c.header p hp'
    · rw [hp, c.other _ (whole _ (Nat.le_refl _) (by omega)), h0]
  · rcases hp' with hp' | rfl
    · exact c.moved p hp' i hi hlt
    · rw [hp]
      exact c.other _ (whole _ (by omega) (by omega))

end Copied

namespace Collector

variable {h x : Heap} {L : Layout} {place : Nat → Nat} {m₃ : Memory} {D W : Nat → Prop} {o : Nat}

/-- Moving an object. Its forwarding word tells the place, and nothing was written over it yet. -/
theorem moveObject_of (hl : x.Laid L) (ho : L.IsWord o) (c : Copied h place m₃ D W x.memory)
    (hz : ∀ o, D o → 0 < Object.size h.memory o) (hsize : 2 ≤ Object.size h.memory o)
    (whole : ∀ a, o ≤ a → a < o + 8 * Object.size h.memory o → ¬W a)
    (apart : ∀ p, D p → ∀ a, h.Spot place p a → ¬h.Spot place o a)
    (hle : place o ≤ o) (hpos : 0 < place o)
    (hhead : m₃.read o = if place o = o then 0 else place o)
    (hklass : Object.klass m₃ o = Object.klass h.memory o) :
    ∃ l m, moveObject x o = .ok (Object.size h.memory o,
        { x.setMemory m with liveness := l }) ∧ l.Laid L ∧
      (∀ b, L.IsWord b → l.marked L b = (!decide (b = o) && x.liveness.marked L b)) ∧
      Copied h place m₃ (fun p => D p ∨ p = o) (fun a => W a ∨ h.Spot place o a) m := by
  obtain ⟨l, hclear, hlaid, hmarks⟩ := LivenessMap.clear_of hl.liveness ho
  have hk : Object.klass x.memory o = Object.klass h.memory o :=
    (c.other _ (whole _ (by omega) (by omega))).trans hklass
  have hs := Object.size_congr hk
  have hread : x.memory.read o = if place o = o then 0 else place o :=
    (c.other _ (whole _ (Nat.le_refl _) (by omega))).trans hhead
  -- an object without a forwardee stays, and any other one goes down
  by_cases hstay : place o = o
  · refine ⟨l, x.memory, ?_, hlaid, hmarks, c.stay hstay (by rw [hhead, if_pos hstay]) (by omega)
      whole⟩
    rw [if_pos hstay] at hread
    have hf : Object.forwardee? ({ x with liveness := l } : Heap).memory o = none :=
      if_pos hread
    simp only [moveObject, hclear, Checked.ok_bind, hf, hs]
    rfl
  · refine ⟨l, _, ?_, hlaid, hmarks, c.move hz (by omega) whole apart⟩
    rw [if_neg hstay] at hread
    have hf : Object.forwardee? ({ x with liveness := l } : Heap).memory o = some (place o) := by
      rw [Object.forwardee?, show ({ x with liveness := l } : Heap).memory.read o = _ from hread]
      exact if_neg (by omega)
    have hlt : decide (place o < o) = true := by
      rw [decide_eq_true_iff]
      omega
    simp only [moveObject, hclear, Checked.ok_bind, hf, hs, hlt, Checked.unless_true]
    rfl

end Collector

end RegionHeap
