import RegionHeap.Fault

/-!
What the links from one thing to the next spell.
-/
set_option autoImplicit false

namespace RegionHeap

/-- Following the steps from a start passes exactly these, in this order, and ends. -/
inductive Trail (step : Nat → Checked (Option Nat)) : Option Nat → List Nat → Prop where
  | done : Trail step none []
  | pass {id : Nat} {after : Option Nat} {ids : List Nat} :
      step id = .ok after → Trail step after ids → Trail step (some id) (id :: ids)

namespace Trail

variable {step step' : Nat → Checked (Option Nat)} {start : Option Nat} {ids : List Nat}

theorem head (h : Trail step start ids) : start = ids.head? := by
  cases h <;> rfl

theorem uncons {id : Nat} (h : Trail step start (id :: ids)) :
    ∃ after, step id = .ok after ∧ Trail step after ids := by
  cases h with
  | pass hs h => exact ⟨_, hs, h⟩

theorem congr (h : Trail step start ids) (hs : ∀ id ∈ ids, step' id = step id) :
    Trail step' start ids := by
  induction h with
  | done => exact .done
  | pass hid _ ih =>
    exact .pass ((hs _ (by simp)).trans hid) (ih fun id hid => hs id (by simp [hid]))

theorem of_steps (h : ∀ pre id post, ids = pre ++ id :: post → step id = .ok post.head?) :
    Trail step ids.head? ids := by
  induction ids with
  | nil => exact .done
  | cons id ids ih =>
    exact .pass (h [] id ids rfl) (ih fun pre id' post e => h (id :: pre) id' post (by simp [e]))

end Trail

end RegionHeap
