import RegionHeap.Proofs.Checked

/-!
Two computations in lockstep: one is refused exactly if the other is, and for the same reason, and
if they pass their results are related. A computation may also be looked at alone, for what it
leaves if it passes.
-/
set_option autoImplicit false

namespace RegionHeap.Checked

variable {α β γ δ : Type}

/-- Both are refused for one reason, or both pass with related results. -/
inductive Both (R : α → β → Prop) : Checked α → Checked β → Prop where
  | ok {a : α} {b : β} : R a b → Both R (.ok a) (.ok b)
  | error (f : Fault) : Both R (.error f) (.error f)

namespace Both

variable {R : α → β → Prop} {Q : γ → δ → Prop} {x : Checked α} {y : Checked β}

theorem passes {a : α} (h : Both R (.ok a) y) : ∃ b, y = .ok b ∧ R a b := by
  cases h with
  | ok h => exact ⟨_, rfl, h⟩

theorem passes_left {b : β} (h : Both R x (.ok b)) : ∃ a, x = .ok a ∧ R a b := by
  cases h with
  | ok h => exact ⟨_, rfl, h⟩

theorem refused {f : Fault} (h : Both R x (.error f)) : x = .error f := by
  cases h with
  | error f => rfl

theorem same {R : α → α → Prop} (h : ∀ a, x = .ok a → R a a) : Both R x x := by
  cases x with
  | error f => exact .error f
  | ok a => exact .ok (h a rfl)

theorem eq {y : Checked α} (h : Both Eq x y) : x = y := by
  cases h with
  | ok h => rw [h]
  | error f => rfl

theorem imp {R' : α → β → Prop} (h : Both R x y) (hr : ∀ a b, x = .ok a → R a b → R' a b) :
    Both R' x y := by
  cases h with
  | ok h => exact .ok (hr _ _ rfl h)
  | error f => exact .error f

theorem trans {z : Checked γ} {Q : β → γ → Prop} (h : Both R x y) (h' : Both Q y z) :
    Both (fun a c => ∃ b, R a b ∧ Q b c) x z := by
  cases h with
  | ok h =>
    obtain ⟨c, rfl, hc⟩ := h'.passes
    exact .ok ⟨_, h, hc⟩
  | error f =>
    cases h' with
    | error f => exact .error f

theorem bind {f : α → Checked γ} {g : β → Checked δ} (h : Both R x y)
    (hf : ∀ a b, x = .ok a → R a b → Both Q (f a) (g b)) : Both Q (x >>= f) (y >>= g) := by
  cases h with
  | ok h => exact hf _ _ rfl h
  | error f => exact .error f

theorem bind_right {Q : α → δ → Prop} {g : β → δ} (h : Both R x y)
    (hg : ∀ a b, R a b → Q a (g b)) : Both Q x (y >>= fun b => .ok (g b)) := by
  cases h with
  | ok h => exact .ok (hg _ _ h)
  | error f => exact .error f

theorem bind_same {f : α → Checked γ} {g : α → Checked δ}
    (hf : ∀ a, x = .ok a → Both Q (f a) (g a)) : Both Q (x >>= f) (x >>= g) :=
  bind (same (R := Eq) fun _ _ => rfl) fun a _ ha e => e ▸ hf a ha

theorem ite {c : Prop} [Decidable c] {x' : Checked α} {y' : Checked β}
    (h : c → Both R x y) (h' : ¬c → Both R x' y') :
    Both R (if c then x else x') (if c then y else y') := by
  split
  · next hc => exact h hc
  · next hc => exact h' hc

/-- The loop rule. The relation may speak of the entries that are left. -/
theorem foldlM {f : α → γ → Checked α} {g : β → γ → Checked β} (R : List γ → α → β → Prop)
    (step : ∀ x rest a b, R (x :: rest) a b → Both (R rest) (f a x) (g b x))
    (xs : List γ) (a : α) (b : β) (h : R xs a b) :
    Both (R []) (xs.foldlM f a) (xs.foldlM g b) := by
  induction xs generalizing a b with
  | nil => exact .ok h
  | cons x rest ih =>
    rw [List.foldlM_cons, List.foldlM_cons]
    exact bind (step x rest a b h) fun a' b' _ h' => ih a' b' h'

theorem runAll {σ τ ε : Type} {R : σ → τ → Prop} {f : σ → ε → Checked (α × σ)}
    {g : τ → ε → Checked (α × τ)}
    (step : ∀ s t e, R s t → Both (fun r r' => r.1 = r'.1 ∧ R r.2 r'.2) (f s e) (g t e))
    {s : σ} {t : τ} (h : R s t) (events : List ε) :
    Both (fun r r' => r.1 = r'.1 ∧ R r.2 r'.2) (runAll f s events) (runAll g t events) := by
  induction events generalizing s t with
  | nil => exact .ok ⟨rfl, h⟩
  | cons e events ih =>
    refine (step s t e h).bind fun r r' _ ⟨ha, h'⟩ => ?_
    exact (ih h').bind fun _ _ _ ⟨has, h''⟩ => .ok ⟨by rw [ha, has], h''⟩

theorem foldlM_mem {f : α → γ → Checked α} {g : β → γ → Checked β} {xs : List γ}
    (step : ∀ x ∈ xs, ∀ a b, R a b → Both R (f a x) (g b x)) {a : α} {b : β} (h : R a b) :
    Both R (xs.foldlM f a) (xs.foldlM g b) := by
  refine (foldlM (fun rest a b => (∀ x ∈ rest, x ∈ xs) ∧ R a b)
    (fun x rest a b ⟨hmem, hr⟩ => ?_) xs a b ⟨fun _ hx => hx, h⟩).imp fun _ _ _ h' => h'.2
  exact (step x (hmem x (by simp)) a b hr).imp fun _ _ _ h' =>
    ⟨fun y hy => hmem y (by simp [hy]), h'⟩

/-- The loop rule beside what is known of the first of the two loops. -/
theorem foldlM_split {f : α → γ → Checked α} {g : β → γ → Checked β} {xs : List γ}
    (I : List γ → α → Prop)
    (inv : ∀ done x rest a, xs = done ++ x :: rest → I done a →
      ∃ a', f a x = .ok a' ∧ I (done ++ [x]) a')
    (step : ∀ done x rest a b, xs = done ++ x :: rest → I done a → R a b →
      Both R (f a x) (g b x))
    {a : α} {b : β} (hi : I [] a) (h : R a b) : Both R (xs.foldlM f a) (xs.foldlM g b) := by
  refine (foldlM (fun rest a b => ∃ done, xs = done ++ rest ∧ I done a ∧ R a b)
    (fun x rest a b ⟨done, hd, hi, hr⟩ => ?_) xs a b ⟨[], rfl, hi, h⟩).imp
      fun _ _ _ ⟨_, _, _, h'⟩ => h'
  obtain ⟨a', ha, hi'⟩ := inv done x rest a hd hi
  refine (step done x rest a b hd hi hr).imp fun a'' b' ha' h' => ?_
  obtain rfl : a' = a'' := Except.ok.inj (ha.symm.trans ha')
  exact ⟨done ++ [x], by simp [hd], hi', h'⟩

theorem foldlM_range {f : α → Nat → Checked α} {g : β → Nat → Checked β} {n : Nat}
    (I : Nat → α → Prop)
    (inv : ∀ i a, i < n → I i a → ∃ a', f a i = .ok a' ∧ I (i + 1) a')
    (step : ∀ i a b, i < n → I i a → R a b → Both R (f a i) (g b i))
    {a : α} {b : β} (hi : I 0 a) (h : R a b) :
    Both R ((List.range n).foldlM f a) ((List.range n).foldlM g b) := by
  have hsplit : ∀ (done : List Nat) x rest, List.range n = done ++ x :: rest →
      x = done.length ∧ x < n := by
    intro done x rest hd
    have hlen := congrArg List.length hd
    have hget := congrArg (fun l => l[done.length]?) hd
    simp only [List.length_range, List.length_append, List.length_cons] at hlen
    simp only [List.getElem?_append_right (Nat.le_refl done.length), Nat.sub_self,
      List.getElem?_cons_zero, List.getElem?_range (show done.length < n by omega),
      Option.some.injEq] at hget
    omega
  refine foldlM_split (fun done a => I done.length a) (fun done x rest a hd hi => ?_)
    (fun done x rest a b hd hi hr => ?_) hi h
  · obtain ⟨rfl, hx⟩ := hsplit done x rest hd
    simpa using inv _ a hx hi
  · obtain ⟨rfl, hx⟩ := hsplit done x rest hd
    exact step _ a b hx hi hr

end Both

/-- What holds of the result if there is one. -/
def Leaves (P : α → Prop) (x : Checked α) : Prop := ∀ a, x = .ok a → P a

namespace Leaves

variable {P : α → Prop} {Q : γ → Prop} {x : Checked α}

theorem ok {a : α} (h : P a) : Leaves P (.ok a) := fun _ e => Except.ok.inj e ▸ h

theorem error (f : Fault) : Leaves P (.error f) := fun _ e => by contradiction

theorem bind {f : α → Checked γ} (h : Leaves P x) (hf : ∀ a, P a → Leaves Q (f a)) :
    Leaves Q (x >>= f) := by
  intro c hc
  obtain ⟨a, ha, hc⟩ := bind_eq_ok.mp hc
  exact hf a (h a ha) c hc

theorem bind_any {f : α → Checked γ} (hf : ∀ a, x = .ok a → Leaves Q (f a)) : Leaves Q (x >>= f) :=
  bind (P := fun a => x = .ok a) (fun _ ha => ha) hf

theorem ite {c : Prop} [Decidable c] {x' : Checked α} (h : Leaves P x) (h' : Leaves P x') :
    Leaves P (if c then x else x') := by
  split
  · exact h
  · exact h'

theorem foldlM {f : α → γ → Checked α} (step : ∀ a c, P a → Leaves P (f a c)) (xs : List γ)
    {a : α} (h : P a) : Leaves P (xs.foldlM f a) := by
  induction xs generalizing a with
  | nil => exact ok h
  | cons x rest ih =>
    rw [List.foldlM_cons]
    exact bind (step a x h) fun _ h' => ih h'

end Leaves

end RegionHeap.Checked
