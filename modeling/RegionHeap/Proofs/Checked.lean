import RegionHeap.Fault

/-!
Computations that may be refused. A computation is opened one step at a time once its first step
is known to pass; a loop passes if every step passes and keeps what the next one needs.
-/
set_option autoImplicit false

namespace RegionHeap.Checked

variable {α β : Type}

@[simp] theorem pure_eq (a : α) : (pure a : Checked α) = .ok a := rfl

@[simp] theorem ok_bind (a : α) (f : α → Checked β) : (Except.ok a : Checked α) >>= f = f a := rfl

@[simp] theorem error_bind (e : Fault) (f : α → Checked β) :
    (Except.error e : Checked α) >>= f = .error e := rfl

@[simp] theorem map_ok (f : α → β) (a : α) : f <$> (Except.ok a : Checked α) = .ok (f a) := rfl

@[simp] theorem map_error (f : α → β) (e : Fault) :
    f <$> (Except.error e : Checked α) = .error e := rfl

theorem mapError_eq_ok {ε : Type} {x : Except ε α} {f : ε → Fault} {a : α} :
    x.mapError f = .ok a ↔ x = .ok a := by
  cases x with
  | ok b => exact ⟨fun h => congrArg _ (Except.ok.inj h), fun h => congrArg _ (Except.ok.inj h)⟩
  | error e => exact ⟨nofun, nofun⟩

theorem bind_eq_ok {x : Checked α} {f : α → Checked β} {b : β} :
    x >>= f = .ok b ↔ ∃ a, x = .ok a ∧ f a = .ok b := by
  cases x with
  | error e => simp
  | ok a => simp

theorem toOption_eq_some {x : Checked α} {a : α} : x.toOption = some a ↔ x = .ok a := by
  cases x <;> simp [Except.toOption]

@[simp] theorem unless_true (f : Fault) : Fault.unless true f = .ok () := rfl

theorem unless_of {c : Bool} (h : c = true) (f : Fault) : Fault.unless c f = .ok () := by
  simp [h]

theorem bind_of {x : Checked α} {a : α} (h : x = .ok a) (f : α → Checked β) :
    x >>= f = f a := by
  rw [h]; rfl

theorem ite_bind (c : Prop) [Decidable c] (x y : Checked α) (f : α → Checked β) :
    (if c then x >>= f else y >>= f) = (if c then x else y) >>= f := by
  split <;> rfl

/-- The loop rule. The invariant speaks of the entries that are left. -/
theorem foldlM_of {f : β → α → Checked β} (I : List α → β → Prop)
    (step : ∀ x rest b, I (x :: rest) b → ∃ b', f b x = .ok b' ∧ I rest b')
    (xs : List α) (b : β) (h : I xs b) : ∃ b', xs.foldlM f b = .ok b' ∧ I [] b' := by
  induction xs generalizing b with
  | nil => exact ⟨b, rfl, h⟩
  | cons x rest ih =>
    obtain ⟨b', hb, hi⟩ := step x rest b h
    obtain ⟨c, hc, hd⟩ := ih b' hi
    exact ⟨c, by rw [List.foldlM_cons, hb]; exact hc, hd⟩

/-- The loop rule with the entries that are done beside those that are left. -/
theorem foldlM_split {f : β → α → Checked β} {l : List α} (I : List α → β → Prop)
    (step : ∀ done x rest b, l = done ++ x :: rest → I done b →
      ∃ b', f b x = .ok b' ∧ I (done ++ [x]) b')
    (b : β) (h : I [] b) : ∃ b', l.foldlM f b = .ok b' ∧ I l b' := by
  obtain ⟨b', hb, done, hd, hi⟩ := foldlM_of (f := f)
    (fun rest b => ∃ done, l = done ++ rest ∧ I done b)
    (fun x rest b ⟨done, hd, hi⟩ => by
      obtain ⟨b', hb, hi'⟩ := step done x rest b hd hi
      exact ⟨b', hb, done ++ [x], by simp [hd], hi'⟩) l b ⟨[], rfl, h⟩
  rw [List.append_nil] at hd
  exact ⟨b', hb, hd ▸ hi⟩

theorem foldlM_range'_of {f : β → Nat → Checked β} {s n : Nat} (I : Nat → β → Prop)
    (step : ∀ i b, s ≤ i → i < s + n → I i b → ∃ b', f b i = .ok b' ∧ I (i + 1) b')
    (b : β) (h : I s b) : ∃ b', (List.range' s n).foldlM f b = .ok b' ∧ I (s + n) b' := by
  induction n generalizing s b with
  | zero => exact ⟨b, rfl, h⟩
  | succ n ih =>
    obtain ⟨b', hb, hi⟩ := step s b (Nat.le_refl _) (by omega) h
    obtain ⟨c, hc, hd⟩ :=
      ih (s := s + 1) (fun i b hfrom hto => step i b (by omega) (by omega)) b' hi
    refine ⟨c, ?_, by rwa [show s + (n + 1) = s + 1 + n by omega]⟩
    rw [List.range'_succ, List.foldlM_cons, hb]
    exact hc

theorem foldlM_range_of {f : β → Nat → Checked β} {n : Nat} (I : Nat → β → Prop)
    (step : ∀ i b, i < n → I i b → ∃ b', f b i = .ok b' ∧ I (i + 1) b')
    (b : β) (h : I 0 b) : ∃ b', (List.range n).foldlM f b = .ok b' ∧ I n b' := by
  rw [List.range_eq_range']
  simpa using foldlM_range'_of I (fun i b _ hi => step i b (by omega)) b h

theorem mapM_of {f : α → Checked β} {g : α → β} {xs : List α}
    (h : ∀ x ∈ xs, f x = .ok (g x)) : xs.mapM f = .ok (xs.map g) := by
  induction xs with
  | nil => rfl
  | cons x rest ih =>
    rw [List.mapM_cons, h x (by simp), ih fun y hy => h y (by simp [hy])]
    rfl

theorem mapM_exists {f : α → Checked β} {P : α → β → Prop} {xs : List α}
    (h : ∀ x ∈ xs, ∃ y, f x = .ok y ∧ P x y) : ∃ ys, xs.mapM f = .ok ys ∧
      ys.length = xs.length ∧
        ∀ (i : Nat) (x : α), xs[i]? = some x → ∃ y, ys[i]? = some y ∧ P x y := by
  induction xs with
  | nil => exact ⟨[], rfl, rfl, by simp⟩
  | cons x rest ih =>
    obtain ⟨y, hy, hp⟩ := h x (by simp)
    obtain ⟨ys, hys, hlen, hall⟩ := ih fun z hz => h z (by simp [hz])
    refine ⟨y :: ys, by rw [List.mapM_cons, hy, hys]; rfl, by simp [hlen], fun i z hz => ?_⟩
    cases i with
    | zero =>
      obtain rfl : x = z := by simpa using hz
      exact ⟨y, rfl, hp⟩
    | succ i => exact hall i z (by simpa using hz)

theorem mapM_eq_ok {f : α → Checked β} {xs : List α} {ys : List β} (h : xs.mapM f = .ok ys) :
    ys.length = xs.length ∧
      ∀ (i : Nat) (x : α), xs[i]? = some x → ∃ y, ys[i]? = some y ∧ f x = .ok y := by
  induction xs generalizing ys with
  | nil =>
    cases h
    exact ⟨rfl, by simp⟩
  | cons x rest ih =>
    simp only [List.mapM_cons, bind_eq_ok, pure_eq, Except.ok.injEq] at h
    obtain ⟨y, hy, zs, hzs, rfl⟩ := h
    obtain ⟨hlen, hall⟩ := ih hzs
    refine ⟨by simp [hlen], fun i z hz => ?_⟩
    cases i with
    | zero =>
      obtain rfl : x = z := by simpa using hz
      exact ⟨y, rfl, hy⟩
    | succ i => exact hall i z (by simpa using hz)

theorem forM_eq_ok {f : α → Checked Unit} {xs : List α} :
    xs.forM f = .ok () ↔ ∀ x ∈ xs, f x = .ok () := by
  induction xs with
  | nil => simp
  | cons x xs ih =>
    have hcons : (x :: xs).forM f = .ok () ↔ f x = .ok () ∧ xs.forM f = .ok () :=
      bind_eq_ok.trans ⟨fun ⟨_, hx, hxs⟩ => ⟨hx, hxs⟩, fun ⟨hx, hxs⟩ => ⟨(), hx, hxs⟩⟩
    rw [hcons, ih, List.forall_mem_cons]

theorem forM_congr {f g : α → Checked Unit} (xs : List α) (h : ∀ x ∈ xs, f x = g x) :
    xs.forM f = xs.forM g := by
  induction xs with
  | nil => rfl
  | cons x xs ih =>
    obtain ⟨hx, hxs⟩ := List.forall_mem_cons.mp h
    exact (congrArg (· >>= fun _ => xs.forM f) hx).trans
      (congrArg (g x >>= ·) (funext fun _ => ih hxs))

theorem filterAuxM_of {f : α → Checked Bool} {g : α → Bool} {xs : List α}
    (h : ∀ x ∈ xs, f x = .ok (g x)) (acc : List α) :
    List.filterAuxM f xs acc = .ok ((xs.filter g).reverse ++ acc) := by
  induction xs generalizing acc with
  | nil => rfl
  | cons x rest ih =>
    rw [List.filterAuxM, h x (by simp), ok_bind, ih fun y hy => h y (by simp [hy])]
    cases hg : g x <;> simp [hg]

theorem filterM_of {f : α → Checked Bool} {g : α → Bool} {xs : List α}
    (h : ∀ x ∈ xs, f x = .ok (g x)) : xs.filterM f = .ok (xs.filter g) := by
  rw [List.filterM, filterAuxM_of h, ok_bind]
  simp

theorem runAll_of {σ ε : Type} {step : σ → ε → Checked (α × σ)} {events : List ε} (P : σ → Prop)
    (keeps : ∀ s e r, e ∈ events → P s → step s e = .ok r → P r.2) {s : σ} {r : List α × σ}
    (h : P s) (hr : runAll step s events = .ok r) : P r.2 := by
  induction events generalizing s r with
  | nil => exact Except.ok.inj hr ▸ h
  | cons e events ih =>
    obtain ⟨first, hfirst, hrest⟩ := bind_eq_ok.mp hr
    obtain ⟨rest, hrest, hlast⟩ := bind_eq_ok.mp hrest
    have hkept : P rest.2 :=
      ih (fun s e r he => keeps s e r (by simp [he])) (keeps s e first (by simp) h hfirst) hrest
    obtain rfl := Except.ok.inj hlast
    exact hkept

end RegionHeap.Checked
