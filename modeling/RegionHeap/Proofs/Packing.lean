import RegionHeap.Proofs.Sorting

/-!
Places for objects. A plan gives every sliding object a place behind the one before it; what it
writes down are forwarding words, block tables and tops, and nothing else of the heap changes.
-/
set_option autoImplicit false

namespace RegionHeap

/-- Objects with their places, one behind the other. -/
inductive Packed (size : Nat → Nat) : Nat → List (Nat × Nat) → Nat → Prop where
  | nil (a : Nat) : Packed size a [] a
  | cons {o a b : Nat} {ps : List (Nat × Nat)} : Packed size (a + 8 * size o) ps b →
      Packed size a ((o, a) :: ps) b

namespace Packed

variable {size : Nat → Nat} {a b : Nat} {ps : List (Nat × Nat)} {p q : Nat × Nat}

theorem le (h : Packed size a ps b) : a ≤ b := by
  induction h with
  | nil => exact Nat.le_refl _
  | cons _ ih => omega

theorem bounds (h : Packed size a ps b) (hp : p ∈ ps) : a ≤ p.2 ∧ p.2 + 8 * size p.1 ≤ b := by
  induction h with
  | nil => simp at hp
  | cons hr ih =>
    have := hr.le
    rcases List.mem_cons.mp hp with rfl | hp
    · exact ⟨Nat.le_refl _, hr.le⟩
    · have := ih hp
      omega

theorem aligned (h : Packed size a ps b) (ha : a % 8 = 0) (hp : p ∈ ps) : p.2 % 8 = 0 := by
  induction h with
  | nil => simp at hp
  | cons _ ih =>
    rcases List.mem_cons.mp hp with rfl | hp
    · exact ha
    · exact ih (by omega) hp

theorem snoc (h : Packed size a ps b) (o : Nat) :
    Packed size a (ps ++ [(o, b)]) (b + 8 * size o) := by
  induction h with
  | nil => exact .cons (.nil _)
  | cons _ ih => exact .cons ih

theorem apart (h : Packed size a ps b) : ps.Pairwise fun p q => p.2 + 8 * size p.1 ≤ q.2 := by
  induction h with
  | nil => exact .nil
  | cons hr ih => exact .cons (fun q hq => (hr.bounds hq).1) ih

theorem apart_of_ne (h : Packed size a ps b) (hp : p ∈ ps) (hq : q ∈ ps) (hne : p ≠ q) :
    p.2 + 8 * size p.1 ≤ q.2 ∨ q.2 + 8 * size q.1 ≤ p.2 := by
  induction h with
  | nil => simp at hp
  | cons hr ih =>
    rcases List.mem_cons.mp hp with rfl | hp' <;> rcases List.mem_cons.mp hq with rfl | hq'
    · exact absurd rfl hne
    · exact .inl (hr.bounds hq').1
    · exact .inr (hr.bounds hp').1
    · exact ih hp' hq'

theorem end_eq (h : Packed size a ps b) :
    b = a + 8 * Word.total (ps.map fun p => size p.1) := by
  induction h with
  | nil => simp [Word.total]
  | cons _ ih =>
    simp only [List.map_cons, Word.total]
    omega

theorem covers (h : Packed size a ps b) {x : Nat} (hx : a ≤ x) (hx' : x < b) :
    ∃ p ∈ ps, p.2 ≤ x ∧ x < p.2 + 8 * size p.1 := by
  induction h with
  | nil => omega
  | @cons o a b ps _ ih =>
    by_cases hin : x < a + 8 * size o
    · exact ⟨(o, a), by simp, hx, hin⟩
    · obtain ⟨p, hp, hpx⟩ := ih (by omega) hx'
      exact ⟨p, by simp [hp], hpx⟩

theorem eq_first (h : Packed size a (q :: ps) b) (hq : 0 < size q.1) (hp : p ∈ q :: ps)
    (hpa : p.2 = a) : p = q := by
  cases h with
  | cons hr =>
    rcases List.mem_cons.mp hp with rfl | hp
    · rfl
    · have hle : a + 8 * size _ ≤ p.2 := (hr.bounds hp).1
      simp only at hq
      omega

/-- Once objects of these sizes lie at the places, the memory is a chain of them. -/
theorem chain (h : Packed size a ps b) {m : Memory}
    (hm : ∀ p ∈ ps, Object.size m p.2 = size p.1 ∧ 0 < size p.1) :
    Object.Chain m a (ps.map Prod.snd) b := by
  induction h with
  | nil => exact .nil _
  | @cons o a b ps _ ih =>
    obtain ⟨hs, hz⟩ := hm (o, a) (by simp)
    refine .cons (by simpa [hs] using hz) ?_
    rw [Object.limit, hs]
    exact ih fun p hp => hm p (by simp [hp])

end Packed

/-- The forwarding word of an object tells its place. -/
def Sent (m : Memory) (p : Nat × Nat) : Prop := m.read p.1 = if p.1 = p.2 then 0 else p.2

theorem Sent.destination {m : Memory} {p : Nat × Nat} (h : Sent m p) (hp : 0 < p.2) :
    Object.destination m p.1 = p.2 := by
  unfold Sent at h
  unfold Object.destination Object.forwardee?
  split at h
  · next e =>
    rw [h]
    simp [e]
  · have : p.2 ≠ 0 := by omega
    simp [h, this]

theorem Object.destination_congr {m m' : Memory} {o : Nat} (h : m'.read o = m.read o) :
    destination m' o = destination m o := by
  simp only [destination, forwardee?, h]

namespace Heap

/-- An object that slides. -/
def Slides (h : Heap) (clearSoft : Bool) (threshold o : Nat) : Prop :=
  ∃ i, i < h.regionCount ∧ h.fate clearSoft threshold i = .compacting ∧ o ∈ h.liveIn clearSoft i

variable {h : Heap} {L : Layout} {clearSoft : Bool} {threshold i o p : Nat}

theorem Slides.isObject (hs : h.Slides clearSoft threshold o) : h.IsObject o := by
  obtain ⟨i, hi, -, ho⟩ := hs
  exact ⟨i, hi, (mem_liveIn.mp ho).1⟩

theorem Consistent.klass_not_object (w : h.Consistent L) (ho : h.IsObject o) :
    ¬h.IsObject (o + 8) := by
  intro ho'
  have hsize := w.size_ge ho
  have hapart := w.apart ho ho' (by omega)
  unfold Object.limit at hapart
  omega

end Heap

/-- A plan for the sliding objects. Regions stay in use as they were; only the forwarding words of
sliding objects change, and only the block tables of the regions that they slide through. -/
structure Plan.Of (h : Heap) (L : Layout) (clearSoft : Bool) (threshold : Nat) (t : RegionTable)
    (s : Plan) : Prop where
  laid : s.table.Laid L
  region : ∀ i, i < L.count → (s.table.region i).Alike (t.region i)
  blocks : ∀ i, i < L.count → h.fate clearSoft threshold i ≠ .compacting →
    (s.table.region i).blocks = (t.region i).blocks
  tops : s.tops.size = L.count
  memory : ∀ a, ¬h.Slides clearSoft threshold a → s.table.memory.read a = h.memory.read a

/-- Only these regions and the forwarding words of these objects differ between two plans. -/
structure Plan.Within (R O : Nat → Prop) (s s' : Plan) : Prop where
  region : ∀ k, ¬R k → s'.table.region k = s.table.region k
  top : ∀ k, ¬R k → Table.entry s'.tops k = Table.entry s.tops k
  memory : ∀ a, ¬O a → s'.table.memory.read a = s.table.memory.read a

namespace Plan

variable {h : Heap} {L : Layout} {clearSoft : Bool} {threshold : Nat} {t : RegionTable}
  {s s' s'' : Plan} {R O : Nat → Prop}

theorem Within.refl (s : Plan) : Within R O s s :=
  ⟨fun _ _ => rfl, fun _ _ => rfl, fun _ _ => rfl⟩

theorem Within.trans (h₁ : Within R O s s') (h₂ : Within R O s' s'') : Within R O s s'' :=
  ⟨fun k hk => (h₂.region k hk).trans (h₁.region k hk),
    fun k hk => (h₂.top k hk).trans (h₁.top k hk),
    fun a ha => (h₂.memory a ha).trans (h₁.memory a ha)⟩

theorem Within.mono {R' O' : Nat → Prop} (h : Within R O s s') (hR : ∀ k, R k → R' k)
    (hO : ∀ a, O a → O' a) : Within R' O' s s' :=
  ⟨fun k hk => h.region k fun h' => hk (hR k h'), fun k hk => h.top k fun h' => hk (hR k h'),
    fun a ha => h.memory a fun h' => ha (hO a h')⟩

theorem Within.append {ks ks' os os' : List Nat} (h₁ : Within (· ∈ ks) (· ∈ os) s s')
    (h₂ : Within (· ∈ ks') (· ∈ os') s' s'') (hk : ∀ k ∈ ks, k ∈ ks') :
    Within (· ∈ ks') (· ∈ os ++ os') s s'' :=
  (h₁.mono hk fun _ => List.mem_append_left _).trans
    (h₂.mono (fun _ h => h) fun _ => List.mem_append_right _)

theorem Of.klass (w : h.Consistent L) (f : Plan.Of h L clearSoft threshold t s) {o : Nat}
    (ho : h.IsObject o) : Object.klass s.table.memory o = Object.klass h.memory o :=
  f.memory _ fun hs => w.klass_not_object ho (hs.isObject)

theorem Of.size (w : h.Consistent L) (f : Plan.Of h L clearSoft threshold t s) {o : Nat}
    (ho : h.IsObject o) : Object.size s.table.memory o = Object.size h.memory o :=
  Object.size_congr (f.klass w ho)

theorem Of.setTop (f : Plan.Of h L clearSoft threshold t s) (i top : Nat) :
    Plan.Of h L clearSoft threshold t { s with tops := s.tops.setIfInBounds i top } :=
  ⟨f.laid, f.region, f.blocks, by rw [Array.size_setIfInBounds, f.tops], f.memory⟩

/-- A region that objects slide through gets another block table. -/
theorem Of.putBlocks (f : Plan.Of h L clearSoft threshold t s) {i : Nat} {r : Region}
    (hi : i < L.count) (hfate : h.fate clearSoft threshold i = .compacting)
    (hr : r = { s.table.region i with blocks := r.blocks }) (hlaid : r.Laid L i) :
    Plan.Of h L clearSoft threshold t { s with table := s.table.put i r } := by
  have hregion := f.laid.region_put_of hi r
  refine {
    laid := f.laid.put hi hlaid
    region := fun j hj => ?region
    blocks := fun j hj hf => ?blocks
    tops := f.tops
    memory := f.memory }
  case region =>
    rw [hregion]
    have halike := f.region j hj
    split
    · next e =>
      subst e
      rw [hr]
      exact ⟨halike.kind, halike.top, halike.pins, halike.humongousStart, halike.marked⟩
    · exact halike
  case blocks =>
    rw [hregion, if_neg fun e : i = j => hf (e ▸ hfate)]
    exact f.blocks j hj hf

/-- A sliding object gets another header. -/
theorem Of.send (f : Plan.Of h L clearSoft threshold t s) {o : Nat} {m : Memory}
    (hslides : h.Slides clearSoft threshold o)
    (hread : ∀ a, a ≠ o → m.read a = s.table.memory.read a) :
    Plan.Of h L clearSoft threshold t { s with table := { s.table with memory := m } } where
  laid := f.laid.withMemory m
  region := f.region
  blocks := f.blocks
  tops := f.tops
  memory := fun a ha => (hread a fun e => ha (e ▸ hslides)).trans (f.memory a ha)

end Plan

/-- What goes into a region, up to a top. -/
structure Filled (size : Nat → Nat) (L : Layout) (s : Plan) (k : Nat) (ps : List (Nat × Nat))
    (top : Nat) : Prop where
  packed : Packed size (L.bottom k) ps top
  le : top ≤ L.bottom k + L.bytes
  sent : ∀ p ∈ ps, Sent s.table.memory p
  sound : (s.table.region k).blocks.Sound (ps.map Prod.snd) top

namespace Filled

variable {size : Nat → Nat} {L : Layout} {s s' : Plan} {k top : Nat} {ps : List (Nat × Nat)}

theorem place (f : Filled size L s k ps top) (hk : k < L.count) {p : Nat × Nat} (hp : p ∈ ps)
    (hs : 0 < size p.1) : L.IsWord p.2 ∧ L.regionOf p.2 = k := by
  have := f.le
  have := f.packed.bounds hp
  have haligned := f.packed.aligned (L.bottom_mod k) hp
  exact ⟨Layout.isWord_of_le hk (by omega) (by omega) haligned,
    Layout.regionOf_eq (by omega) (by omega)⟩

theorem congr (f : Filled size L s k ps top) (hr : s'.table.region k = s.table.region k)
    (hm : ∀ p ∈ ps, s'.table.memory.read p.1 = s.table.memory.read p.1) :
    Filled size L s' k ps top :=
  ⟨f.packed, f.le, fun p hp => by rw [Sent, hm p hp]; exact f.sent p hp, hr ▸ f.sound⟩

theorem empty (hl : (s.table.region k).Laid L k) : Filled size L s k [] (L.bottom k) :=
  ⟨.nil _, Nat.le_add_right _ _, by simp,
    BlockTable.Sound.nil (Nat.le_of_eq hl.blocksBottom.symm)⟩

theorem snoc (f : Filled size L s k ps top) {o : Nat}
    (hle : top + 8 * size o ≤ L.bottom k + L.bytes)
    (hold : ∀ p ∈ ps, s'.table.memory.read p.1 = s.table.memory.read p.1)
    (hnew : Sent s'.table.memory (o, top))
    (hsound : (s'.table.region k).blocks.Sound (ps.map Prod.snd ++ [top]) (top + 8 * size o)) :
    Filled size L s' k (ps ++ [(o, top)]) (top + 8 * size o) where
  packed := f.packed.snoc o
  le := hle
  sent := fun p hp => by
    rcases List.mem_append.mp hp with hp | hp
    · rw [Sent, hold p hp]
      exact f.sent p hp
    · obtain rfl := List.mem_singleton.mp hp
      exact hnew
  sound := by
    rw [List.map_append]
    exact hsound

theorem within {R O : Nat → Prop} (f : Filled size L s k ps top) (hw : Plan.Within R O s s')
    (hk : ¬R k) (hp : ∀ p ∈ ps, ¬O p.1) : Filled size L s' k ps top :=
  f.congr (hw.region k hk) fun p h' => hw.memory p.1 (hp p h')

end Filled

end RegionHeap
