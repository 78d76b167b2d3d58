import RegionHeap.Collection.Full
import RegionHeap.Proofs.Blocks
import RegionHeap.Proofs.Marks
import RegionHeap.Proofs.Sums

/-!
Well-formed heaps: what programs and collections leave behind. Objects are the entries of dense
regions and the humongous ones; no two of them overlap.
-/
set_option autoImplicit false

namespace RegionHeap

/-- Filled with objects one behind the other: neither free nor part of a humongous object. -/
def RegionKind.isOrdinary (k : RegionKind) : Bool := !k.isFree && !k.isHumongous

namespace RegionKind

variable {k : RegionKind}

theorem not_of_ordinary (hk : k.isOrdinary) : k.isFree = false ∧ k.isHumongous = false ∧
    k.isStartsHumongous = false ∧ k.isContinuesHumongous = false := by
  cases k <;> first | contradiction | exact ⟨rfl, rfl, rfl, rfl⟩

theorem not_of_humongous (hk : k.isHumongous) : k.isFree = false ∧ k.isOrdinary = false ∧
    k.isClosedArchive = false ∧ k.isYoung = false := by
  cases k <;> first | contradiction | exact ⟨rfl, rfl, rfl, rfl⟩

theorem not_humongous_of_free (hk : k.isFree) : k.isHumongous = false := by
  cases k <;> first | contradiction | rfl

end RegionKind

namespace Object

/-- Header and fields fit into the object. -/
def Formatted (m : Memory) (o : Nat) : Prop := headerWords + fieldCount m o ≤ size m o

/-- What the fields refer to, null among it. -/
def referents (m : Memory) (o : Nat) : List Nat := (slots m o).map m.read

end Object

namespace Layout

theorem add_le_bottom (L : Layout) (i words : Nat) :
    L.bottom i + 8 * words ≤ L.bottom (i + Word.divCeil words L.words) := by
  have := Word.le_divCeil_mul words L.words_pos
  rw [L.bottom_add, bytes, Nat.mul_left_comm]
  omega

theorem bottom_lt_add (L : Layout) (i : Nat) {words : Nat} (h : 0 < words) :
    L.bottom (i + Word.divCeil words L.words - 1) < L.bottom i + 8 * words := by
  have hpos := Word.divCeil_pos h L.words_pos
  have := Word.divCeil_mul_lt L.words_pos hpos
  rw [Nat.add_sub_assoc (show 1 ≤ _ from hpos), L.bottom_add, bytes, Nat.mul_left_comm]
  omega

end Layout

namespace Heap

def region (h : Heap) (i : Nat) : Region := h.table.region i

/-- The objects that begin in a region, fillers among them. -/
def objectsIn (h : Heap) (i : Nat) : List Nat :=
  if (h.region i).kind.isOrdinary then (h.region i).objects h.memory
  else if (h.region i).kind.isStartsHumongous then [(h.region i).bottom] else []

def IsObject (h : Heap) (o : Nat) : Prop := ∃ i, i < h.regionCount ∧ o ∈ h.objectsIn i

/-- In a region that marking does not enter. -/
def InClosedArchive (h : Heap) (a : Nat) : Prop :=
  ∃ i, i < h.regionCount ∧ (h.region i).kind.isClosedArchive ∧ (h.region i).contains a

/-- The slots that a collection starts from. -/
def markingRoots (h : Heap) (clearSoft : Bool) : List Nat :=
  h.roots.strong ++ if clearSoft then [] else h.roots.soft

/-- Reached from the roots, through no closed archive region. -/
inductive Traced (h : Heap) (clearSoft : Bool) : Nat → Prop where
  | root {o : Nat} : o ∈ h.markingRoots clearSoft → o ≠ 0 → ¬h.InClosedArchive o →
      Traced h clearSoft o
  | field {o p : Nat} : Traced h clearSoft o → p ∈ Object.referents h.memory o → p ≠ 0 →
      ¬h.InClosedArchive p → Traced h clearSoft p

/-- The objects that a collection keeps. -/
def Alive (h : Heap) (clearSoft : Bool) (o : Nat) : Prop :=
  h.Traced clearSoft o ∨ h.IsObject o ∧ h.InClosedArchive o

open Classical in
/-- The traced objects of a region, which a collection marks. -/
noncomputable def liveIn (h : Heap) (clearSoft : Bool) (i : Nat) : List Nat :=
  (h.objectsIn i).filter fun o => h.Traced clearSoft o

/-- Reached from any root. -/
inductive Reached (h : Heap) : Nat → Prop where
  | root {o : Nat} (k : Strength) : o ∈ h.roots.slots k → o ≠ 0 → Reached h o
  | field {o p : Nat} : Reached h o → p ∈ Object.referents h.memory o → p ≠ 0 → Reached h p

/-- The regions from one on are those of the humongous object at its bottom. -/
structure Spans (h : Heap) (L : Layout) (s : Nat) : Prop where
  within : s + h.humongousSpan (h.region s) ≤ L.count
  first : (h.region s).humongousStart = some s
  later : ∀ i, s < i → i < s + h.humongousSpan (h.region s) →
    (h.region i).kind = .continuesHumongous ∧ (h.region i).humongousStart = some s
  /-- They are in use as far as the object reaches. -/
  covered : ∀ i, s ≤ i → i < s + h.humongousSpan (h.region s) →
    min (Object.limit h.memory (L.bottom s)) (L.bottom (i + 1)) ≤ (h.region i).top

/-- The group's members and its card set exist. -/
def Linked (h : Heap) (g : Group) : Prop :=
  g.cards < h.table.shared.sets.size ∧ ∀ i ∈ g.regions, i < h.regionCount

/-- The regions and their objects are in order, whatever the objects refer to. -/
structure Built (h : Heap) (L : Layout) : Prop where
  options : h.options.Valid
  start : h.start = L.start
  bytes : h.regionBytes = L.bytes
  table : h.table.Laid L
  gang : 0 < h.gang.size
  free : ∀ i, i < L.count → (h.region i).kind.isFree → (h.region i).top = L.bottom i
  dense : ∀ i, i < L.count → (h.region i).kind.isOrdinary → (h.region i).isDense h.memory
  formatted : ∀ o, h.IsObject o → Object.Formatted h.memory o
  blocks : ∀ i, i < L.count → (h.region i).kind.isOrdinary →
    (h.region i).blocks.Sound (h.objectsIn i) (h.region i).top
  humongous : ∀ s, s < L.count → (h.region s).kind.isStartsHumongous → h.Spans L s
  continued : ∀ i, i < L.count → (h.region i).kind.isContinuesHumongous →
    ∃ s, s < i ∧ (h.region s).kind.isStartsHumongous ∧ i < s + h.humongousSpan (h.region s)
  unforwarded : ∀ o, h.IsObject o → h.memory.read o = 0
  linked : ∀ g ∈ h.candidates.retained.groups ++ h.candidates.marking.groups, h.Linked g

/-- The references in roots, and in objects that a collection may trace, are valid. -/
structure Referring (h : Heap) : Prop where
  rooted : ∀ k, ∀ o ∈ h.roots.slots k, o ≠ 0 → h.IsObject o
  valid : ∀ o, h.Traced false o → ∀ p ∈ Object.referents h.memory o, p ≠ 0 → h.IsObject p

/-- What a collection needs of a heap, whatever is marked in its liveness map. -/
structure Consistent (h : Heap) (L : Layout) : Prop extends h.Built L, h.Referring

/-- Nothing is marked. -/
structure Unmarked (h : Heap) (L : Layout) : Prop where
  liveness : h.liveness.Laid L
  unmarked : ∀ a, L.IsWord a → h.liveness.marked L a = false

/-- A heap that can be collected. -/
structure Clean (h : Heap) (L : Layout) : Prop extends h.Consistent L, h.Unmarked L

/-- Closed archives refer only to each other. -/
def SelfContained (h : Heap) : Prop :=
  ∀ o, h.IsObject o → h.InClosedArchive o → ∀ p ∈ Object.referents h.memory o, p ≠ 0 →
    h.IsObject p ∧ h.InClosedArchive p

/-- A heap that can be collected, in which all that is reached is valid and closed archives refer
only to each other. -/
structure WellFormed (h : Heap) (L : Layout) : Prop extends h.Clean L where
  reached : ∀ o, h.Reached o → h.IsObject o
  archived : h.SelfContained

namespace Built

variable {h : Heap} {L : Layout} {i o p : Nat} {clearSoft : Bool}

theorem regionCount (w : h.Built L) : h.regionCount = L.count := w.table.size

theorem laid (w : h.Built L) (hi : i < L.count) : (h.region i).Laid L i := w.table.region i hi

theorem objectsIn_ordinary (ho : (h.region i).kind.isOrdinary) :
    h.objectsIn i = Object.walk h.memory (h.region i).bottom (h.region i).top := by
  simp [objectsIn, ho, Region.objects]

theorem objectsIn_humongous (w : h.Built L) (hi : i < L.count)
    (hs : (h.region i).kind.isStartsHumongous) : h.objectsIn i = [L.bottom i] := by
  have hk : (h.region i).kind = .startsHumongous := by
    simpa [RegionKind.isStartsHumongous] using hs
  have hb := (w.laid hi).bottom
  simp [objectsIn, hk, hb, RegionKind.isOrdinary, RegionKind.isFree, RegionKind.isHumongous,
    RegionKind.isStartsHumongous]

theorem cases_of_mem (ho : o ∈ h.objectsIn i) :
    (h.region i).kind.isOrdinary ∨ (h.region i).kind.isStartsHumongous := by
  unfold objectsIn at ho
  split at ho
  · next hk => exact .inl hk
  · split at ho
    · next hk => exact .inr hk
    · simp at ho

theorem size_ge (w : h.Built L) (ho : h.IsObject o) : 2 ≤ Object.size h.memory o := by
  have := w.formatted o ho
  unfold Object.Formatted Object.headerWords at this
  omega

theorem chain (w : h.Built L) (hi : i < L.count) (hk : (h.region i).kind.isOrdinary) :
    Object.Chain h.memory (L.bottom i) (h.objectsIn i) (h.region i).top := by
  have hl := w.laid hi
  have hd := w.dense i hi hk
  have hsub : ∀ o ∈ h.objectsIn i, 0 < Object.size h.memory o := fun o ho => by
    have := w.size_ge ⟨i, by rw [w.regionCount]; exact hi, ho⟩
    omega
  rw [objectsIn_ordinary hk] at hsub ⊢
  rw [hl.bottom] at hsub ⊢
  rw [Region.isDense, hl.bottom, beq_iff_eq] at hd
  exact Object.chain_of_walk hl.bottom_le hsub hd

theorem regionWords (w : h.Built L) : h.regionWords = L.words := by
  have := w.bytes
  simp only [regionBytes, Heap.regionWords, Options.regionWords, Nat.shiftRight_eq_div_pow,
    Layout.bytes] at *
  omega

theorem words_lt (w : h.Built L) : L.words < Object.sizeLimit := by
  have hsize := w.options.regionSize
  simp only [Options.isRegionSize, Bool.and_eq_true, decide_eq_true_eq] at hsize
  have hle := hsize.2
  have hlargest : Options.maxRegionSize = 33554432 := rfl
  have hbound : Object.sizeLimit = 4294967296 := rfl
  rw [← w.regionWords, Heap.regionWords, Options.regionWords, Nat.shiftRight_eq_div_pow]
  omega

theorem regionsFor_eq (w : h.Built L) (words : Nat) :
    h.regionsFor words = Word.divCeil words L.words := by
  rw [regionsFor, w.regionWords]

theorem humongousSpan_eq (w : h.Built L) (hi : i < L.count) :
    h.humongousSpan (h.region i) =
      Word.divCeil (Object.size h.memory (L.bottom i)) L.words := by
  rw [humongousSpan, w.regionsFor_eq, (w.laid hi).bottom]

theorem humongous_isObject (w : h.Built L) (hi : i < L.count)
    (hs : (h.region i).kind.isStartsHumongous) : h.IsObject (L.bottom i) :=
  ⟨i, by rw [w.regionCount]; exact hi, by rw [w.objectsIn_humongous hi hs]; simp⟩

theorem span_pos (w : h.Built L) (hi : i < L.count)
    (hs : (h.region i).kind.isStartsHumongous) : 0 < h.humongousSpan (h.region i) := by
  have := w.size_ge (w.humongous_isObject hi hs)
  rw [w.humongousSpan_eq hi]
  exact Word.divCeil_pos (by omega) L.words_pos

theorem limit_le_span (w : h.Built L) (hi : i < L.count) :
    Object.limit h.memory (L.bottom i) ≤ L.bottom (i + h.humongousSpan (h.region i)) := by
  rw [w.humongousSpan_eq hi]
  exact L.add_le_bottom i _

theorem span_lt_limit (w : h.Built L) (hi : i < L.count)
    (hs : (h.region i).kind.isStartsHumongous) :
    L.bottom (i + h.humongousSpan (h.region i) - 1) < Object.limit h.memory (L.bottom i) := by
  have := w.size_ge (w.humongous_isObject hi hs)
  rw [w.humongousSpan_eq hi]
  exact L.bottom_lt_add i (by omega)

/-- Where an object of a region lies. -/
theorem object_of (w : h.Built L) (hi : i < L.count) (ho : o ∈ h.objectsIn i) :
    L.IsWord o ∧ L.regionOf o = i ∧ o < (h.region i).top ∧
      Object.limit h.memory o ≤ L.limit := by
  have hl := w.laid hi
  have hle := Layout.bottom_add_le_limit hi
  have hb := L.bottom_mod i
  have hobj : h.IsObject o := ⟨i, by rw [w.regionCount]; exact hi, ho⟩
  have hz := w.size_ge hobj
  have := hl.top_le
  rcases cases_of_mem ho with hk | hk
  · have hc := w.chain hi hk
    have hfrom := hc.le_of_mem ho
    have hlt := hc.lt_of_mem ho
    have hto := hc.limit_le ho
    exact ⟨Layout.isWord_of_le hi hfrom (by omega) ((hc.aligned hb).2 o ho),
      Layout.regionOf_eq hfrom (by omega), hlt, by omega⟩
  · obtain rfl : o = L.bottom i := by simpa [w.objectsIn_humongous hi hk] using ho
    have hs := w.humongous i hi hk
    have hcovered := hs.covered i (Nat.le_refl _) (by have := w.span_pos hi hk; omega)
    have hspan := w.limit_le_span hi
    have hend := Layout.bottom_mono (L := L) hs.within
    have hsucc := L.bottom_succ i
    have hbytes := L.bytes_ge
    refine ⟨Layout.isWord_bottom hi, L.regionOf_bottom i, ?_, Nat.le_trans hspan hend⟩
    unfold Object.limit at hcovered
    omega

theorem mem_objectsIn (w : h.Built L) (ho : h.IsObject o) :
    L.IsWord o ∧ o ∈ h.objectsIn (L.regionOf o) := by
  obtain ⟨i, hi, hm⟩ := ho
  rw [w.regionCount] at hi
  obtain ⟨hword, rfl, -⟩ := w.object_of hi hm
  exact ⟨hword, hm⟩

theorem isObject (w : h.Built L) (hi : i < L.count) (ho : o ∈ h.objectsIn i) :
    h.IsObject o :=
  ⟨i, by rw [w.regionCount]; exact hi, ho⟩

theorem within_of (w : h.Built L) (hi : i < L.count) (hk : (h.region i).kind.isOrdinary)
    (ho : o ∈ h.objectsIn i) :
    L.bottom i ≤ o ∧ Object.limit h.memory o ≤ (h.region i).top ∧
      (h.region i).top ≤ L.bottom i + L.bytes := by
  have hc := w.chain hi hk
  exact ⟨hc.le_of_mem ho, hc.limit_le ho, (w.laid hi).top_le⟩

theorem span_le_of (w : h.Built L) {j : Nat} (hi : i < L.count)
    (hk : (h.region i).kind.isStartsHumongous) (hj : j < L.count) (hp : p ∈ h.objectsIn j)
    (hij : i ≤ j) (hne : p ≠ L.bottom i) : i + h.humongousSpan (h.region i) ≤ j := by
  refine Nat.le_of_not_lt fun hlt => ?_
  rcases Nat.eq_or_lt_of_le hij with rfl | hlt'
  · rw [w.objectsIn_humongous hi hk, List.mem_singleton] at hp
    exact hne hp
  · have hc := ((w.humongous i hi hk).later j hlt' hlt).1
    rcases cases_of_mem hp with hk' | hk' <;> rw [hc] at hk' <;> contradiction

/-- The lower of two objects ends before the other begins. -/
theorem apart (w : h.Built L) (ho : h.IsObject o) (hp : h.IsObject p) (hlt : o < p) :
    Object.limit h.memory o ≤ p := by
  obtain ⟨i, hi, hoi⟩ := ho
  obtain ⟨j, hj, hpj⟩ := hp
  rw [w.regionCount] at hi hj
  have ho' := w.object_of hi hoi
  have hp' := w.object_of hj hpj
  have hob := Layout.bottom_regionOf_le ho'.1.start_le
  obtain ⟨hpb, hpl⟩ := Layout.bounds_of_regionOf hp'.1.start_le rfl
  rw [ho'.2.1] at hob
  rw [hp'.2.1] at hpb hpl
  have hij : i ≤ j := by
    by_cases hij : i ≤ j
    · exact hij
    · have := Layout.bottom_add_le (L := L) (show j < i by omega)
      omega
  rcases cases_of_mem hoi with hk | hk
  · have hc := w.chain hi hk
    rcases Nat.eq_or_lt_of_le hij with rfl | hlt'
    · exact hc.limit_le_of_lt hoi hpj hlt
    · have := Layout.bottom_add_le (L := L) hlt'
      have := (w.laid hi).top_le
      have := hc.limit_le hoi
      omega
  · have hb : o = L.bottom i := by simpa [w.objectsIn_humongous hi hk] using hoi
    have hle := w.limit_le_span hi
    have := Layout.bottom_mono (L := L) (w.span_le_of hi hk hj hpj hij (by omega))
    rw [hb]
    omega

/-- What is left behind a humongous object is not part of any object. -/
theorem behind_humongous (w : h.Built L) {s a : Nat} (hs : s < L.count)
    (hk : (h.region s).kind.isStartsHumongous) (ho : h.IsObject o)
    (hfrom : Object.limit h.memory (L.bottom s) ≤ a)
    (hto : a < L.bottom (s + h.humongousSpan (h.region s))) :
    a < o ∨ Object.limit h.memory o ≤ a := by
  have hstart := w.humongous_isObject hs hk
  rcases Nat.lt_trichotomy o (L.bottom s) with hlt | rfl | hlt
  · have := w.apart ho hstart hlt
    refine .inr (Nat.le_trans this ?_)
    unfold Object.limit at hfrom
    omega
  · exact .inr hfrom
  · obtain ⟨hw, hmem⟩ := w.mem_objectsIn ho
    have hle := w.span_le_of hs hk hw.regionOf_lt hmem
      (L.regionOf_bottom s ▸ Layout.regionOf_mono (Nat.le_of_lt hlt)) (by omega)
    have := Layout.bottom_mono (L := L) hle
    have := Layout.bottom_regionOf_le hw.start_le
    exact .inl (by omega)

theorem inClosedArchive_iff (w : h.Built L) (ha : L.IsWord o) :
    h.InClosedArchive o ↔ (h.region (L.regionOf o)).kind.isClosedArchive = true := by
  constructor
  · rintro ⟨i, hi, hk, hc⟩
    rw [w.regionCount] at hi
    have hl := w.laid hi
    have hb := hl.bottom
    have hlim := hl.limit
    simp only [Region.contains, Bool.and_eq_true, decide_eq_true_eq] at hc
    rw [Layout.regionOf_eq (i := i) (by omega) (by omega)]
    exact hk
  · intro hk
    have hi := ha.regionOf_lt
    have hl := w.laid hi
    obtain ⟨hfrom, hto⟩ := Layout.bounds_of_regionOf ha.start_le rfl
    refine ⟨L.regionOf o, by rw [w.regionCount]; exact hi, hk, ?_⟩
    simp [Region.contains, hl.bottom, hl.limit, hfrom, hto]

end Built

theorem not_reached {h : Heap} {o : Nat} (hr : h.roots = {}) : ¬h.Reached o := by
  intro ho
  induction ho with
  | root s ho _ =>
    rw [hr] at ho
    cases s <;> simp [Roots.slots] at ho
  | field _ _ _ ih => exact ih

theorem Traced.reached {h : Heap} {clearSoft : Bool} {o : Nat} (ht : h.Traced clearSoft o) :
    h.Reached o := by
  induction ht with
  | @root o ho hz _ =>
    unfold markingRoots at ho
    rcases List.mem_append.mp ho with ho | ho
    · exact .root .strong ho hz
    · cases clearSoft with
      | true => simp at ho
      | false => exact .root .soft (by simpa [Roots.slots] using ho) hz
  | field _ hp hz _ ih => exact .field ih hp hz

theorem Traced.not_archived {h : Heap} {clearSoft : Bool} {o : Nat} (ht : h.Traced clearSoft o) :
    ¬h.InClosedArchive o := by
  cases ht with
  | root _ _ ha => exact ha
  | field _ _ _ ha => exact ha

theorem mem_liveIn {h : Heap} {clearSoft : Bool} {i o : Nat} :
    o ∈ h.liveIn clearSoft i ↔ o ∈ h.objectsIn i ∧ h.Traced clearSoft o := by
  simp [liveIn]

theorem Traced.keepSoft {h : Heap} {clearSoft : Bool} {o : Nat} (ht : h.Traced clearSoft o) :
    h.Traced false o := by
  induction ht with
  | root ho hz ha =>
    refine .root ?_ hz ha
    unfold markingRoots at ho ⊢
    rcases List.mem_append.mp ho with ho | ho
    · exact List.mem_append_left _ ho
    · cases clearSoft with
      | true => simp at ho
      | false => exact List.mem_append_right _ ho
  | field _ hp hz ha ih => exact .field ih hp hz ha

namespace Consistent

variable {h : Heap} {L : Layout} {clearSoft : Bool} {o p : Nat}

theorem root_isObject (w : h.Consistent L) (ho : o ∈ h.markingRoots clearSoft) (hz : o ≠ 0) :
    h.IsObject o := by
  unfold markingRoots at ho
  rcases List.mem_append.mp ho with ho | ho
  · exact w.rooted .strong o ho hz
  · cases clearSoft with
    | true => simp at ho
    | false => exact w.rooted .soft o (by simpa [Roots.slots] using ho) hz

theorem referent_isObject (w : h.Consistent L) (ht : h.Traced clearSoft o)
    (hp : p ∈ Object.referents h.memory o) (hz : p ≠ 0) : h.IsObject p :=
  w.valid o ht.keepSoft p hp hz

theorem traced_isObject (w : h.Consistent L) (ht : h.Traced clearSoft o) : h.IsObject o := by
  cases ht with
  | root ho hz _ => exact w.root_isObject ho hz
  | field ht hp hz _ => exact w.referent_isObject ht hp hz

theorem mem_liveIn_regionOf (w : h.Consistent L) (ht : h.Traced clearSoft o) :
    o ∈ h.liveIn clearSoft (L.regionOf o) :=
  mem_liveIn.mpr ⟨(w.mem_objectsIn (w.traced_isObject ht)).2, ht⟩

end Consistent

theorem Referring.of_reached {h : Heap} (hr : ∀ o, h.Reached o → h.IsObject o) : h.Referring :=
  ⟨fun k _ ho hz => hr _ (.root k ho hz), fun _ ht _ hp hz => hr _ (.field ht.reached hp hz)⟩

end Heap

namespace Object

variable {m : Memory} {o a : Nat}

theorem mem_slots (ha : a ∈ slots m o) :
    ∃ i, i < fieldCount m o ∧ a = o + 8 * (headerWords + i) := by
  simp only [slots, List.mem_map, List.mem_range, slot] at ha
  obtain ⟨i, hi, rfl⟩ := ha
  exact ⟨i, hi, rfl⟩

theorem slots_bounds (hf : Formatted m o) (ha : a ∈ slots m o) :
    o + 16 ≤ a ∧ a + 8 ≤ limit m o ∧ a % 8 = o % 8 := by
  obtain ⟨i, hi, rfl⟩ := mem_slots ha
  unfold Formatted at hf
  unfold headerWords at hf ⊢
  unfold limit
  omega

end Object

end RegionHeap
