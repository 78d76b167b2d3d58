import RegionHeap.Collection.Collector
import RegionHeap.Proofs.Checked

/-!
Tables as functions. Inside its bounds a table passes every request, so that reading becomes the
total function `Table.entry`, and writing changes that function in one place.
-/
set_option autoImplicit false

namespace RegionHeap

namespace Table

variable {α : Type} [Inhabited α]

def entry (xs : Array α) (i : Nat) : α := (xs[i]?).getD default

theorem get_of_lt {xs : Array α} {i : Nat} (h : i < xs.size) : get xs i = .ok (entry xs i) := by
  simp [get, entry, h]

omit [Inhabited α] in
theorem set_of_lt {xs : Array α} {i : Nat} (h : i < xs.size) (x : α) :
    set xs i x = .ok (xs.setIfInBounds i x) := by
  simp [set, h]

theorem entry_set {xs : Array α} {i : Nat} (h : i < xs.size) (x : α) (j : Nat) :
    entry (xs.setIfInBounds i x) j = if i = j then x else entry xs j := by
  simp only [entry, Array.getElem?_setIfInBounds, h]
  split <;> simp

@[simp] theorem entry_set_self {xs : Array α} {i : Nat} (h : i < xs.size) (x : α) :
    entry (xs.setIfInBounds i x) i = x := by
  simp [entry_set h]

theorem entry_set_of_ne (xs : Array α) {i j : Nat} (h : i ≠ j) (x : α) :
    entry (xs.setIfInBounds i x) j = entry xs j := by
  simp [entry, h]

theorem entry_replicate (n : Nat) (x : α) {i : Nat} (h : i < n) :
    entry (Array.replicate n x) i = x := by
  simp [entry, h]

theorem getElem?_eq_entry {xs : Array α} {i : Nat} (h : i < xs.size) :
    xs[i]? = some (entry xs i) := by
  simp [entry, h]

theorem entry_of_getElem? {xs : Array α} {i : Nat} {x : α} (h : xs[i]? = some x) :
    i < xs.size ∧ entry xs i = x := by
  have hi : i < xs.size := by
    by_cases hi : i < xs.size
    · exact hi
    · rw [Array.getElem?_eq_none (by omega)] at h
      contradiction
  exact ⟨hi, by simp [entry, h]⟩

theorem entry_map {β : Type} [Inhabited β] (f : α → β) {xs : Array α} {i : Nat}
    (h : i < xs.size) : entry (xs.map f) i = f (entry xs i) := by
  simp [entry, h]

theorem toList_eq_map (xs : Array α) : xs.toList = (List.range xs.size).map (entry xs) := by
  apply List.ext_getElem?
  intro i
  by_cases h : i < xs.size
  · simp [entry, h]
  · simp [h]

theorem mem_flatMap_entries {β : Type} {xs : Array α} {f : α → List β} {y : β} :
    y ∈ xs.toList.flatMap f ↔ ∃ i, i < xs.size ∧ y ∈ f (entry xs i) := by
  rw [toList_eq_map, List.flatMap_map, List.mem_flatMap]
  simp only [List.mem_range]

theorem nodup_flatMap_entries {β : Type} {xs : Array α} {f : α → List β}
    (hn : ∀ i, i < xs.size → (f (entry xs i)).Nodup)
    (ho : ∀ y i j, i < xs.size → j < xs.size → y ∈ f (entry xs i) → y ∈ f (entry xs j) → i = j) :
    (xs.toList.flatMap f).Nodup := by
  rw [toList_eq_map, List.flatMap_map, List.Nodup, List.pairwise_flatMap]
  refine ⟨fun i hi => hn i (List.mem_range.mp hi), ?_⟩
  refine (List.pairwise_lt_range (n := xs.size)).imp_of_mem fun hi hj hlt y hy z hz e => ?_
  have := ho y _ _ (List.mem_range.mp hi) (List.mem_range.mp hj) hy (e ▸ hz)
  omega

end Table

namespace RegionTable

/-- The region with an index. -/
def region (t : RegionTable) (i : Nat) : Region := Table.entry t.regions i

def put (t : RegionTable) (i : Nat) (r : Region) : RegionTable :=
  { t with regions := t.regions.setIfInBounds i r }

theorem get_of_lt {t : RegionTable} {i : Nat} (h : i < t.size) : t.get i = .ok (t.region i) :=
  Table.get_of_lt h

theorem set_of_lt {t : RegionTable} {i : Nat} (h : i < t.size) (r : Region) :
    t.set i r = .ok (t.put i r) := by
  simp [set, put, Table.set_of_lt (show i < t.regions.size from h)]

theorem update_of_lt {t : RegionTable} {i : Nat} (h : i < t.size) {f : Region → Checked Region}
    {r : Region} (hf : f (t.region i) = .ok r) : t.update i f = .ok (t.put i r) := by
  simp [update, get_of_lt h, hf, set_of_lt h]

@[simp] theorem size_put (t : RegionTable) (i : Nat) (r : Region) : (t.put i r).size = t.size := by
  simp [put, size]

@[simp] theorem memory_put (t : RegionTable) (i : Nat) (r : Region) :
    (t.put i r).memory = t.memory := rfl

@[simp] theorem shared_put (t : RegionTable) (i : Nat) (r : Region) :
    (t.put i r).shared = t.shared := rfl

@[simp] theorem config_put (t : RegionTable) (i : Nat) (r : Region) :
    (t.put i r).config = t.config := rfl

theorem region_put {t : RegionTable} {i : Nat} (h : i < t.size) (r : Region) (j : Nat) :
    (t.put i r).region j = if i = j then r else t.region j :=
  Table.entry_set h r j

@[simp] theorem region_put_self {t : RegionTable} {i : Nat} (h : i < t.size) (r : Region) :
    (t.put i r).region i = r := by
  simp [region_put h]

@[simp] theorem region_withMemory (t : RegionTable) (m : Memory) (i : Nat) :
    ({ t with memory := m } : RegionTable).region i = t.region i := rfl

@[simp] theorem size_withMemory (t : RegionTable) (m : Memory) :
    ({ t with memory := m } : RegionTable).size = t.size := rfl

end RegionTable

namespace AttrTable

def attr (t : AttrTable) (i : Nat) : RegionAttr := Table.entry t.attrs i

def put (t : AttrTable) (i : Nat) (a : RegionAttr) : AttrTable := ⟨t.attrs.setIfInBounds i a⟩

def size (t : AttrTable) : Nat := t.attrs.size

theorem get_of_lt {t : AttrTable} {i : Nat} (h : i < t.size) : t.get i = .ok (t.attr i) :=
  Table.get_of_lt h

theorem set_of_lt {t : AttrTable} {i : Nat} (h : i < t.size) (a : RegionAttr) :
    t.set i a = .ok (t.put i a) := by
  simp [set, put, Table.set_of_lt (show i < t.attrs.size from h)]

@[simp] theorem size_put (t : AttrTable) (i : Nat) (a : RegionAttr) :
    (t.put i a).size = t.size := by
  simp [put, size]

theorem attr_put {t : AttrTable} {i : Nat} (h : i < t.size) (a : RegionAttr) (j : Nat) :
    (t.put i a).attr j = if i = j then a else t.attr j :=
  Table.entry_set h a j

end AttrTable

end RegionHeap
