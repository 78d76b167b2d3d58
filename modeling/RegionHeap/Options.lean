import RegionHeap.Word

/-!
The collector's options: their defaults, the values each admits, and how they are read from text.
-/
set_option autoImplicit false

namespace RegionHeap

structure Options where
  threads : Nat
  dynamicThreads : Bool := true
  heapBytesPerThread : Nat := 64 <<< 20
  regionSize : Nat := 1 <<< 20
  heapWastePercent : Nat := 5
  /-- The dead percentage of a region that a full collection leaves alone. -/
  deadRatio : Nat := 5
  collectionsKeepPinned : Nat := 8
  mixedTarget : Nat := 8
  transferThreshold : Nat := 10
  cardSetInitialSlots : Nat := 8
  cardSetMaxSlots : Nat := 1 <<< 31 - 1
  verifyFull : Bool := false
  deriving DecidableEq, Repr

namespace Options

def minRegionSize : Nat := 64 <<< 10
def maxRegionSize : Nat := 32 <<< 20

/-- A word in decimal: ASCII digits behind at most one plus sign. -/
def readWord? (s : String) : Option Nat :=
  let digits := match s.toList with
    | '+' :: rest => rest
    | cs => cs
  if digits.isEmpty || !digits.all Char.isDigit then none
  else
    let n := digits.foldl (fun n c => 10 * n + (c.toNat - '0'.toNat)) 0
    if n < Word.limit then some n else none

def readBool? (s : String) : Option Bool :=
  if s = "true" then some true else if s = "false" then some false else none

def isRegionSize (n : Nat) : Bool :=
  Word.isPowerOfTwo n && minRegionSize ≤ n && n ≤ maxRegionSize

inductive Key where
  | threads
  | dynamicThreads
  | heapBytesPerThread
  | regionSize
  | heapWastePercent
  | deadRatio
  | collectionsKeepPinned
  | mixedTarget
  | transferThreshold
  | cardSetInitialSlots
  | cardSetMaxSlots
  | verifyFull
  deriving DecidableEq, Repr

def Key.name : Key → String
  | threads => "threads"
  | dynamicThreads => "use_dynamic_gc_threads"
  | heapBytesPerThread => "heap_size_per_gc_thread"
  | regionSize => "region_size"
  | heapWastePercent => "heap_waste_percent"
  | deadRatio => "mark_sweep_dead_ratio"
  | collectionsKeepPinned => "num_collections_keep_pinned"
  | mixedTarget => "mixed_gc_count_target"
  | transferThreshold => "free_list_transfer_threshold"
  | cardSetInitialSlots => "card_set_initial_slots"
  | cardSetMaxSlots => "card_set_max_slots"
  | verifyFull => "verify_full_gc"

def Key.all : List Key :=
  [threads, dynamicThreads, heapBytesPerThread, regionSize, heapWastePercent, deadRatio,
    collectionsKeepPinned, mixedTarget, transferThreshold, cardSetInitialSlots, cardSetMaxSlots,
    verifyFull]

theorem Key.mem_all (k : Key) : k ∈ all := by cases k <;> decide

def Key.ofName? (s : String) : Option Key := all.find? fun k => k.name == s

def readNumber? (valid : Nat → Bool) (s : String) : Option Nat := (readWord? s).filter valid

def isPositive (n : Nat) : Bool := 0 < n

def isPercentage (n : Nat) : Bool := n ≤ 100

def put? (o : Options) (k : Key) (s : String) : Option Options :=
  match k with
  | .threads => (readNumber? isPositive s).map fun n => { o with threads := n }
  | .dynamicThreads => (readBool? s).map fun b => { o with dynamicThreads := b }
  | .heapBytesPerThread =>
    (readNumber? isPositive s).map fun n => { o with heapBytesPerThread := n }
  | .regionSize => (readNumber? isRegionSize s).map fun n => { o with regionSize := n }
  | .heapWastePercent => (readNumber? isPercentage s).map fun n => { o with heapWastePercent := n }
  | .deadRatio => (readNumber? isPercentage s).map fun n => { o with deadRatio := n }
  | .collectionsKeepPinned => (readWord? s).map fun n => { o with collectionsKeepPinned := n }
  | .mixedTarget => (readNumber? isPositive s).map fun n => { o with mixedTarget := n }
  | .transferThreshold => (readWord? s).map fun n => { o with transferThreshold := n }
  | .cardSetInitialSlots =>
    (readNumber? isPositive s).map fun n => { o with cardSetInitialSlots := n }
  | .cardSetMaxSlots => (readNumber? isPositive s).map fun n => { o with cardSetMaxSlots := n }
  | .verifyFull => (readBool? s).map fun b => { o with verifyFull := b }

inductive Value where
  | number (n : Nat)
  | switch (on : Bool)
  deriving DecidableEq, Repr

def get (o : Options) : Key → Value
  | .threads => .number o.threads
  | .dynamicThreads => .switch o.dynamicThreads
  | .heapBytesPerThread => .number o.heapBytesPerThread
  | .regionSize => .number o.regionSize
  | .heapWastePercent => .number o.heapWastePercent
  | .deadRatio => .number o.deadRatio
  | .collectionsKeepPinned => .number o.collectionsKeepPinned
  | .mixedTarget => .number o.mixedTarget
  | .transferThreshold => .number o.transferThreshold
  | .cardSetInitialSlots => .number o.cardSetInitialSlots
  | .cardSetMaxSlots => .number o.cardSetMaxSlots
  | .verifyFull => .switch o.verifyFull

def set (o : Options) (name value : String) : Checked (Bool × Options) :=
  match Key.ofName? name with
  | none => .error (.unknownOption name)
  | some k =>
    match o.put? k value with
    | some o' => .ok (true, o')
    | none => .ok (false, o)

/-- Lower case as far as it can lead to an option's name: besides the ASCII letters only the
Kelvin sign has a lower case in ASCII. -/
def lowerCase (c : Char) : Char := if c = '\u212a' then 'k' else c.toLower

def environmentKey? (entry : String) : Option Key :=
  match entry.toList with
  | 'M' :: 'M' :: 'T' :: 'K' :: '_' :: rest => Key.ofName? (String.ofList (rest.map lowerCase))
  | _ => none

/-- The options of a process: variables that name no option, or hold no valid value, count for
nothing. -/
def ofEnvironment (threads : Nat) (environment : List (String × String)) : Options :=
  environment.foldl (fun o (name, value) =>
    match environmentKey? name with
    | some k => (o.put? k value).getD o
    | none => o) { threads := threads }

def regionWords (o : Options) : Nat := o.regionSize >>> 3

/-- Regions with more live words than this are left in place by a full collection. -/
def compactionThreshold (o : Options) : Nat := o.regionWords * (100 - o.deadRatio) / 100

/-- Every number is one of those its option admits. -/
structure Valid (o : Options) : Prop where
  threads : 0 < o.threads
  heapBytesPerThread : 0 < o.heapBytesPerThread
  regionSize : isRegionSize o.regionSize
  heapWastePercent : o.heapWastePercent ≤ 100
  deadRatio : o.deadRatio ≤ 100
  mixedTarget : 0 < o.mixedTarget
  cardSetInitialSlots : 0 < o.cardSetInitialSlots
  cardSetMaxSlots : 0 < o.cardSetMaxSlots

instance (o : Options) : Decidable o.Valid :=
  decidable_of_iff ((0 < o.threads ∧ 0 < o.heapBytesPerThread ∧ isRegionSize o.regionSize) ∧
      (o.heapWastePercent ≤ 100 ∧ o.deadRatio ≤ 100 ∧ 0 < o.mixedTarget) ∧
      0 < o.cardSetInitialSlots ∧ 0 < o.cardSetMaxSlots)
    ⟨fun ⟨⟨threads, bytes, size⟩, ⟨waste, dead, target⟩, initial, largest⟩ =>
      ⟨threads, bytes, size, waste, dead, target, initial, largest⟩,
     fun v => ⟨⟨v.threads, v.heapBytesPerThread, v.regionSize⟩,
      ⟨v.heapWastePercent, v.deadRatio, v.mixedTarget⟩, v.cardSetInitialSlots,
      v.cardSetMaxSlots⟩⟩

theorem regionSize_default : isRegionSize (1 <<< 20) = true := by decide

theorem valid_default {threads : Nat} (h : 0 < threads) : Valid { threads := threads } :=
  ⟨h, by simp, regionSize_default, by simp, by simp, by simp, by simp, by simp⟩

theorem readNumber?_valid {valid : Nat → Bool} {s : String} {n : Nat}
    (h : readNumber? valid s = some n) : valid n = true := by
  simp only [readNumber?, Option.filter_eq_some_iff] at h
  exact h.2

theorem Valid.put? {o o' : Options} {k : Key} {s : String} (v : o.Valid)
    (h : o.put? k s = some o') : o'.Valid := by
  cases k <;> simp only [Options.put?, Option.map_eq_some_iff] at h <;> obtain ⟨n, hn, rfl⟩ := h <;>
    first
    | exact { v with }
    | exact { v with threads := by simpa [isPositive] using readNumber?_valid hn }
    | exact { v with heapBytesPerThread := by simpa [isPositive] using readNumber?_valid hn }
    | exact { v with regionSize := readNumber?_valid hn }
    | exact { v with heapWastePercent := by simpa [isPercentage] using readNumber?_valid hn }
    | exact { v with deadRatio := by simpa [isPercentage] using readNumber?_valid hn }
    | exact { v with mixedTarget := by simpa [isPositive] using readNumber?_valid hn }
    | exact { v with cardSetInitialSlots := by simpa [isPositive] using readNumber?_valid hn }
    | exact { v with cardSetMaxSlots := by simpa [isPositive] using readNumber?_valid hn }

end Options

end RegionHeap
