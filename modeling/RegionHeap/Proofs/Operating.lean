import RegionHeap.Proofs.FirstFit
import RegionHeap.Proofs.Requests
import RegionHeap.Proofs.Tidy

/-!
The operations of a program on a heap. Each of them passes on a tidy heap where it is allowed, and
leaves a tidy heap behind. An operation changes one region or those of one humongous object.
-/
set_option autoImplicit false

namespace RegionHeap

theorem RegionTable.put_self {t : RegionTable} {i : Nat} (h : i < t.size) :
    t.put i (t.region i) = t := by
  have he : t.regions.setIfInBounds i (t.region i) = t.regions := by
    apply Array.ext_getElem?
    intro j
    rw [Array.getElem?_setIfInBounds]
    split
    · next e =>
      subst e
      rw [if_pos (show i < t.regions.size from h)]
      exact (Table.getElem?_eq_entry h).symm
    · rfl
  rw [put, he]

namespace Object

variable {m : Memory} {o words fields : Nat}

theorem format_of (hf : headerWords + fields ≤ words) (hw : words < sizeLimit) :
    ∃ m', format m o words fields = .ok m' ∧ m'.read o = 0 ∧ size m' o = words ∧
      Formatted m' o ∧ ∀ a, a < o ∨ o + 8 * words ≤ a → m'.read a = m.read a := by
  obtain ⟨k, hk⟩ : ∃ k, words ||| (fields <<< 32) % Word.limit = k := ⟨_, rfl⟩
  obtain ⟨m', hm⟩ : ∃ m',
      ((m.write o 0).write (o + 8) k).zero (o + 16) (words - headerWords) = m' := ⟨_, rfl⟩
  have hadd : Word.add headerWords fields = .ok (headerWords + fields) := by
    rw [Word.add_eq_ok]
    unfold sizeLimit at hw
    unfold Word.limit
    omega
  have hlow : ∀ a, a < o + 16 → m'.read a = ((m.write o 0).write (o + 8) k).read a := fun a ha => by
    rw [← hm]
    exact Memory.read_writeAll_of_lt _ _ ha
  have hklass : klass m' o = k := by
    rw [klass, hlow _ (by omega), Memory.read_write_self]
  -- the size is in the lower half of the word, and the number of fields in the upper one
  have hsize : size m' o = words := by
    rw [size, hklass, ← hk, show sizeLimit = 2 ^ 32 from rfl, Nat.or_mod_two_pow,
      show Word.limit = 2 ^ 64 from rfl, Nat.mod_mod_of_dvd _ (by decide), Nat.shiftLeft_eq,
      Nat.mul_mod_left, Nat.or_zero]
    exact Nat.mod_eq_of_lt hw
  have hcount : fieldCount m' o ≤ fields := by
    rw [fieldCount, hklass, ← hk]
    refine Nat.le_trans (Nat.mod_le _ _) ?_
    rw [show sizeLimit = 2 ^ 32 from rfl, Nat.or_div_two_pow,
      Nat.div_eq_of_lt (show words < 2 ^ 32 from hw), Nat.zero_or]
    have := Nat.mod_le (fields <<< 32) Word.limit
    rw [Nat.shiftLeft_eq] at this ⊢
    omega
  refine ⟨m', ?_, ?_, hsize, by unfold Formatted; omega, fun a ha => ?_⟩
  · rw [format, Checked.bind_of hadd, Checked.unless_of (decide_eq_true hf), Checked.ok_bind,
      hk]
    exact congrArg Except.ok hm
  · rw [hlow _ (by omega), Memory.read_write_of_ne _ _ (by omega), Memory.read_write_self]
  · unfold headerWords at hf
    by_cases hin : a < o + 16
    · rw [hlow a hin, Memory.read_write_of_ne _ _ (by omega),
        Memory.read_write_of_ne _ _ (by omega)]
    · rw [← hm, Memory.zero, Memory.read_writeAll_of_ge _ _ (by
        rw [List.length_replicate]
        unfold headerWords
        omega), Memory.read_write_of_ne _ _ (by omega), Memory.read_write_of_ne _ _ (by omega)]

end Object

namespace Heap

variable {h h' : Heap} {L : Layout} {i : Nat}

theorem Listed.of_filter {p : Nat → Bool} (ht : h.table.Laid L) (hl : h.liveness.Laid L)
    (hr : ∀ i, i < L.count → (h.liveness.sliceAt i).state.isMarked = false)
    (hf : h.freeList = ⟨(List.range L.count).filter p⟩)
    (hp : ∀ i, i < L.count → (h.region i).kind.isFree = p i) : h.Listed L :=
  ⟨ht, hl, hr, by rw [hf, List.filter_congr fun i hi => hp i (List.mem_range.mp hi)]⟩

theorem Listed.mem_iff (l : h.Listed L) :
    i ∈ h.freeList.ids ↔ i < L.count ∧ (h.region i).kind.isFree = true := by
  rw [l.freeList]
  simp

namespace Tidy

variable (t : h.Tidy L)

include t

/-- A region with objects takes the place of one that is not part of a humongous object. -/
theorem putOrdinary (hi : i < L.count) (hk : (h.region i).kind.isHumongous = false) {r : Region}
    (hr : r.Laid L i) (hord : r.kind.isOrdinary) {m : Memory}
    (hmemory : ∀ a, ¬(L.bottom i ≤ a ∧ a < L.bottom i + L.bytes) → m.read a = h.memory.read a)
    {os : List Nat} (hc : Object.Chain m (L.bottom i) os r.top) (hs : r.blocks.Sound os r.top)
    (ho : ∀ o ∈ os, Object.Formatted m o ∧ m.read o = 0) :
    ({ h with
      freeList := h.freeList.erase i
      table := { h.table.put i r with memory := m } } : Heap).Tidy L := by
  obtain ⟨h', e⟩ : ∃ h', { h with
    freeList := h.freeList.erase i
    table := { h.table.put i r with memory := m } } = h' := ⟨_, rfl⟩
  have framed : h.Framed h' := by subst e; exact ⟨rfl, rfl, rfl, rfl, rfl⟩
  have hlaid : h'.table.Laid L := by subst e; exact (t.table.put hi hr).withMemory m
  have hput : ∀ j, h'.region j = if i = j then r else h.region j := by
    subst e
    exact t.table.region_put_of hi r
  have hself : h'.region i = r := (hput i).trans (if_pos rfl)
  have hread : h'.memory = m := by subst e; rfl
  -- the region is not free any more, so the free list lacks just this one
  have listed : h'.Listed L := by
    refine ⟨hlaid, by subst e; exact t.liveness, by subst e; exact t.reset, ?_⟩
    have hlist : h'.freeList = h.freeList.erase i := by subst e; rfl
    rw [hlist, t.freeList, IndexList.erase_filter]
    refine congrArg IndexList.mk (List.filter_congr fun j _ => ?_)
    rw [hput]
    split
    · next e' => simp [e', (RegionKind.not_of_ordinary hord).1]
    · next e' => simp [Ne.symm e']
  have orderly : h'.Orderly L i := .of_ordinary os (hself ▸ hr) (hself ▸ hord)
    (by rw [hself, hread]; exact hc) (by rw [hself]; exact hs) (by rw [hread]; exact ho)
  rw [e]
  refine t.of_orderly framed listed (t.frame framed hlaid (fun j => j = i)
    (fun j _ hj => (hput j).trans (if_neg (Ne.symm hj))) (fun j a hj hne hfrom hto => ?_)
    (t.whole_of fun k hc => hc ▸ hk) fun j _ hc => hc ▸ orderly)
  rw [hread]
  exact hmemory a fun hin => hne <| by
    rw [← Layout.regionOf_eq hfrom hto, ← Layout.regionOf_eq hin.1 hin.2]

theorem setRoots (roots : Roots) : ({ h with roots := roots } : Heap).Tidy L :=
  t.of_orderly ⟨rfl, rfl, rfl, rfl, rfl⟩ ⟨t.table, t.liveness, t.reset, t.freeList⟩
    (t.all_orderly ⟨rfl, rfl, rfl, rfl, rfl⟩ t.table fun _ _ =>
      ⟨rfl, rfl, rfl, rfl, rfl, fun _ _ => ⟨rfl, rfl⟩, fun _ _ => rfl⟩)

/-- The lowest free region gets a kind. -/
theorem allocateRegion_of {kind : RegionKind} (hk : isAllocatable kind) :
    ∃ place h', h.allocateRegion kind = .ok (place, h') ∧ h'.Tidy L := by
  cases hids : h.freeList.ids with
  | nil =>
    refine ⟨none, h, ?_, t⟩
    rw [allocateRegion, IndexList.removeFirst, hids]
    rfl
  | cons i rest =>
    obtain ⟨hi, hfree⟩ := t.mem_iff.mp (show i ∈ h.freeList.ids by simp [hids])
    have hb := t.blank i hi hfree
    have hl := t.laid hi
    obtain ⟨r, hr⟩ : ∃ r : Region, r = { h.region i with kind := kind } := ⟨_, rfl⟩
    have hassign : (h.region i).assign kind = .ok r := by
      rw [hr]
      cases kind <;> first | contradiction | simp [Region.assign, hb.kind, RegionKind.isFree]
    have hlr : r.Laid L i := by
      rw [hr]
      exact ((hl.sited hi).withKind kind _).laid hl.aligned
    have hord : r.kind.isOrdinary = true := by
      rw [hr]
      cases kind <;> first | contradiction | rfl
    have htop : r.top = L.bottom i := by
      rw [hr]
      exact hb.top.trans hl.bottom
    -- the first entry of the list is the lowest free region
    have hrest : h.freeList.erase i = ⟨rest⟩ := by
      rw [IndexList.erase, hids, List.erase_cons_head]
    have hcheck : ((h.table.region i).kind.isFree && (h.table.region i).isEmpty) = true := by
      show ((h.region i).kind.isFree && (h.region i).isEmpty) = true
      simp [hfree, Region.isEmpty, Region.used, hb.top]
    have hupdate : { h with freeList := ⟨rest⟩ }.updateRegion i (fun r => r.assign kind) =
        .ok { h with table := h.table.put i r, freeList := ⟨rest⟩ } :=
      updateRegion_of t.table hi hassign
    refine ⟨some i, { h with table := h.table.put i r, freeList := ⟨rest⟩ }, ?_, ?_⟩
    · rw [allocateRegion, IndexList.removeFirst, hids]
      dsimp only
      rw [Checked.bind_of (t.table.get_of hi), Checked.unless_of hcheck, Checked.ok_bind,
        Checked.unless_of hk, Checked.ok_bind, Checked.bind_of hupdate]
      rfl
    · have hchain : Object.Chain h.memory (L.bottom i) [] r.top := by
        rw [htop]
        exact .nil _
      have htidy := t.putOrdinary hi (RegionKind.not_humongous_of_free hfree) hlr
        hord (fun _ _ => rfl) hchain
        (BlockTable.Sound.nil (Nat.le_of_eq (htop.trans hlr.blocksBottom.symm))) (by simp)
      rw [hrest] at htidy
      exact htidy

theorem allocate_of (hi : i < L.count) {words : Nat} (hpos : 0 < words) (hw : words ≤ L.words) :
    h.table.allocate i words = .ok (none, h.table) ∨
    (h.region i).top + 8 * words ≤ L.bottom i + L.bytes ∧ ∃ starts r, r = { h.region i with
        top := (h.region i).top + 8 * words
        blocks := { (h.region i).blocks with starts := starts } } ∧
      h.table.allocate i words = .ok (some (h.region i).top, h.table.put i r) ∧ r.Laid L i ∧
      starts.size = (h.region i).blocks.starts.size ∧
      ∀ c, c < (h.region i).blocks.starts.size → Table.entry starts c =
        if (h.region i).top ≤ (h.region i).blocks.cardStart c ∧
          (h.region i).blocks.cardStart c < (h.region i).top + 8 * words then (h.region i).top
        else Table.entry (h.region i).blocks.starts c := by
  have hl := t.laid hi
  have hget : h.table.get i = .ok (h.region i) := t.table.get_of hi
  have hset := fun r => RegionTable.set_of_lt (t.table.size ▸ hi) r
  have hs := hl.sited hi
  have hroom : (h.region i).top + 8 * words < Word.limit := by
    have := Nat.le_trans hl.top_le (Layout.bottom_add_le_limit hi)
    have := t.behind
    have := L.bytes_eq
    omega
  -- no request of so few words wraps
  have hbytes : Region.requestBytes words = 8 * words := Region.requestBytes_of_lt (by
    simp only [Word.limit, Nat.shiftLeft_eq] at hroom ⊢
    omega)
  by_cases hfits : (h.region i).top + 8 * words ≤ L.bottom i + L.bytes
  · obtain ⟨starts, hallocate, hwhole, hsize, hentry⟩ := hs.allocate_of
      (show (h.region i).Serves words from ⟨by omega, by rw [hs.limit]; omega⟩)
    rw [hbytes] at hallocate hwhole hentry
    have halign := hl.aligned
    refine .inr ⟨hfits, starts, _, rfl, ?_,
      Region.Sited.laid ⟨hwhole, hs.index, hs.bottom, hs.limit⟩ (by dsimp only; omega), hsize,
      hentry⟩
    rw [RegionTable.allocate, Checked.bind_of hget, Checked.bind_of hallocate]
    dsimp only
    rw [hset]
    rfl
  · left
    have hfull : (h.region i).allocate words = .ok (none, h.region i) :=
      Region.allocate_full (by rw [hs.limit]; omega) (by omega)
    rw [RegionTable.allocate, Checked.bind_of hget, Checked.bind_of hfull]
    dsimp only
    rw [hset, show h.region i = h.table.region i from rfl,
      RegionTable.put_self (t.table.size ▸ hi)]
    rfl

theorem onTop (hi : i < L.count) (hk : (h.region i).kind.isOrdinary) {words : Nat}
    (hpos : 0 < words) (hfits : (h.region i).top + 8 * words ≤ L.bottom i + L.bytes)
    {r : Region} {starts : Array Nat} (hr : r = { h.region i with
      top := (h.region i).top + 8 * words
      blocks := { (h.region i).blocks with starts := starts } }) (hlr : r.Laid L i)
    (hsound : r.blocks.Sound (h.objectsIn i ++ [(h.region i).top]) r.top) {m : Memory}
    (hread : m.read (h.region i).top = 0) (hwords : Object.size m (h.region i).top = words)
    (hformat : Object.Formatted m (h.region i).top)
    (hsame : ∀ a, a < (h.region i).top ∨ (h.region i).top + 8 * words ≤ a →
      m.read a = h.memory.read a) :
    ({ h with table := { h.table.put i r with memory := m } } : Heap).Tidy L := by
  have hc := t.chain hi hk
  have hbottom := (t.laid hi).bottom_le
  -- the objects below the old top keep their headers
  have hold : ∀ o ∈ h.objectsIn i, m.read o = h.memory.read o ∧
      Object.klass m o = Object.klass h.memory o := fun o ho => by
    have hsize := t.size_ge (t.isObject hi ho)
    have hlimit := hc.limit_le ho
    unfold Object.limit at hlimit
    exact ⟨hsame _ (by omega), hsame _ (by omega)⟩
  have hchain : Object.Chain m (L.bottom i) (h.objectsIn i ++ [(h.region i).top]) r.top := by
    have := (hc.congr fun o ho => Object.size_congr (hold o ho).2).snoc
      (show 0 < Object.size m (h.region i).top by omega)
    rw [Object.limit, hwords] at this
    rw [hr]
    exact this
  have hlisted : h.freeList.erase i = h.freeList := by
    rw [IndexList.erase, List.erase_of_not_mem]
    rw [t.mem_iff, (RegionKind.not_of_ordinary hk).1]
    simp
  have htidy := t.putOrdinary hi (RegionKind.not_of_ordinary hk).2.1 hlr (by rw [hr]; exact hk)
    (fun a ha => hsame a (by omega)) hchain hsound fun o ho => ?_
  · rw [hlisted] at htidy
    exact htidy
  · rcases List.mem_append.mp ho with ho | ho
    · obtain ⟨hforward, hklass⟩ := hold o ho
      have hobj := t.isObject hi ho
      refine ⟨?_, hforward.trans (t.unforwarded o hobj)⟩
      rw [Object.Formatted, Object.fieldCount_congr hklass, Object.size_congr hklass]
      exact t.formatted o hobj
    · rw [List.mem_singleton.mp ho]
      exact ⟨hformat, hread⟩

/-- A new object goes on top of those of its region, unless that is too full. -/
theorem newObject_of (hi : i < L.count) (hk : (h.region i).kind.isOrdinary) {words fields : Nat}
    (hf : Object.headerWords + fields ≤ words) (hw : words ≤ L.words) :
    ∃ place h', h.newObject i words fields = .ok (place, h') ∧ h'.Tidy L := by
  have hpos : 0 < words := by
    unfold Object.headerWords at hf
    omega
  rcases t.allocate_of hi hpos hw with hfull | ⟨hfits, starts, r, hr, hroom, hlr, hsize, hentry⟩
  · refine ⟨none, h, ?_, t⟩
    have htable : h.table.newObject i words fields = .ok (none, h.table) :=
      Checked.bind_of hfull _
    rw [newObject, Checked.bind_of htable]
    rfl
  · obtain ⟨m, hm, hread, hwords, hformat, hsame⟩ := Object.format_of (m := h.memory)
      (o := (h.region i).top) hf (Nat.lt_of_le_of_lt hw t.words_lt)
    have htable : h.table.newObject i words fields =
        .ok (some (h.region i).top, { h.table.put i r with memory := m }) := by
      rw [RegionTable.newObject, Checked.bind_of hroom]
      exact Checked.bind_of hm _
    refine ⟨some (h.region i).top, { h with table := { h.table.put i r with memory := m } }, ?_,
      t.onTop hi hk hpos hfits hr hlr ?_ hread hwords hformat hsame⟩
    · rw [newObject, Checked.bind_of htable]
      rfl
    · rw [hr]
      exact (t.blocks i hi hk).record hsize hentry

theorem seat {first n words : Nat} (f : h.Framed h') (l : h'.Listed L)
    (hn : h.regionsFor words = n) (hpos : 0 < n) (hin : first + n ≤ L.count)
    (hfree : ∀ k, first ≤ k → k < first + n → (h.region k).kind.isFree = true)
    (houtside : ∀ k, ¬(first ≤ k ∧ k < first + n) → h'.region k = h.region k)
    (hstarts : (h'.region first).kind = .startsHumongous ∧
      (h'.region first).humongousStart = some first)
    (hlater : ∀ k, first < k → k < first + n → (h'.region k).kind = .continuesHumongous ∧
      (h'.region k).humongousStart = some first)
    (hseated : h'.table.Seated L first n (L.bottom first + 8 * words))
    (hsize : Object.size h'.memory (L.bottom first) = words)
    (hobject : Object.Formatted h'.memory (L.bottom first) ∧ h'.memory.read (L.bottom first) = 0)
    (hfiller : L.bottom first + 8 * words + 16 ≤ L.bottom (first + n) →
      Object.limit h'.memory (L.bottom first + 8 * words) = L.bottom (first + n))
    (hmemory : ∀ a, ¬(L.bottom first ≤ a ∧ a < L.bottom (first + n)) →
      h'.memory.read a = h.memory.read a) : h'.Tidy L := by
  have hfirst : first < L.count := by omega
  have hlaid : (h'.region first).Laid L first := l.table.region first hfirst
  have hlimit : Object.limit h'.memory (L.bottom first) = L.bottom first + 8 * words := by
    rw [Object.limit, hsize]
  have hspan : h'.humongousSpan (h'.region first) = n := by
    rw [humongousSpan, hlaid.bottom, hsize, ← hn, regionsFor, regionsFor, Heap.regionWords,
      Heap.regionWords, f.options]
  have hfit : L.bottom first + 8 * words ≤ L.bottom (first + n) := by
    rw [← hn, t.regionsFor_eq]
    exact L.add_le_bottom first words
  refine t.of_orderly f l (t.frame f l.table (fun k => first ≤ k ∧ k < first + n)
    (fun k _ hk => houtside k hk) (fun k a _ hk hfrom hto => hmemory a fun ha =>
      hk (Layout.between ha.1 ha.2 hfrom hto)) (t.whole_of fun k hk => ?_) fun k _ hk => ?_)
  · exact RegionKind.not_humongous_of_free (hfree k hk.1 hk.2)
  · -- the first of the regions starts the object, and the others continue it
    rcases Nat.eq_or_lt_of_le hk.1 with rfl | hlt
    · refine .of_starts hlaid hstarts.1 ⟨?_, hstarts.2, ?_, ?_⟩ ⟨?_, ?_⟩ hobject <;>
        rw [hspan] <;> try rw [hlimit]
      · exact hin
      · exact hlater
      · exact fun k hfrom hto => hseated.covered hfit hfrom hto
      · exact hseated
      · exact hfiller
    · refine .of_continues (hlater k hlt hk.2).1 hlt ?_ (by rw [hspan]; exact hk.2)
      rw [hstarts.1]
      rfl

theorem sited : h.Sited L :=
  ⟨t.regionWords, t.words_lt, t.table.sited, t.freeList, fun i hi hk => (t.blank i hi hk).vacant⟩

/-- The lowest run of free regions that is long enough gets a humongous object. -/
theorem newHumongous_of {words fields : Nat} (hf : Object.headerWords + fields ≤ words)
    (hw : words < Object.sizeLimit) :
    ∃ place h', h.newHumongous words fields = .ok (place, h') ∧ h'.Tidy L := by
  obtain ⟨n, hn⟩ : ∃ n, h.regionsFor words = n := ⟨_, rfl⟩
  have hpos : 0 < words := by
    unfold Object.headerWords at hf
    omega
  rcases t.sited.allocateHumongous_of hpos with
    ⟨hnone, -⟩ | ⟨first, table, hplace, hfree, -, placed⟩
  · refine ⟨none, h, ?_, t⟩
    rw [newHumongous, Checked.bind_of hnone]
    rfl
  · have hfit := L.add_le_bottom first words
    have hnpos := Word.divCeil_pos hpos L.words_pos
    rw [← t.regionsFor_eq, hn] at hfit hnpos
    rw [hn] at hplace hfree placed
    have hin : first + n ≤ L.count := t.regionCount ▸ hfree.1
    have hseated := placed.seated fun k hfrom hto => t.blank k (by omega) (hfree.2 k hfrom hto)
    have hstart := L.bottom_mod first
    have hlaid := placed.laid t.table (by omega)
    obtain ⟨m', hm', hzero, hsize, hformat, hsame⟩ := Object.format_of (m := table.memory)
      (o := L.bottom first) hf hw
    have hhum : ∀ k, first ≤ k → k < first + n → (table.region k).kind.isFree = false := by
      intro k hfrom hto
      rcases Nat.eq_or_lt_of_le hfrom with rfl | hlt
      · rw [(placed.starts hnpos).1]
        rfl
      · rw [(placed.later hlt hto).1]
        rfl
    refine ⟨some (L.bottom first), { h with
        freeList := ⟨(List.range L.count).filter fun i => (h.region i).kind.isFree &&
          !decide (first ≤ i ∧ i < first + n)⟩
        table := { table with memory := m' } }, ?_,
      t.seat ⟨rfl, rfl, rfl, rfl, placed.shared⟩ (.of_filter (hlaid.withMemory m')
        t.liveness t.reset rfl fun k _ => ?_) hn hnpos hin hfree.2
        (fun k hk => placed.outside hk) (placed.starts hnpos)
        (fun k hfirst hlast => placed.later hfirst hlast) ?_ hsize ⟨hformat, hzero⟩ (fun hroom => ?_) fun a ha => ?_⟩
    · rw [newHumongous, Checked.bind_of hplace]
      exact Checked.bind_of hm' _
    · show (table.region k).kind.isFree = _
      by_cases hc : first ≤ k ∧ k < first + n
      · rw [hhum k hc.1 hc.2, decide_eq_true hc, Bool.not_true, Bool.and_false]
      · rw [placed.outside hc, decide_eq_false hc, Bool.not_false, Bool.and_true]
        rfl
    · exact hseated.congr hnpos fun k _ _ => ⟨rfl, rfl⟩
    · have hgap := (placed.filler t.words_lt hroom).limit
      rw [← hgap]
      exact Object.limit_congr (hsame _ (by omega))
    · show m'.read a = h.table.memory.read a
      rw [hsame a (by omega), placed.memory a (by omega)]

theorem write_of {o n : Nat} (v : Nat) (ho : h.IsObject o) (hheader : Object.headerWords ≤ n)
    (hlt : n < Object.size h.memory o) : (h.setMemory (h.memory.write (o + 8 * n) v)).Tidy L := by
  have hother : ∀ a, a ≠ o + 8 * n → (h.memory.write (o + 8 * n) v).read a = h.memory.read a :=
    fun a ha => Memory.read_write_of_ne _ _ (Ne.symm ha)
  have hlimit : o + 8 * n < Object.limit h.memory o := by
    unfold Object.limit
    omega
  unfold Object.headerWords at hheader
  refine t.of_orderly ⟨rfl, rfl, rfl, rfl, rfl⟩
    ⟨t.table.withMemory _, t.liveness, t.reset, t.freeList⟩
    (t.all_orderly ⟨rfl, rfl, rfl, rfl, rfl⟩ (t.table.withMemory _) fun s hs =>
      ⟨rfl, rfl, rfl, rfl, rfl, fun p hp => ?_, fun hk hroom => hother _ ?_⟩)
  · have hobj := t.isObject hs hp
    have hsize := t.size_ge hobj
    have happ : p = o ∨ p + 16 ≤ o ∨ Object.limit h.memory o ≤ p := by
      rcases Nat.lt_trichotomy p o with hlt | rfl | hlt
      · have := t.apart hobj ho hlt
        unfold Object.limit at this
        omega
      · exact .inl rfl
      · exact .inr (.inr (t.apart ho hobj hlt))
    exact ⟨hother _ (by omega), hother _ (by omega)⟩
  · have := t.behind_humongous (a := Object.limit h.memory (L.bottom s) + 8) hs hk ho (by omega)
      (by omega)
    omega

theorem setField_of {o field : Nat} (target : Nat) (ho : h.IsObject o)
    (hf : field < Object.fieldCount h.memory o) :
    ∃ m, Object.setField h.memory o field target = .ok m ∧ (h.setMemory m).Tidy L := by
  have hroom := t.formatted o ho
  unfold Object.Formatted at hroom
  refine ⟨_, ?_, t.write_of (n := Object.headerWords + field) target ho (by omega) (by omega)⟩
  rw [Object.setField, Checked.unless_of (decide_eq_true hf)]
  rfl

theorem setId_of {o : Nat} (value : Nat) (ho : h.IsObject o)
    (hp : Object.hasPayload h.memory o) :
    ∃ m, Object.setId h.memory o value = .ok m ∧ (h.setMemory m).Tidy L := by
  have hroom := of_decide_eq_true hp
  have hsub : Word.sub (Object.size h.memory o) 1 = .ok (Object.size h.memory o - 1) :=
    Word.sub_eq_ok.mpr ⟨by omega, rfl⟩
  have hslot : Object.idSlot h.memory o = .ok (o + 8 * (Object.size h.memory o - 1)) :=
    Checked.bind_of hsub _
  refine ⟨_, ?_, t.write_of (n := Object.size h.memory o - 1) value ho
    (by unfold Object.headerWords at hroom ⊢; omega) (by omega)⟩
  rw [Object.setId, Checked.unless_of hp, Checked.ok_bind, Checked.bind_of hslot]
  rfl

theorem setPins (hi : i < L.count) (pins : Nat) :
    ({ h with table := h.table.put i { h.region i with pins := pins } } : Heap).Tidy L := by
  have hput := t.table.region_put_of hi { h.region i with pins := pins }
  have hl := t.laid hi
  have hlaid := t.table.put hi (show ({ h.region i with pins := pins } : Region).Laid L i from
    ⟨hl.index, hl.bottom, hl.limit, hl.blocksBottom, hl.blocksLimit, hl.blocks, hl.bottom_le,
      hl.top_le, hl.aligned⟩)
  have hsame : ∀ j, ∃ n, Heap.region { h with
      table := h.table.put i { h.region i with pins := pins } } j =
        { h.region j with pins := n } := by
    intro j
    by_cases e : i = j
    · exact ⟨pins, (hput j).trans (by rw [if_pos e, e])⟩
    · exact ⟨(h.region j).pins, (hput j).trans (if_neg e)⟩
  refine t.of_orderly ⟨rfl, rfl, rfl, rfl, rfl⟩ (.of_filter hlaid t.liveness t.reset t.freeList
    fun j _ => ?_) (t.all_orderly ⟨rfl, rfl, rfl, rfl, rfl⟩ hlaid fun j _ => ?_)
  all_goals obtain ⟨n, hn⟩ := hsame j
  · rw [hn]
  · exact ⟨by rw [hn], by rw [hn], by rw [hn], by rw [hn], by rw [hn], fun _ _ => ⟨rfl, rfl⟩,
      fun _ _ => rfl⟩

theorem laid_heap : h.Laid L := ⟨t.start, t.bytes, t.table, t.liveness⟩

theorem regionOf_of {a : Nat} (ha : h.contains a) :
    h.regionOf a = .ok (L.regionOf a) ∧ L.regionOf a < L.count := by
  obtain ⟨hfrom, hto⟩ := t.laid_heap.contains_iff.mp ha
  exact ⟨t.laid_heap.regionOf_of_contains ha, Layout.regionOf_lt hfrom hto⟩

theorem pin_of {a : Nat} (ha : h.contains a) : ∃ h', h.pin a = .ok h' ∧ h'.Tidy L := by
  obtain ⟨hr, hi⟩ := t.regionOf_of ha
  refine ⟨_, ?_, t.setPins hi ((h.region (L.regionOf a)).pins + 1)⟩
  rw [pin, Checked.bind_of hr]
  exact Checked.bind_of (t.table.update_of hi (f := fun r => .ok r.pin) rfl) _

theorem unpin_of {a : Nat} (ha : h.contains a) (hp : 0 < (h.region (L.regionOf a)).pins) :
    ∃ h', h.unpin a = .ok h' ∧ h'.Tidy L := by
  obtain ⟨hr, hi⟩ := t.regionOf_of ha
  have hunpin : (h.region (L.regionOf a)).unpin = .ok { h.region (L.regionOf a) with
      pins := (h.region (L.regionOf a)).pins - 1 } := by
    rw [Region.unpin, Checked.unless_of (decide_eq_true hp)]
    rfl
  refine ⟨_, ?_, t.setPins hi ((h.region (L.regionOf a)).pins - 1)⟩
  rw [unpin, Checked.bind_of hr]
  exact Checked.bind_of (t.table.update_of hi hunpin) _

end Tidy

end Heap

end RegionHeap
