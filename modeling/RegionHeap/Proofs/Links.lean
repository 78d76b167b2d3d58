import Mathlib.Data.List.Nodup
import Mathlib.Data.List.Perm.Subperm
import RegionHeap.LinkTable
import RegionHeap.Proofs.FreeRegions
import RegionHeap.Proofs.Lockstep
import RegionHeap.Proofs.Trail

/-!
The table of links spells a list of distinct ids. Every id has the link that its neighbours in the
list give it, and an id that is not listed has the empty one. An edit changes the links on both
sides of one place and no others.
-/
set_option autoImplicit false

namespace RegionHeap

namespace IndexList

variable {id x : Nat} {pre post : List Nat}

theorem notMem_before (h : (pre ++ id :: post).Nodup) : id ∉ pre := fun hm =>
  (List.nodup_append.mp h).2.2 id hm id (by simp) rfl

theorem nodup_back (h : (pre ++ id :: post).Nodup) :
    (post.reverse ++ id :: pre.reverse).Nodup := by
  simpa using List.nodup_reverse.mpr h

@[simp] theorem successor?_nil : successor? x [] = none := rfl

theorem successor?_cons (y : Nat) (ids : List Nat) :
    successor? x (y :: ids) = if y = x then ids.head? else successor? x ids := rfl

@[simp] theorem successor?_append_cons (h : x ∉ pre) (post : List Nat) :
    successor? x (pre ++ x :: post) = post.head? := by
  induction pre with
  | nil => simp [successor?]
  | cons y pre ih =>
    simp only [List.mem_cons, not_or] at h
    simp [successor?_cons, Ne.symm h.1, ih h.2]

theorem successor?_of_notMem {ids : List Nat} (h : x ∉ ids) : successor? x ids = none := by
  induction ids with
  | nil => rfl
  | cons y ids ih =>
    simp only [List.mem_cons, not_or] at h
    simp [successor?_cons, Ne.symm h.1, ih h.2]

theorem mem_of_successor? {ids : List Nat} {y : Nat} (h : successor? x ids = some y) :
    y ∈ ids := by
  induction ids with
  | nil => contradiction
  | cons z ids ih =>
    rw [successor?_cons] at h
    split at h
    · exact .tail _ (List.mem_of_mem_head? h)
    · exact .tail _ (ih h)

/-- What comes in changes the successor of the id before it and of no other. -/
theorem successor?_insert (h : (pre ++ id :: post).Nodup) :
    successor? x (pre ++ id :: post) =
      if pre.getLast? = some x then some id
      else if x = id then post.head?
      else successor? x (pre ++ post) := by
  induction pre with
  | nil => simp [successor?_cons, eq_comm]
  | cons y pre ih =>
    simp only [List.cons_append, List.nodup_cons, List.mem_append, List.mem_cons, not_or] at h
    obtain ⟨⟨hpre, hid, hpost⟩, h⟩ := h
    rw [List.cons_append, List.cons_append, successor?_cons, successor?_cons, ih h]
    cases pre with
    | nil => by_cases hx : y = x <;> simp [hx, Ne.symm, eq_comm]
    | cons z pre =>
      have hlast : (y :: z :: pre).getLast? = (z :: pre).getLast? := by simp
      rw [hlast]
      by_cases hx : y = x
      · subst hx
        have hne : (z :: pre).getLast? ≠ some y := fun e => hpre (List.mem_of_getLast? e)
        simp [hne, hid]
      · simp only [if_neg hx]

/-- What goes out leaves its successor to the id before it. -/
theorem successor?_remove (h : (pre ++ id :: post).Nodup) :
    successor? x (pre ++ post) =
      if x = id then none
      else if pre.getLast? = some x then post.head?
      else successor? x (pre ++ id :: post) := by
  rw [successor?_insert h]
  have hid : id ∉ pre ++ post := (List.nodup_middle.mp h).notMem
  by_cases hx : x = id
  · simp [hx, successor?_of_notMem hid]
  by_cases hlast : pre.getLast? = some x
  · obtain ⟨pre, rfl⟩ := List.getLast?_eq_some_iff.mp hlast
    have hpre : x ∉ pre := fun hm => by
      rw [List.append_assoc, List.nodup_append] at h
      exact h.2.2 x hm x (by simp) rfl
    simp [hx, successor?_append_cons hpre]
  · simp [hx, hlast]

end IndexList

namespace LinkTable

open IndexList

def unwrap (id : Option Nat) : Nat := id.getD nowhere

@[simp] theorem unwrap_none : unwrap none = nowhere := rfl

@[simp] theorem unwrap_some (id : Nat) : unwrap (some id) = id := rfl

/-- The link that a list gives to an id. -/
def linkIn (ids : List Nat) (id : Nat) : Link :=
  ⟨unwrap (successor? id ids.reverse), unwrap (successor? id ids), decide (id ∈ ids)⟩

section linkIn

variable {ids pre post : List Nat} {id x : Nat}

theorem linkIn_of_notMem (h : id ∉ ids) : linkIn ids id = {} := by
  simp [linkIn, h, successor?_of_notMem]

theorem linkIn_split (h : (pre ++ id :: post).Nodup) :
    linkIn (pre ++ id :: post) id = ⟨unwrap pre.getLast?, unwrap post.head?, true⟩ := by
  simp [linkIn, successor?_append_cons (notMem_before h),
    successor?_append_cons (notMem_before (nodup_back h))]

theorem linkIn_insert (h : (pre ++ id :: post).Nodup) (hx : x ≠ id) :
    linkIn (pre ++ id :: post) x = { linkIn (pre ++ post) x with
      previous := if post.head? = some x then id else (linkIn (pre ++ post) x).previous
      next := if pre.getLast? = some x then id else (linkIn (pre ++ post) x).next } := by
  have hback := successor?_insert (x := x) (nodup_back h)
  simp [linkIn, successor?_insert h, hback, hx, apply_ite unwrap]

theorem linkIn_remove (h : (pre ++ id :: post).Nodup) (hx : x ≠ id) :
    linkIn (pre ++ post) x = { linkIn (pre ++ id :: post) x with
      previous := if post.head? = some x then unwrap pre.getLast?
        else (linkIn (pre ++ id :: post) x).previous
      next := if pre.getLast? = some x then unwrap post.head?
        else (linkIn (pre ++ id :: post) x).next } := by
  have hback := successor?_remove (x := x) (nodup_back h)
  simp [linkIn, successor?_remove h, hback, hx, apply_ite unwrap]

end linkIn

structure Spells (t : LinkTable) (ids : List Nat) : Prop where
  nodup : ids.Nodup
  size : t.links.size ≤ maxIds
  within : ∀ id ∈ ids, id < t.links.size
  links : ∀ id, id < t.links.size → t.links[id]? = some (linkIn ids id)
  head : t.head = unwrap ids.head?
  tail : t.tail = unwrap ids.getLast?
  length : t.length = ids.length

variable {t t' : LinkTable} {ids pre post : List Nat} {id n p : Nat} {a b place : Option Nat}

theorem ne_nowhere (hs : t.links.size ≤ maxIds) (h : id < t.links.size) : id ≠ nowhere := by
  simp only [maxIds, Word.maxBytes, nowhere, Word.limit] at *
  omega

theorem wrap_unwrap (h : place ≠ some nowhere) : wrap (unwrap place) = place := by
  cases place with
  | none => rfl
  | some id =>
    have hid : id ≠ nowhere := fun e => h (e ▸ rfl)
    simp [unwrap, wrap, hid]

/-- What is behind one place and before another has changed, and nothing else. -/
structure Rejoined (t t' : LinkTable) (a b : Option Nat) (n p : Nat) : Prop where
  links : ∀ x, t'.links[x]? = t.links[x]?.map fun l : Link =>
    { l with
      previous := if b = some x then p else l.previous
      next := if a = some x then n else l.next }
  size : t'.links.size = t.links.size
  head : t'.head = if a = none then n else t.head
  tail : t'.tail = if b = none then p else t.tail
  length : t'.length = t.length

theorem setNext_of (hs : t.links.size ≤ maxIds) (h : ∀ id, a = some id → id < t.links.size)
    (n : Nat) : ∃ t', t.setNext (unwrap a) n = .ok t' ∧
      (∀ x, t'.links[x]? = t.links[x]?.map fun l : Link =>
        { l with next := if a = some x then n else l.next }) ∧
      t'.links.size = t.links.size ∧ t'.head = (if a = none then n else t.head) ∧
      t'.tail = t.tail ∧ t'.length = t.length := by
  cases a with
  | none => exact ⟨{ t with head := n }, by simp [setNext, unwrap], by simp⟩
  | some id =>
    have hid := h id rfl
    refine ⟨{ t with links := t.links.set! id { t.links[id] with next := n } }, ?_, fun x => ?_, ?_⟩
    · simp [setNext, unwrap, ne_nowhere hs hid, Table.get, Table.set, hid]
    · by_cases hx : id = x
      · subst hx
        simp [hid]
      · simp [hx]
    · simp

theorem setPrevious_of (hs : t.links.size ≤ maxIds) (h : ∀ id, b = some id → id < t.links.size)
    (p : Nat) : ∃ t', t.setPrevious (unwrap b) p = .ok t' ∧
      (∀ x, t'.links[x]? = t.links[x]?.map fun l : Link =>
        { l with previous := if b = some x then p else l.previous }) ∧
      t'.links.size = t.links.size ∧ t'.head = t.head ∧
      t'.tail = (if b = none then p else t.tail) ∧ t'.length = t.length := by
  cases b with
  | none => exact ⟨{ t with tail := p }, by simp [setPrevious, unwrap], by simp⟩
  | some id =>
    have hid := h id rfl
    refine ⟨{ t with links := t.links.set! id { t.links[id] with previous := p } }, ?_, fun x => ?_,
      ?_⟩
    · simp [setPrevious, unwrap, ne_nowhere hs hid, Table.get, Table.set, hid]
    · by_cases hx : id = x
      · subst hx
        simp [hid]
      · simp [hx]
    · simp

theorem rejoin_of (hs : t.links.size ≤ maxIds) (ha : ∀ id, a = some id → id < t.links.size)
    (hb : ∀ id, b = some id → id < t.links.size) (n p : Nat) :
    ∃ t₁ t', t.setNext (unwrap a) n = .ok t₁ ∧ t₁.setPrevious (unwrap b) p = .ok t' ∧
      Rejoined t t' a b n p := by
  obtain ⟨t₁, h₁, hlinks₁, hsize₁, hhead₁, htail₁, hlength₁⟩ := setNext_of hs ha n
  obtain ⟨t₂, h₂, hlinks₂, hsize₂, hhead₂, htail₂, hlength₂⟩ :=
    setPrevious_of (hsize₁ ▸ hs) (hsize₁ ▸ hb) p
  refine ⟨t₁, t₂, h₁, h₂, fun x => ?_, ?_, ?_, ?_, ?_⟩
  · simp only [hlinks₂, hlinks₁, Option.map_map]
    rfl
  · rw [hsize₂, hsize₁]
  · rw [hhead₂, hhead₁]
  · rw [htail₂, htail₁]
  · rw [hlength₂, hlength₁]

namespace Spells

theorem length_le (h : t.Spells ids) : ids.length ≤ t.links.size := by
  have hsub : ids ⊆ List.range t.links.size := fun id hid => List.mem_range.mpr (h.within id hid)
  simpa using (List.subperm_of_subset h.nodup hsub).length_le

theorem length_lt (h : t.Spells ids) : ids.length + 1 < Word.limit := by
  have := h.length_le
  have := h.size
  simp only [maxIds, Word.maxBytes, Word.limit] at *
  omega

theorem ne (h : t.Spells ids) (hid : id ∈ ids) : some id ≠ some nowhere :=
  fun e => ne_nowhere h.size (h.within id hid) (Option.some.inj e)

theorem contains (h : t.Spells ids) (id : Nat) : t.contains id = decide (id ∈ ids) := by
  by_cases hid : id < t.links.size
  · simp [LinkTable.contains, h.links id hid, linkIn]
  · have hnot : id ∉ ids := fun hm => hid (h.within id hm)
    simp [LinkTable.contains, hid, hnot]

theorem first (h : t.Spells ids) : t.first? = ids.head? := by
  rw [first?, h.head, wrap_unwrap]
  cases ids with
  | nil => simp
  | cons id ids => exact h.ne (by simp)

theorem last (h : t.Spells ids) : t.last? = ids.getLast? := by
  rw [last?, h.tail, wrap_unwrap]
  cases hlast : ids.getLast? with
  | none => simp
  | some id => exact h.ne (List.mem_of_getLast? hlast)

theorem requireListed (h : t.Spells ids) (id : Nat) :
    t.requireListed id = IndexList.requireListed ⟨ids⟩ id := by
  simp [LinkTable.requireListed, IndexList.requireListed, h.contains, IndexList.contains]

theorem next? (h : t.Spells ids) (id : Nat) : t.next? id = IndexList.next? ⟨ids⟩ id := by
  rw [LinkTable.next?, IndexList.next?, h.requireListed]
  refine Checked.Both.eq (.bind_same fun _ hl => ?_)
  have hid := h.within id (requireListed_eq_ok.mp hl)
  have hne : successor? id ids ≠ some nowhere := fun e => h.ne (mem_of_successor? e) rfl
  rw [Table.get, h.links id hid]
  simpa [linkIn, wrap_unwrap hne] using .ok rfl

theorem previous? (h : t.Spells ids) (id : Nat) :
    t.previous? id = IndexList.previous? ⟨ids⟩ id := by
  rw [LinkTable.previous?, IndexList.previous?, h.requireListed]
  refine Checked.Both.eq (.bind_same fun _ hl => ?_)
  have hid := h.within id (requireListed_eq_ok.mp hl)
  have hne : successor? id ids.reverse ≠ some nowhere := fun e =>
    h.ne (List.mem_reverse.mp (mem_of_successor? e)) rfl
  rw [Table.get, h.links id hid]
  simpa [linkIn, wrap_unwrap hne] using .ok rfl

theorem link (h : t.Spells (pre ++ post)) (hid : id < t.links.size) (hnew : id ∉ pre ++ post) :
    ∃ t', t.link id (unwrap pre.getLast?) (unwrap post.head?) = .ok t' ∧
      t'.Spells (pre ++ id :: post) := by
  have hnodup : (pre ++ id :: post).Nodup := List.nodup_middle.mpr (h.nodup.cons hnew)
  have hlast : pre.getLast? ≠ some id := fun e => hnew (by simp [List.mem_of_getLast? e])
  have hfirst : post.head? ≠ some id := fun e => hnew (by simp [List.mem_of_mem_head? e])
  obtain ⟨t₁, t₂, h₁, h₂, hj⟩ := rejoin_of
    (t := { t with links := t.links.set! id ⟨unwrap pre.getLast?, unwrap post.head?, true⟩ })
    (a := pre.getLast?) (b := post.head?) (by simpa using h.size)
    (fun x hx => by simpa using h.within x (by simp [List.mem_of_getLast? hx]))
    (fun x hx => by simpa using h.within x (by simp [List.mem_of_mem_head? hx])) id id
  have hsize : t₂.links.size = t.links.size := by simpa using hj.size
  have hlength : t₂.length = (pre ++ post).length := hj.length.trans h.length
  have hlt := h.length_lt
  have hadd : Word.add t₂.length 1 = .ok (t₂.length + 1) := by simpa [hlength] using hlt
  refine ⟨{ t₂ with length := t₂.length + 1 }, ?_, {
    nodup := hnodup
    size := hsize ▸ h.size
    within := fun x hx => ?within
    links := fun x hx => ?links
    head := ?head
    tail := ?tail
    length := ?length }⟩
  · simp only [LinkTable.link, Table.set, if_pos hid, Checked.ok_bind, h₁, h₂, hadd, Checked.pure_eq]
  case within =>
    rw [hsize]
    rcases List.mem_cons.mp (List.perm_middle.mem_iff.mp hx) with rfl | hx
    · exact hid
    · exact h.within x hx
  case links =>
    -- besides its own link only the two that name it as a neighbour change
    rw [hsize] at hx
    by_cases hxid : id = x
    · subst hxid
      simp [hj.links, hid, hlast, hfirst, linkIn_split hnodup]
    · simp [hj.links, hxid, h.links x hx, linkIn_insert hnodup (Ne.symm hxid)]
  case head =>
    rw [hj.head]
    cases pre <;> simp [h.head]
  case tail =>
    rw [hj.tail]
    cases post <;> simp [h.tail]
  case length =>
    simp [hlength]
    omega

theorem unlink (h : t.Spells (pre ++ id :: post)) :
    ∃ t', t.unlink id = .ok t' ∧ t'.Spells (pre ++ post) := by
  have hid := h.within id (by simp)
  have hout : id ∉ pre ++ post := (List.nodup_middle.mp h.nodup).notMem
  have hlink := (h.links id hid).trans (congrArg some (linkIn_split h.nodup))
  obtain ⟨t₁, t₂, h₁, h₂, hj⟩ := rejoin_of (a := pre.getLast?) (b := post.head?) h.size
    (fun x hx => h.within x (by simp [List.mem_of_getLast? hx]))
    (fun x hx => h.within x (by simp [List.mem_of_mem_head? hx]))
    (unwrap post.head?) (unwrap pre.getLast?)
  have hlength : t₂.length = (pre ++ post).length + 1 := by
    simp [hj.length, h.length, Nat.add_assoc]
  have hsub : Word.sub t₂.length 1 = .ok (t₂.length - 1) := by simp [hlength]
  refine ⟨{ t₂ with links := t₂.links.set! id {}, length := t₂.length - 1 }, ?_, {
    nodup := (List.nodup_middle.mp h.nodup).of_cons
    size := by simpa [hj.size] using h.size
    within := fun x hx => ?within
    links := fun x hx => ?links
    head := ?head
    tail := ?tail
    length := by simp [hlength] }⟩
  · simp only [LinkTable.unlink, Table.get, hlink, Checked.ok_bind, h₁, h₂, Table.set, hj.size,
      if_pos hid, hsub, Checked.pure_eq]
  case within =>
    have hx' := h.within x (List.perm_middle.mem_iff.mpr (.tail _ hx))
    simpa [hj.size] using hx'
  case links =>
    have hx' : x < t.links.size := by simpa [hj.size] using hx
    by_cases hxid : id = x
    · subst hxid
      simp [hj.size, hid, linkIn_of_notMem hout]
    · simp [hj.links, hxid, h.links x hx', linkIn_remove h.nodup (Ne.symm hxid)]
  case head =>
    rw [hj.head, h.head]
    cases pre <;> simp
  case tail =>
    rw [hj.tail, h.tail]
    cases post <;> simp [List.getLast?_cons]

end Spells

end LinkTable

end RegionHeap
