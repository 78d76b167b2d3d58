import RegionHeap.Proofs.Links

/-!
Each operation on a table of links does to the list that it spells what the same operation does to
a list of ids, and the two are refused alike.
-/
set_option autoImplicit false

namespace RegionHeap

namespace IndexList

theorem putAfter_append {before after : List Nat} {place : Nat} (h : place ∉ before) (id : Nat) :
    putAfter place id (before ++ place :: after) = before ++ place :: id :: after := by
  induction before with
  | nil => simp [putAfter]
  | cons x before ih =>
    simp only [List.mem_cons, not_or] at h
    simp [putAfter, Ne.symm h.1, ih h.2]

end IndexList

namespace LinkTable

open Checked IndexList

variable {t t' o : LinkTable} {ids ids' pre post rest : List Nat} {id place : Nat}

namespace Spells

theorem withCapacity (capacity : Nat) : Both (fun t l => t.Spells l.ids)
    (LinkTable.withCapacity capacity) (IndexList.withCapacity capacity) := by
  refine .bind_same fun _ hc => .ok ⟨List.nodup_nil, ?_, by simp, fun id hid => ?_, rfl, rfl, rfl⟩
  · simpa using hc
  · simp only [Array.size_replicate] at hid
    simp [hid, linkIn_of_notMem]

theorem new : ({} : LinkTable).Spells [] :=
  ⟨List.nodup_nil, by simp, by simp, by simp, rfl, rfl, rfl⟩

theorem resize (h : t.Spells ids) {size : Nat} (hs : size ≤ maxIds) :
    ({ t with links := t.links ++ Array.replicate (size - t.links.size) {} } : LinkTable).Spells
      ids := by
  refine ⟨h.nodup, ?_, fun id hid => ?_, fun id hid => ?_, h.head, h.tail, h.length⟩
  · have := h.size
    simp only [Array.size_append, Array.size_replicate]
    omega
  · have := h.within id hid
    simp only [Array.size_append]
    omega
  · simp only [Array.size_append, Array.size_replicate] at hid
    by_cases hold : id < t.links.size
    · rw [Array.getElem?_append_left hold, h.links id hold]
    · have hout : id ∉ ids := fun hm => hold (h.within id hm)
      rw [Array.getElem?_append_right (by omega), Array.getElem?_replicate, if_pos (by omega),
        linkIn_of_notMem hout]

theorem ensureSlot (h : t.Spells ids) (id : Nat) :
    Both (fun t' _ => t'.Spells ids ∧ id < t'.links.size ∧ id ∉ ids)
      (t.ensureSlot id) (IndexList.requireNew ⟨ids⟩ id) := by
  have free : ∀ {t : LinkTable}, t.Spells ids → id < t.links.size →
      Both (fun t' (_ : Unit) => t'.Spells ids ∧ id < t'.links.size ∧ id ∉ ids)
        (do
          Fault.unless (!(← Table.get t.links id).linked) (.alreadyListed id)
          return t)
        (Fault.unless (!IndexList.contains ⟨ids⟩ id) (.alreadyListed id)) := by
    intro t h hid
    have hlinked : (linkIn ids id).linked = IndexList.contains ⟨ids⟩ id := by
      simp [linkIn, IndexList.contains]
    rw [Table.get, h.links id hid, ok_bind, hlinked]
    by_cases hm : id ∈ ids
    · rw [show IndexList.contains ⟨ids⟩ id = true by simpa [IndexList.contains] using hm]
      exact .error _
    · rw [show IndexList.contains ⟨ids⟩ id = false by simpa [IndexList.contains] using hm]
      exact .ok ⟨h, hid, hm⟩
  refine .bind_same fun _ _ => ?_
  by_cases hid : id < t.links.size
  · have hmax : id < maxIds := Nat.lt_of_lt_of_le hid h.size
    simpa [hid, hmax] using free h hid
  · rw [if_neg hid, LinkTable.resize]
    by_cases hmax : id < maxIds
    · have hroom : id + 1 ≤ maxIds := hmax
      simp only [hroom, hmax, decide_true, unless_true, ok_bind, pure_eq]
      exact free (h.resize hroom) (by simp; omega)
    · have hroom : ¬ id + 1 ≤ maxIds := hmax
      simp only [hroom, hmax, decide_false, Fault.unless]
      exact .error _

theorem insertFirst (h : t.Spells ids) (id : Nat) : Both (fun t l => t.Spells l.ids)
    (t.insertFirst id) (IndexList.insertFirst ⟨ids⟩ id) := by
  refine (h.ensureSlot id).bind fun t' _ _ hslot => ?_
  obtain ⟨h', hid, hnew⟩ := hslot
  obtain ⟨t'', hlink, h''⟩ := (show t'.Spells ([] ++ ids) from h').link hid hnew
  rw [h'.head, show nowhere = unwrap ([] : List Nat).getLast? from rfl, hlink]
  exact .ok h''

theorem insertLast (h : t.Spells ids) (id : Nat) : Both (fun t l => t.Spells l.ids)
    (t.insertLast id) (IndexList.insertLast ⟨ids⟩ id) := by
  refine (h.ensureSlot id).bind fun t' _ _ hslot => ?_
  obtain ⟨h', hid, hnew⟩ := hslot
  rw [← List.append_nil ids] at h' hnew
  obtain ⟨t'', hlink, h''⟩ := h'.link hid hnew
  rw [h'.tail, List.append_nil, show nowhere = unwrap ([] : List Nat).head? from rfl, hlink]
  exact .ok h''

theorem get (h : t.Spells (pre ++ id :: post)) :
    Table.get t.links id = .ok ⟨unwrap pre.getLast?, unwrap post.head?, true⟩ := by
  rw [Table.get, h.links id (h.within id (by simp)), linkIn_split h.nodup]

theorem insertBefore (h : t.Spells ids) (place id : Nat) : Both (fun t l => t.Spells l.ids)
    (t.insertBefore place id) (IndexList.insertBefore ⟨ids⟩ place id) := by
  rw [LinkTable.insertBefore, IndexList.insertBefore, h.requireListed]
  refine .bind_same fun _ hl => ?_
  refine (h.ensureSlot id).bind fun t' _ _ hslot => ?_
  obtain ⟨h', hid, hnew⟩ := hslot
  obtain ⟨pre, post, rfl⟩ := List.append_of_mem (requireListed_eq_ok.mp hl)
  obtain ⟨t'', hlink, h''⟩ := h'.link hid hnew
  rw [h'.get, ok_bind, putBefore_append (notMem_before h.nodup)]
  rw [List.head?_cons, unwrap_some] at hlink
  rw [hlink]
  exact .ok h''

theorem insertAfter (h : t.Spells ids) (place id : Nat) : Both (fun t l => t.Spells l.ids)
    (t.insertAfter place id) (IndexList.insertAfter ⟨ids⟩ place id) := by
  rw [LinkTable.insertAfter, IndexList.insertAfter, h.requireListed]
  refine .bind_same fun _ hl => ?_
  refine (h.ensureSlot id).bind fun t' _ _ hslot => ?_
  obtain ⟨h', hid, hnew⟩ := hslot
  obtain ⟨pre, post, rfl⟩ := List.append_of_mem (requireListed_eq_ok.mp hl)
  rw [h'.get, ok_bind, putAfter_append (notMem_before h.nodup), List.append_cons]
  rw [List.append_cons] at h' hnew
  obtain ⟨t'', hlink, h''⟩ := h'.link hid hnew
  rw [List.getLast?_append, List.getLast?_singleton, Option.some_or, unwrap_some] at hlink
  rw [hlink]
  exact .ok h''

theorem remove (h : t.Spells ids) (id : Nat) : ∃ t',
    t.remove id = .ok (decide (id ∈ ids), t') ∧ t'.Spells (ids.erase id) := by
  rw [LinkTable.remove, h.contains]
  by_cases hid : id ∈ ids
  · obtain ⟨pre, post, rfl⟩ := List.append_of_mem hid
    obtain ⟨t', hunlink, h'⟩ := h.unlink
    refine ⟨t', by simp [hunlink], ?_⟩
    rwa [List.erase_append_right _ (notMem_before h.nodup), List.erase_cons_head]
  · exact ⟨t, by simp [hid], by rwa [List.erase_of_not_mem hid]⟩

theorem removeFirst (h : t.Spells ids) : ∃ t',
    t.removeFirst = .ok (ids.head?, t') ∧ t'.Spells ids.tail := by
  rw [LinkTable.removeFirst, h.first]
  cases ids with
  | nil => exact ⟨t, rfl, h⟩
  | cons id ids =>
    obtain ⟨t', hremove, h'⟩ := h.remove id
    exact ⟨t', by simp [hremove], by simpa using h'⟩

theorem removeLast (h : t.Spells ids) : ∃ t',
    t.removeLast = .ok (ids.getLast?, t') ∧ t'.Spells ids.dropLast := by
  rw [LinkTable.removeLast, h.last]
  rcases List.eq_nil_or_concat ids with rfl | ⟨ids, id, rfl⟩
  · exact ⟨t, rfl, h⟩
  · obtain ⟨t', hremove, h'⟩ := h.remove id
    refine ⟨t', by simp [hremove], ?_⟩
    have hn : (ids ++ id :: []).Nodup := by simpa using h.nodup
    have hout := notMem_before hn
    simpa [List.erase_append_right _ hout] using h'

theorem drain (h : t.Spells ids) (count : Nat) : ∃ t',
    t.drain count = .ok (ids.take count, t') ∧ t'.Spells (ids.drop count) := by
  induction count generalizing t ids with
  | zero => exact ⟨t, rfl, h⟩
  | succ count ih =>
    obtain ⟨t₁, hfirst, h₁⟩ := h.removeFirst
    cases ids with
    | nil => exact ⟨t₁, by simp [LinkTable.drain, hfirst], h₁⟩
    | cons id ids =>
      obtain ⟨t', hdrain, h'⟩ := ih h₁
      refine ⟨t', ?_, h'⟩
      rw [List.tail_cons] at hdrain
      simp [LinkTable.drain, hfirst, hdrain]

theorem clear (h : t.Spells ids) : ∃ t', t.clear = .ok t' ∧ t'.Spells [] := by
  obtain ⟨t', hdrain, h'⟩ := h.drain (t.length + 1)
  refine ⟨t', by simp [LinkTable.clear, hdrain], ?_⟩
  rwa [h.length, List.drop_eq_nil_of_le (by omega)] at h'

theorem append (h : t.Spells ids) (ho : o.Spells ids') :
    Both (fun r l => r.1.Spells l.ids ∧ r.2.Spells [])
      (t.append o) (IndexList.append ⟨ids⟩ ⟨ids'⟩) := by
  rw [LinkTable.append, ho.length, IndexList.append]
  induction ids' generalizing t o ids with
  | nil =>
    obtain ⟨o', hfirst, ho'⟩ := ho.removeFirst
    simp only [List.length_nil, moveFrom, hfirst, ok_bind, List.head?_nil, pure_eq]
    exact .ok ⟨h, ho'⟩
  | cons id rest ih =>
    obtain ⟨o', hfirst, ho'⟩ := ho.removeFirst
    simp only [List.length_cons, moveFrom, hfirst, ok_bind, List.head?_cons, List.foldlM_cons]
    exact (h.insertLast id).bind fun t' l' _ h' => ih h' ho'

end Spells

end LinkTable

end RegionHeap
