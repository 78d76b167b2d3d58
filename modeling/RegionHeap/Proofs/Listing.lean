import RegionHeap.ListOperation
import RegionHeap.Proofs.LinkTables

/-!
A program cannot tell the tables of links from lists of distinct ids: the answers, the refusals and
what can be seen of each list are the same, and a walk from both ends takes a list apart.
-/
set_option autoImplicit false

namespace RegionHeap

namespace IndexList

variable {l l' : IndexList} {ids pre rest post : List Nat} {w : Walk}

@[simp] theorem pulledFrom_nil (e : End) : pulledFrom e [] [] = [] := rfl

@[simp] theorem pulledFrom_cons (e e' : End) (id : Option Nat) (ends : List End)
    (ids : List (Option Nat)) : pulledFrom e (e' :: ends) (id :: ids) =
      (if e' = e then id.toList else []) ++ pulledFrom e ends ids := rfl

theorem append_disjoint (h : (l.ids ++ l'.ids).Nodup) (hmax : ∀ id ∈ l'.ids, id < maxIds) :
    l.append l' = .ok ⟨l.ids ++ l'.ids⟩ := by
  obtain ⟨ids'⟩ := l'
  rw [append]
  dsimp only at h hmax ⊢
  induction ids' generalizing l with
  | nil => simp
  | cons id ids' ih =>
    have hid : id < maxIds := hmax id (by simp)
    have hword : id + 1 < Word.limit := by
      simp only [maxIds, Word.maxBytes, Word.limit] at *
      omega
    have hnew : l.requireNew id = .ok () := by
      simp [requireNew, hid, hword, contains, notMem_before h]
    have hnext := ih (l := ⟨l.ids ++ [id]⟩) (by simpa using h) fun id hm => hmax id (by simp [hm])
    rw [List.foldlM_cons, insertLast, hnew, Checked.ok_bind, Checked.pure_eq, Checked.ok_bind, hnext]
    simp

/-- A walk that has passed the ids at both ends and is to pass those between. -/
structure Walk.Covers (w : Walk) (pre rest post : List Nat) : Prop where
  front : w.front = (rest ++ post).head?
  back : w.back = (pre ++ rest).getLast?
  remaining : w.remaining = rest.length

theorem Walk.Covers.start (l : IndexList) : l.walk.Covers [] l.ids [] :=
  ⟨by simp [walk, first?], rfl, rfl⟩

end IndexList

namespace LinkTable

open Checked IndexList

variable {t : LinkTable} {l : IndexList} {w : IndexList.Walk} {ids pre rest post : List Nat}

/-- The same walk, with a word for each end. -/
def Walk.of (w : IndexList.Walk) : Walk := ⟨unwrap w.front, unwrap w.back, w.remaining⟩

namespace Spells

theorem pull_nil (hw : w.Covers pre [] post) (t : LinkTable) (l : IndexList) (e : End) :
    w.pull l e = (none, w) ∧ (Walk.of w).pull t e = .ok (none, Walk.of w) := by
  have hr : w.remaining = 0 := hw.remaining
  cases e <;>
    simp [IndexList.Walk.pull, IndexList.Walk.pullFront, IndexList.Walk.pullBack, Walk.pull,
      Walk.pullFront, Walk.pullBack, Walk.of, hr]

theorem pullFront {id : Nat} (h : t.Spells l.ids) (hw : w.Covers pre (id :: rest) post)
    (hl : l.ids = pre ++ id :: rest ++ post) :
    ∃ w', w.pull l .front = (some id, w') ∧
      (Walk.of w).pull t .front = .ok (some id, Walk.of w') ∧
      w'.Covers (pre ++ [id]) rest post := by
  have hfront : w.front = some id := hw.front
  have hl' : l.ids = pre ++ id :: (rest ++ post) := by simp [hl]
  have hlink := get (hl' ▸ h)
  have hnext : successor? id l.ids = (rest ++ post).head? := by
    rw [hl', successor?_append_cons (notMem_before (hl' ▸ h.nodup))]
  refine ⟨⟨(rest ++ post).head?, w.back, rest.length⟩, ?_, ?_, rfl, ?_, rfl⟩
  · simp [IndexList.Walk.pull, IndexList.Walk.pullFront, hw.remaining, hfront, hnext]
  · simp [Walk.pull, Walk.pullFront, Walk.of, hw.remaining, hfront, hlink]
  · simpa using hw.back

theorem pullBack {id : Nat} (h : t.Spells l.ids) (hw : w.Covers pre (rest ++ [id]) post)
    (hl : l.ids = pre ++ (rest ++ [id]) ++ post) :
    ∃ w', w.pull l .back = (some id, w') ∧
      (Walk.of w).pull t .back = .ok (some id, Walk.of w') ∧
      w'.Covers pre rest (id :: post) := by
  have hback : w.back = some id := by simpa using hw.back
  have hr : w.remaining = rest.length + 1 := by simp [hw.remaining]
  have hl' : l.ids = (pre ++ rest) ++ id :: post := by simp [hl]
  have hlink := get (hl' ▸ h)
  have hnext : successor? id l.ids.reverse = (pre ++ rest).getLast? := by
    have hn := nodup_back (hl' ▸ h.nodup)
    rw [hl', List.reverse_append, List.reverse_cons, List.append_assoc, List.singleton_append,
      successor?_append_cons (notMem_before hn), List.head?_reverse]
  refine ⟨⟨w.front, (pre ++ rest).getLast?, rest.length⟩, ?_, ?_, ?_, rfl, rfl⟩
  · simp [IndexList.Walk.pull, IndexList.Walk.pullBack, hr, hback, hnext]
  · simp [Walk.pull, Walk.pullBack, Walk.of, hr, hback, hlink]
  · simpa using hw.front

theorem pull (h : t.Spells l.ids) (hw : w.Covers pre rest post) (hl : l.ids = pre ++ rest ++ post)
    (e : End) : ∃ id w' pre' rest' post', w.pull l e = (id, w') ∧
      (Walk.of w).pull t e = .ok (id, Walk.of w') ∧ w'.Covers pre' rest' post' ∧
      l.ids = pre' ++ rest' ++ post' ∧ rest'.length = rest.length - 1 ∧
      rest = (if e = .front then id.toList else []) ++ rest' ++
        (if e = .back then id.toList else []) := by
  cases e with
  | front =>
    cases rest with
    | nil =>
      obtain ⟨hpull, hpull'⟩ := pull_nil hw t l .front
      exact ⟨none, w, pre, [], post, hpull, hpull', hw, hl, rfl, rfl⟩
    | cons id rest =>
      obtain ⟨w', hpull, hpull', hw'⟩ := pullFront h hw hl
      exact ⟨some id, w', _, _, _, hpull, hpull', hw', by simp [hl], rfl, by simp⟩
  | back =>
    rcases List.eq_nil_or_concat' rest with rfl | ⟨rest, id, rfl⟩
    · obtain ⟨hpull, hpull'⟩ := pull_nil hw t l .back
      exact ⟨none, w, pre, [], post, hpull, hpull', hw, hl, rfl, rfl⟩
    · obtain ⟨w', hpull, hpull', hw'⟩ := pullBack h hw hl
      exact ⟨some id, w', _, _, _, hpull, hpull', hw', by simp [hl], by simp, by simp⟩

/-- What is pulled at the front is the beginning of what was to pass, and what is pulled at the
back is its end. -/
theorem pulls (h : t.Spells l.ids) (hw : w.Covers pre rest post) (hl : l.ids = pre ++ rest ++ post)
    (ends : List End) : ∃ answers w' between,
      (Walk.of w).pulls t ends = .ok (answers, Walk.of w') ∧ w.pulls l ends = (answers, w') ∧
      answers.length = ends.length ∧
      rest = pulledFrom .front ends answers ++ between ++ (pulledFrom .back ends answers).reverse ∧
      w'.remaining = between.length ∧ between.length = rest.length - ends.length := by
  induction ends generalizing w pre rest post with
  | nil => exact ⟨[], w, rest, rfl, rfl, rfl, by simp, hw.remaining, rfl⟩
  | cons e ends ih =>
    obtain ⟨id, w₁, pre', rest', post', hpull, hpull', hw', hl', hlen, hrest⟩ := pull h hw hl e
    obtain ⟨answers, w', between, hrun', hrun, hcount, hsplit, hremaining, hbetween⟩ := ih hw' hl'
    refine ⟨id :: answers, w', between, ?_, ?_, by simp [hcount], ?_, hremaining, ?_⟩
    · simp [Walk.pulls, hpull', hrun']
    · simp [IndexList.Walk.pulls, hpull, hrun]
    · rw [hrest, hsplit]
      cases e <;> cases id <;> simp
    · simp only [List.length_cons]
      omega

theorem neighbours {id : Nat} (h : t.Spells (pre ++ id :: post)) :
    t.previous? id = .ok pre.getLast? ∧ t.next? id = .ok post.head? := by
  have hid : IndexList.requireListed ⟨pre ++ id :: post⟩ id = .ok () :=
    requireListed_eq_ok.mpr (by simp)
  rw [h.previous?, h.next?, IndexList.previous?, IndexList.next?, hid]
  simp [successor?_append_cons (notMem_before h.nodup),
    successor?_append_cons (notMem_before (nodup_back h.nodup))]

theorem forward (h : t.Spells ids) : Trail t.next? t.first? ids := by
  rw [h.first]
  refine .of_steps fun pre id post hids => ?_
  subst hids
  exact h.neighbours.2

theorem backward (h : t.Spells ids) : Trail t.previous? t.last? ids.reverse := by
  rw [h.last, ← List.head?_reverse]
  refine .of_steps fun pre id post hids => ?_
  obtain rfl : ids = post.reverse ++ id :: pre.reverse := by simpa using congrArg List.reverse hids
  simpa using h.neighbours.1

theorem requireNew_listed (h : t.Spells ids) {id : Nat} (hid : id ∈ ids) :
    IndexList.requireNew ⟨ids⟩ id = .error (.alreadyListed id) := by
  have hmax : id < maxIds := Nat.lt_of_lt_of_le (h.within id hid) h.size
  have hword : id + 1 < Word.limit := by
    simp only [maxIds, Word.maxBytes, Word.limit] at *
    omega
  simp [requireNew, hmax, hword, IndexList.contains, hid, Fault.unless]

end Spells

/-- All that can be seen of a list. -/
structure Shows (t : LinkTable) (ids : List Nat) : Prop where
  nodup : ids.Nodup
  length : t.length = ids.length
  isEmpty : t.isEmpty = ids.isEmpty
  contains : ∀ id, t.contains id = decide (id ∈ ids)
  first : t.first? = ids.head?
  last : t.last? = ids.getLast?
  neighbours : ∀ pre id post, ids = pre ++ id :: post →
    t.previous? id = .ok pre.getLast? ∧ t.next? id = .ok post.head?
  unlisted : ∀ id ∉ ids,
    t.previous? id = .error (.notListed id) ∧ t.next? id = .error (.notListed id)
  forward : Trail t.next? t.first? ids
  backward : Trail t.previous? t.last? ids.reverse
  refuses : ∀ id ∈ ids, t.insertFirst id = .error (.alreadyListed id) ∧
    t.insertLast id = .error (.alreadyListed id) ∧
    ∀ place ∈ ids, t.insertBefore place id = .error (.alreadyListed id) ∧
      t.insertAfter place id = .error (.alreadyListed id)
  walks : ∀ ends : List End, ∃ answers w between, t.walk.pulls t ends = .ok (answers, w) ∧
    (IndexList.Walk.pulls ⟨ids⟩ ends (IndexList.walk ⟨ids⟩)).1 = answers ∧
    answers.length = ends.length ∧
    ids = pulledFrom .front ends answers ++ between ++ (pulledFrom .back ends answers).reverse ∧
    w.remaining = between.length ∧ between.length = ids.length - ends.length

theorem Spells.shows (h : t.Spells ids) : t.Shows ids where
  nodup := h.nodup
  length := h.length
  isEmpty := by
    rw [LinkTable.isEmpty, h.length]
    cases ids <;> rfl
  contains := h.contains
  first := h.first
  last := h.last
  neighbours _ _ _ hids := (hids ▸ h).neighbours
  unlisted id hid := by
    have hnot : IndexList.requireListed ⟨ids⟩ id = .error (.notListed id) := by
      simp [IndexList.requireListed, IndexList.contains, hid, Fault.unless]
    simp [h.previous?, h.next?, IndexList.previous?, IndexList.next?, hnot]
  forward := h.forward
  backward := h.backward
  refuses id hid := by
    have hnew := h.requireNew_listed hid
    have hlisted {place : Nat} (hp : place ∈ ids) :
        IndexList.requireListed ⟨ids⟩ place = .ok () := requireListed_eq_ok.mpr hp
    have hfirst := h.insertFirst id
    have hlast := h.insertLast id
    rw [IndexList.insertFirst, hnew] at hfirst
    rw [IndexList.insertLast, hnew] at hlast
    refine ⟨hfirst.refused, hlast.refused, fun place hp => ?_⟩
    have hbefore := h.insertBefore place id
    have hafter := h.insertAfter place id
    rw [IndexList.insertBefore, hlisted hp, ok_bind, hnew] at hbefore
    rw [IndexList.insertAfter, hlisted hp, ok_bind, hnew] at hafter
    exact ⟨hbefore.refused, hafter.refused⟩
  walks ends := by
    have hw : t.walk = Walk.of (IndexList.walk ⟨ids⟩) := by
      simp [LinkTable.walk, Walk.of, IndexList.walk, h.head, h.tail, h.length, IndexList.first?,
        IndexList.last?, IndexList.length]
    obtain ⟨answers, w', between, hrun, hrun', hcount, hsplit, hremaining, hlen⟩ :=
      Spells.pulls (l := ⟨ids⟩) h (Walk.Covers.start ⟨ids⟩) (by simp) ends
    exact ⟨answers, _, between, hw ▸ hrun, congrArg Prod.fst hrun', hcount, hsplit, hremaining,
      hlen⟩

/-- An operation answers alike, and what it leaves is alike. -/
theorem Spells.perform (h : t.Spells l.ids) (operation : Operation) :
    Both (fun r r' => r.1 = r'.1 ∧ r.2.Spells r'.2.ids)
      (t.perform operation) (l.perform operation) := by
  cases operation with
  | insertFirst id => exact (h.insertFirst id).bind fun _ _ _ h' => .ok ⟨rfl, h'⟩
  | insertLast id => exact (h.insertLast id).bind fun _ _ _ h' => .ok ⟨rfl, h'⟩
  | insertBefore place id => exact (h.insertBefore place id).bind fun _ _ _ h' => .ok ⟨rfl, h'⟩
  | insertAfter place id => exact (h.insertAfter place id).bind fun _ _ _ h' => .ok ⟨rfl, h'⟩
  | remove id =>
    obtain ⟨t', hr, h'⟩ := h.remove id
    rw [LinkTable.perform, hr]
    exact .ok ⟨by simp [IndexList.contains], h'⟩
  | removeFirst =>
    obtain ⟨t', hr, h'⟩ := h.removeFirst
    rw [LinkTable.perform, hr]
    cases l with
    | mk ids => cases ids <;> exact .ok ⟨rfl, h'⟩
  | removeLast =>
    obtain ⟨t', hr, h'⟩ := h.removeLast
    rw [LinkTable.perform, hr]
    exact .ok ⟨rfl, h'⟩
  | clear =>
    obtain ⟨t', hr, h'⟩ := h.clear
    rw [LinkTable.perform, hr]
    exact .ok ⟨rfl, h'⟩
  | drain count =>
    obtain ⟨t', hr, h'⟩ := h.drain count
    rw [LinkTable.perform, hr]
    exact .ok ⟨rfl, h'⟩

section run

variable {tables : Nat → LinkTable} {lists : Nat → IndexList}

theorem put_spells (h : ∀ name, (tables name).Spells (lists name).ids) (name : Nat)
    (ht : t.Spells l.ids) (n : Nat) :
    (Keeping.put tables name t n).Spells (Keeping.put lists name l n).ids := by
  by_cases hn : n = name <;> simp [Keeping.put, hn, ht, h]

theorem step_spells (h : ∀ name, (tables name).Spells (lists name).ids) (command : Command) :
    Both (fun r r' => r.1 = r'.1 ∧ ∀ name, (r.2 name).Spells (r'.2 name).ids)
      (LinkTable.keeping.step tables command) (IndexList.keeping.step lists command) := by
  cases command with
  | create name capacity =>
    exact (Spells.withCapacity capacity).bind fun _ _ _ ht => .ok ⟨rfl, put_spells h name ht⟩
  | edit name operation =>
    exact ((h name).perform operation).bind fun _ _ _ ⟨ha, ht⟩ => .ok ⟨ha, put_spells h name ht⟩
  | append name other =>
    refine .bind_same fun _ _ => ?_
    have happend : Both (fun r r' => r.1.Spells r'.1.ids ∧ r.2.Spells r'.2.ids)
        (LinkTable.keeping.append (tables name) (tables other))
        (IndexList.keeping.append (lists name) (lists other)) :=
      ((h name).append (h other)).bind_right fun _ _ hr => hr
    exact happend.bind fun _ _ _ ⟨ht, ho⟩ =>
      .ok ⟨rfl, put_spells (put_spells h name ht) other ho⟩

end run

/-- Whatever a program does with its lists, the tables of links answer and are refused as lists of
distinct ids are, and show exactly those. -/
theorem run_as_sequences (commands : List Command) :
    Both (fun r r' => r.1 = r'.1 ∧ (∀ name, (r.2 name).Shows (r'.2 name).ids) ∧
        ∀ name other, (r'.2 name).ids.Disjoint (r'.2 other).ids →
          (r'.2 name).append (r'.2 other) = .ok ⟨(r'.2 name).ids ++ (r'.2 other).ids⟩)
      (LinkTable.keeping.run (fun _ => {}) commands) (IndexList.keeping.run (fun _ => {}) commands) :=
  have hrun := Both.runAll
    (R := fun (tables : Nat → LinkTable) (lists : Nat → IndexList) =>
      ∀ name, (tables name).Spells (lists name).ids)
    (fun _ _ command h => step_spells h command) (fun _ => Spells.new) commands
  hrun.imp fun _ _ _ ⟨ha, h⟩ =>
    ⟨ha, fun name => (h name).shows, fun name other hd =>
      append_disjoint (List.nodup_append'.mpr ⟨(h name).nodup, (h other).nodup, hd⟩)
        fun id hid => Nat.lt_of_lt_of_le ((h other).within id hid) (h other).size⟩

end LinkTable

end RegionHeap
