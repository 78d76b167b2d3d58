import RegionHeap.Alloc.FreeList
import RegionHeap.Alloc.Rounds
import RegionHeap.Word

/-!
A free list whose transfers take effect as rounds end. The rounds may be shared: whoever uses
several recyclers hands the rounds from one to the next, so that starting a transfer in one of
them helps to complete those of the others.
-/
set_option autoImplicit false

namespace RegionHeap

structure Recycler where
  list : FreeList := {}
  rounds : Rounds
  /-- The round in which the transfer under way takes effect. -/
  due : Nat := 0
  /-- How many nodes wait for the next closing of a round to be put off. -/
  held : Nat := 0
  /-- The rounds in which nodes go back to memory, each with their number. -/
  leaving : List (Nat × Nat) := []
  deriving DecidableEq, Repr, Inhabited

namespace Recycler

def create (threshold : Nat) (rounds : Rounds) : Recycler where
  list := { threshold }
  rounds

def freeCount (r : Recycler) : Nat := r.list.freeCount

def pendingCount (r : Recycler) : Nat := r.list.pendingCount

def carved (r : Recycler) : Nat := r.list.carved

def leavingCount (r : Recycler) : Nat := r.held + Word.total (r.leaving.map Prod.snd)

def settle (r : Recycler) : Recycler :=
  { r with
    list := if r.due ≤ r.rounds.current then r.list.finishTransfer else r.list
    leaving := r.leaving.filter fun (due, _) => r.rounds.current < due }

def withRounds (r : Recycler) (rounds : Rounds) : Recycler := settle { r with rounds := rounds }

def enter (r : Recycler) : Recycler := r.withRounds r.rounds.enter

def close (r : Recycler) (entered : Nat) : Recycler :=
  withRounds { r with held := 0, leaving := (r.rounds.due, r.held) :: r.leaving }
    (r.rounds.close entered)

def reuse? (r : Recycler) : Option (Nat × Recycler) :=
  match r.list.free with
  | [] => none
  | _ :: _ => r.enter.list.reuse?.map fun (node, list) => (node, { r.enter with list := list })

def carve (r : Recycler) : Nat × Recycler :=
  (r.list.carve.1, { r with list := r.list.carve.2 })

def allocate (r : Recycler) : Nat × Recycler := r.reuse?.getD r.carve

def postpone (r : Recycler) : Recycler :=
  let rounds := r.rounds.enter
  close { r with rounds := rounds, due := rounds.due } r.rounds.current

def startTransfer (r : Recycler) : Bool × Recycler :=
  match r.list.startTransfer with
  | (false, _) => (false, r)
  | (true, list) => (true, postpone { r with list := list })

def release (r : Recycler) (node : Nat) : Recycler :=
  let r := r.enter
  let s := { r with list := r.list.release node }
  if r.list.moving.isNone && s.list.moving.isSome then s.postpone else s

def pass (r : Recycler) : Recycler := r.enter.close r.rounds.current

def flush (r : Recycler) : Recycler :=
  match r.list.moving with
  | none => r
  | some _ => settle (Nat.repeat pass (r.due - r.rounds.current) r)

/-- Gives up to so many free nodes back to memory; pending ones are not waited for. The nodes take
up room until everybody has left who might look at them. -/
def reduce (r : Recycler) (goal : Nat) : List Nat × Recycler :=
  let r := r.startTransfer.2.enter
  let (removed, list) := r.list.takeFree goal
  (removed, { r with list := list, held := r.held + removed.length })

def reset (r : Recycler) : List Nat × Recycler :=
  let r := r.flush
  (r.list.reset.1, { r with list := r.list.reset.2 })

theorem rounds_pass (r : Recycler) : r.pass.rounds.current = r.rounds.current + 1 :=
  r.rounds.current_close_enter

theorem due_pass (r : Recycler) : r.pass.due = r.due := rfl

theorem repeat_pass (r : Recycler) (n : Nat) :
    (Nat.repeat pass n r).rounds.current = r.rounds.current + n ∧
      (Nat.repeat pass n r).due = r.due := by
  induction n with
  | zero => exact ⟨rfl, rfl⟩
  | succ n ih =>
    simp only [Nat.repeat, rounds_pass, due_pass, ih]
    exact ⟨rfl, trivial⟩

/-- As many rounds as are missing until the transfer is due are enough. -/
theorem moving_flush (r : Recycler) : r.flush.list.moving = none := by
  unfold flush
  cases h : r.list.moving with
  | none => exact h
  | some nodes =>
    have ⟨hr, hd⟩ := repeat_pass r (r.due - r.rounds.current)
    simp only [settle, hr, hd]
    rw [if_pos (by omega)]
    rfl

/-- Whenever the rounds end, no node is lost and none is doubled. -/
theorem withRounds_idle (r : Recycler) (rounds : Rounds) :
    (r.withRounds rounds).list.idle.Perm r.list.idle := by
  unfold withRounds settle
  split
  · exact r.list.finishTransfer_idle
  · exact List.Perm.refl _

theorem pass_idle (r : Recycler) : r.pass.list.idle.Perm r.list.idle :=
  (withRounds_idle _ _).trans (withRounds_idle _ _)

theorem flush_idle (r : Recycler) : r.flush.list.idle.Perm r.list.idle := by
  have hpasses : ∀ n, (Nat.repeat pass n r).list.idle.Perm r.list.idle := fun n => by
    induction n with
    | zero => exact List.Perm.refl _
    | succ n ih => exact (pass_idle _).trans ih
  unfold flush
  split
  · exact List.Perm.refl _
  · exact (withRounds_idle _ _).trans (hpasses _)

theorem startTransfer_idle (r : Recycler) : r.startTransfer.2.list.idle.Perm r.list.idle := by
  have h := r.list.startTransfer_idle
  unfold startTransfer
  split
  · exact List.Perm.refl _
  · next list hl =>
    rw [hl] at h
    exact (withRounds_idle _ _).trans h

theorem release_idle (r : Recycler) (node : Nat) :
    (r.release node).list.idle.Perm (node :: r.list.idle) := by
  have h := (r.enter.list.release_idle node).trans ((withRounds_idle r _).cons node)
  unfold release
  simp only
  split
  · exact (withRounds_idle _ _).trans h
  · exact h

end Recycler

end RegionHeap
