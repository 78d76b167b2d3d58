import RegionHeap.Fault

/-!
A list of nodes for reuse. Released nodes are not reused at once: they wait in a pending list,
and only a transfer moves that list as a whole to the free nodes. A transfer takes effect some
time after it was started; until then its nodes belong to neither list, and no other transfer
can start.
-/
set_option autoImplicit false

namespace RegionHeap

/-- Nodes are numbered in the order in which they are carved from memory. -/
structure FreeList where
  threshold : Nat := 10
  carved : Nat := 0
  free : List Nat := []
  /-- Released nodes, the latest first. -/
  pending : List Nat := []
  /-- The nodes of a transfer that has started and not yet taken effect. -/
  moving : Option (List Nat) := none
  deriving DecidableEq, Repr, Inhabited

namespace FreeList

def linkBytes : Nat := 8

def freeCount (l : FreeList) : Nat := l.free.length

def pendingCount (l : FreeList) : Nat := l.pending.length + (l.moving.getD []).length

def reuse? (l : FreeList) : Option (Nat × FreeList) :=
  match l.free with
  | [] => none
  | node :: rest => some (node, { l with free := rest })

def carve (l : FreeList) : Nat × FreeList := (l.carved, { l with carved := l.carved + 1 })

def allocate (l : FreeList) : Nat × FreeList := l.reuse?.getD l.carve

/-- Starts to move the pending nodes. Tells whether it could, that is, whether no transfer was
under way. -/
def startTransfer (l : FreeList) : Bool × FreeList :=
  match l.moving with
  | some _ => (false, l)
  | none => (true, { l with pending := [], moving := some l.pending })

def finishTransfer (l : FreeList) : FreeList :=
  { l with free := l.moving.getD [] ++ l.free, moving := none }

def release (l : FreeList) (node : Nat) : FreeList :=
  let l := { l with pending := node :: l.pending }
  if l.pending.length > l.threshold then l.startTransfer.2 else l

def flush (l : FreeList) : FreeList := l.finishTransfer

def takeFree (l : FreeList) (goal : Nat) : List Nat × FreeList :=
  (l.free.take goal, { l with free := l.free.drop goal })

def reduce (l : FreeList) (goal : Nat) : List Nat × FreeList := l.startTransfer.2.takeFree goal

def reset (l : FreeList) : List Nat × FreeList :=
  let l := l.flush
  (l.pending ++ l.free, { l with pending := [], free := [] })

def idle (l : FreeList) : List Nat := l.free ++ l.pending ++ l.moving.getD []

theorem length_idle (l : FreeList) : l.idle.length = l.freeCount + l.pendingCount := by
  simp [idle, freeCount, pendingCount]

theorem startTransfer_idle (l : FreeList) : l.startTransfer.2.idle.Perm l.idle := by
  unfold startTransfer
  cases h : l.moving <;> simp [idle, h]

theorem finishTransfer_idle (l : FreeList) : l.finishTransfer.idle.Perm l.idle := by
  simp only [finishTransfer, idle, Option.getD_none, List.append_nil, List.append_assoc]
  exact List.perm_append_comm.trans (by simp)

theorem release_idle (l : FreeList) (node : Nat) :
    (l.release node).idle.Perm (node :: l.idle) := by
  have h : ({ l with pending := node :: l.pending } : FreeList).idle.Perm (node :: l.idle) := by
    simp only [idle, List.append_assoc, List.cons_append]
    exact List.perm_middle
  unfold release
  simp only
  split
  · exact (startTransfer_idle _).trans h
  · exact h

end FreeList

end RegionHeap
