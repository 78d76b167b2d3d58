/-!
Rounds order the work that has to wait until nobody looks at a node any more. Whoever looks at
nodes enters a round first. Work put off in one round is done some rounds later, when everybody who
entered before has left. How often rounds end, and how many of them work waits, is up to whoever
keeps them.
-/
set_option autoImplicit false

namespace RegionHeap

structure Rounds where
  /-- One entry in so many ends the round that it entered, the very first among them. -/
  period : Nat
  /-- How many rounds work waits. -/
  delay : Nat
  current : Nat := 0
  entries : Nat := 0
  deriving DecidableEq, Repr, Inhabited

namespace Rounds

def enter (r : Rounds) : Rounds :=
  { r with
    current := if r.entries % r.period = 0 then r.current + 1 else r.current
    entries := r.entries + 1 }

def close (r : Rounds) (entered : Nat) : Rounds :=
  if entered = r.current then { r with current := r.current + 1 } else r

def due (r : Rounds) : Nat := r.current + r.delay

theorem current_close_enter (r : Rounds) :
    (r.enter.close r.current).current = r.current + 1 := by
  unfold enter close; split <;> simp

end Rounds

end RegionHeap
