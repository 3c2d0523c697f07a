/-!
Sets of characters as runs. A run is given by the number of characters that lie between it and the
run before, and by its own length.
-/

namespace Inlay

def inRuns : List (Nat × Nat) → Nat → Bool
  | [], _ => false
  | (gap, size) :: rest, n =>
      if n < gap then false else if n < gap + size then true else inRuns rest (n - (gap + size))

/-- Runs in which only every `step`-th character counts. -/
def inSteppedRuns : List (Nat × Nat × Nat) → Nat → Bool
  | [], _ => false
  | (gap, size, step) :: rest, n =>
      if n < gap then false
      else if n < gap + size then (n - gap) % step == 0
      else inSteppedRuns rest (n - (gap + size))

end Inlay
