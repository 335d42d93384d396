import Recurrence.Instant.Text

set_option autoImplicit false
set_option relaxedAutoImplicit false

/-!
Windows: spans of time with both their ends.
-/

namespace Recurrence

structure Window where
  start : Instant
  stop : Instant
  start_le_stop : start ≤ stop

/-- Why two instants make no window. -/
inductive WindowError
  | inverted (start stop : Instant)
  deriving DecidableEq, Repr

namespace WindowError

def message : WindowError → String
  | inverted start stop =>
    "Invalid input: window end " ++ stop.wording ++ " precedes window start " ++ start.wording

end WindowError

namespace Window

/-- The window between two instants, if they are in order. -/
def between (start stop : Instant) : Except WindowError Window :=
  if h : start ≤ stop then .ok ⟨start, stop, h⟩ else .error (.inverted start stop)

instance : Membership Instant Window := ⟨fun w t => w.start ≤ t ∧ t ≤ w.stop⟩

instance (t : Instant) (w : Window) : Decidable (t ∈ w) :=
  inferInstanceAs (Decidable (_ ∧ _))

end Window

end Recurrence
