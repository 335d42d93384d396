import Recurrence.Calendar
import Recurrence.Frequency

set_option autoImplicit false
set_option relaxedAutoImplicit false

/-!
The units of the calendar that a frequency counts: days, weeks, months and years, each numbered by
an integer. `unitStart u ≤ d` holds exactly when `u ≤ unitOf d`, so that a day lies in the last
unit that has begun by then.
-/

namespace Recurrence.Frequency

/-- The number of the unit that a day lies in. Only weeks depend on the day that begins them. -/
def unitOf (frequency : Frequency) (weekStart : Weekday) (day : Int) : Int :=
  match frequency with
  | daily => day
  | weekly => (day + 4 - weekStart.number) / 7
  | monthly =>
    let date := Calendar.date day
    12 * date.year + (date.month - 1)
  | yearly => Calendar.yearOf day

def unitStart (frequency : Frequency) (weekStart : Weekday) (unit : Int) : Int :=
  match frequency with
  | daily => unit
  | weekly => 7 * unit - 4 + weekStart.number
  | monthly => Calendar.day (unit / 12) ((unit % 12).toNat + 1) 1
  | yearly => Calendar.yearStart unit

end Recurrence.Frequency
