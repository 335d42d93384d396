import Recurrence.Calendar

set_option autoImplicit false
set_option relaxedAutoImplicit false

/-!
Instants in universal time, to the nanosecond, and the durations between them. A leap second is
held as the second before it with a nanosecond part of at least one whole second; it comes after
that second and before the next. Arithmetic that leaves the calendar is an error, never a wrong
instant.
-/

namespace Recurrence

/-- A time of day. From 1000000000 on, the nanosecond part lies inside a leap second, which only
follows the last second of a minute. -/
structure TimeOfDay where
  second : Nat
  nano : Nat
  second_lt : second < 86400
  nano_lt : nano < 2000000000
  leap_at_minute_end : 1000000000 ≤ nano → second % 60 = 59
  deriving DecidableEq, Repr

namespace TimeOfDay

def midnight : TimeOfDay := ⟨0, 0, by decide, by decide, by decide⟩

instance : Inhabited TimeOfDay := ⟨midnight⟩

/-- The time of day with the given second and nanosecond part, if there is one. -/
def ofSecond? (second nano : Nat) : Option TimeOfDay :=
  if h : second < 86400 ∧ nano < 2000000000 ∧ (1000000000 ≤ nano → second % 60 = 59) then
    some ⟨second, nano, h.1, h.2.1, h.2.2⟩
  else none

/-- The time that a clock shows as hour, minute and second, if a clock can show it. -/
def ofClock? (hour minute second nano : Nat) : Option TimeOfDay :=
  if hour < 24 ∧ minute < 60 ∧ second < 60 then
    ofSecond? (hour * 3600 + minute * 60 + second) nano
  else none

def hour (t : TimeOfDay) : Nat := t.second / 3600

def minute (t : TimeOfDay) : Nat := t.second / 60 % 60

/-- The second of the minute, not counting a leap second. -/
def secondOfMinute (t : TimeOfDay) : Nat := t.second % 60

def isLeap (t : TimeOfDay) : Bool := 1000000000 ≤ t.nano

instance : LT TimeOfDay :=
  ⟨fun a b => a.second < b.second ∨ (a.second = b.second ∧ a.nano < b.nano)⟩

instance (a b : TimeOfDay) : Decidable (a < b) :=
  inferInstanceAs (Decidable (_ ∨ _))

/-- The beginning of the second that holds the time; a leap second is a second of its own. -/
def truncate (t : TimeOfDay) : TimeOfDay :=
  if h : 1000000000 ≤ t.nano then
    ⟨t.second, 1000000000, t.second_lt, by decide, fun _ => t.leap_at_minute_end h⟩
  else
    ⟨t.second, 0, t.second_lt, by decide, fun leap => absurd leap (by decide)⟩

end TimeOfDay

/-- A span of time, which may be negative. -/
structure Duration where
  nanoseconds : Int
  deriving DecidableEq, Repr

namespace Duration

def ofSeconds (n : Int) : Duration := ⟨n * 1000000000⟩

/-- A span of days of 86400 seconds. -/
def ofDays (n : Int) : Duration := ⟨n * 86400000000000⟩

def nanosecond : Duration := ⟨1⟩

def neg (d : Duration) : Duration := ⟨-d.nanoseconds⟩

/-- The whole seconds of a span, rounded toward zero. -/
def wholeSeconds (d : Duration) : Int := d.nanoseconds.tdiv 1000000000

/-- What the whole seconds leave of a span; it has the sign of the span. -/
def subsecond (d : Duration) : Int := d.nanoseconds.tmod 1000000000

/-- The whole days of a span, rounded toward zero. -/
def wholeDays (d : Duration) : Int := d.nanoseconds.tdiv 86400000000000

end Duration

/-- The only way in which arithmetic on instants fails. -/
inductive CalendarError
  /-- The result lies before the first or after the last day of the calendar. -/
  | outOfRange
  deriving DecidableEq, Repr

/-- A point in universal time. -/
structure Instant where
  day : Int
  time : TimeOfDay
  deriving DecidableEq, Repr

namespace Instant

instance : Inhabited Instant := ⟨⟨0, default⟩⟩

instance : LT Instant := ⟨fun a b => a.day < b.day ∨ (a.day = b.day ∧ a.time < b.time)⟩

instance (a b : Instant) : Decidable (a < b) :=
  inferInstanceAs (Decidable (_ ∨ _))

instance : LE Instant := ⟨fun a b => ¬ b < a⟩

instance (a b : Instant) : Decidable (a ≤ b) :=
  inferInstanceAs (Decidable (¬ _))

def earliest (a b : Instant) : Instant := if b < a then b else a

def latest (a b : Instant) : Instant := if a < b then b else a

def last : Instant := ⟨Calendar.lastDay, ⟨86399, 999999999, by decide, by decide, by decide⟩⟩

def truncate (t : Instant) : Instant := ⟨t.day, t.time.truncate⟩

/-- The instant a number of nanoseconds after the beginning of 1970, leap seconds not counted. -/
def ofNanoseconds (n : Int) : Instant :=
  let rest := (n % 86400000000000).toNat
  { day := n / 86400000000000
    time :=
      { second := rest / 1000000000
        nano := rest % 1000000000
        second_lt := by omega
        nano_lt := by omega
        leap_at_minute_end := by omega } }

/-- The nanoseconds from the beginning of 1970 to a second, leap seconds not counted, and on by the
given nanoseconds. -/
def nanosecondsTo (day : Int) (second nano : Int) : Int :=
  day * 86400000000000 + second * 1000000000 + nano

/-- The instant a span away. A step out of a leap second starts from the second before it if it
goes forward, and from the second after it if it goes back; a shorter step stays inside. -/
def shifted (t : Instant) (d : Duration) : Instant :=
  let moved := (t.time.nano : Int) + d.nanoseconds
  if h : 1000000000 ≤ t.time.nano ∧ -1000000000 < d.nanoseconds ∧ moved < 2000000000 then
    ⟨t.day,
      { second := t.time.second
        nano := moved.toNat
        second_lt := t.time.second_lt
        nano_lt := by omega
        leap_at_minute_end := fun _ => t.time.leap_at_minute_end h.1 }⟩
  else if t.time.nano < 1000000000 then
    ofNanoseconds (nanosecondsTo t.day t.time.second moved)
  else if 0 < d.nanoseconds then
    ofNanoseconds (nanosecondsTo t.day t.time.second (moved - 1000000000))
  else
    ofNanoseconds (nanosecondsTo t.day (t.time.second + 1) (moved - 1000000000))

/-- The instant a span away, if the calendar has it. -/
def add (t : Instant) (d : Duration) : Except CalendarError Instant :=
  let result := t.shifted d
  if Calendar.firstDay ≤ result.day ∧ result.day ≤ Calendar.lastDay then .ok result
  else .error .outOfRange

/-- The span from `b` to `a`. Between times of different seconds, a leap second that the earlier
of them lies in counts in full. -/
def since (a b : Instant) : Duration :=
  let leap : Int :=
    if b.time.second < a.time.second ∧ b.time.isLeap then 1
    else if a.time.second < b.time.second ∧ a.time.isLeap then -1
    else 0
  ⟨nanosecondsTo (a.day - b.day) (a.time.second - b.time.second + leap) (a.time.nano - b.time.nano)⟩

end Instant

end Recurrence
