import Recurrence.SortedSet
import Recurrence.Text.Blank

set_option autoImplicit false
set_option relaxedAutoImplicit false

/-!
Days of the week and their written forms. The week is numbered from Sunday, 0 to 6.
-/

namespace Recurrence

inductive Weekday
  | sunday | monday | tuesday | wednesday | thursday | friday | saturday
  deriving DecidableEq, Repr

namespace Weekday

def all : List Weekday := [sunday, monday, tuesday, wednesday, thursday, friday, saturday]

/-- The place of the day in the week, 0 for Sunday to 6 for Saturday. -/
def number : Weekday → Nat
  | sunday => 0
  | monday => 1
  | tuesday => 2
  | wednesday => 3
  | thursday => 4
  | friday => 5
  | saturday => 6

/-- The day with the given number from Sunday. -/
def ofNumber? : Nat → Option Weekday
  | 0 => some sunday
  | 1 => some monday
  | 2 => some tuesday
  | 3 => some wednesday
  | 4 => some thursday
  | 5 => some friday
  | 6 => some saturday
  | _ => none

/-- The two letters that stand for the day in rule text. -/
def code : Weekday → String
  | sunday => "SU"
  | monday => "MO"
  | tuesday => "TU"
  | wednesday => "WE"
  | thursday => "TH"
  | friday => "FR"
  | saturday => "SA"

/-- The three letters that abbreviate the day's name. -/
def shortName : Weekday → String
  | sunday => "Sun"
  | monday => "Mon"
  | tuesday => "Tue"
  | wednesday => "Wed"
  | thursday => "Thu"
  | friday => "Fri"
  | saturday => "Sat"

def ofCode? (text : String) : Option Weekday := all.find? fun d => d.code == text

def ofShortName? (text : String) : Option Weekday := all.find? fun d => d.shortName == text

/-- Read a code in either case, with white space around it. -/
def read? (text : List Char) : Option Weekday :=
  ofCode? (String.ofList ((Text.trim text).map Char.toUpper))

theorem number_lt (d : Weekday) : d.number < 7 := by cases d <;> decide

@[simp] theorem ofNumber?_number (d : Weekday) : ofNumber? d.number = some d := by
  cases d <;> rfl

instance : Ranked Weekday where
  rank d := d.number
  eq_of_rank_eq := by
    intro a b h
    have same : ofNumber? a.number = ofNumber? b.number := congrArg ofNumber? (Int.ofNat.inj h)
    simpa using same

end Weekday

end Recurrence
