import Recurrence.Rule
import Recurrence.Text.Field
import Recurrence.Text.Numeral

set_option autoImplicit false
set_option relaxedAutoImplicit false

/-!
What makes a rule unfit to be created. Expansion accepts unfit rules too; the values found here
never match a day or a time of day.
-/

namespace Recurrence

/-- The fields of a rule that hold numbers of limited meaning. -/
inductive NumberField
  | monthDay | yearDay | weekNumber | month | hour | minute | second
  deriving DecidableEq, Repr

namespace NumberField

def label : NumberField → String
  | monthDay => "month day"
  | yearDay => "year day"
  | weekNumber => "week number"
  | month => "month"
  | hour => "hour"
  | minute => "minute"
  | second => "second"

/-- True of the fields whose values may be counted from the end. -/
def countsFromEnd : NumberField → Bool
  | monthDay | yearDay | weekNumber => true
  | month | hour | minute | second => false

/-- The least value without a sign. -/
def least : NumberField → Int
  | monthDay | yearDay | weekNumber | month => 1
  | hour | minute | second => 0

def greatest : NumberField → Int
  | monthDay => 31
  | yearDay => 366
  | weekNumber => 53
  | month => 12
  | hour => 23
  | minute | second => 59

/-- True of the values that the field gives a meaning to. -/
def admits (field : NumberField) (value : Int) : Bool :=
  let size := if field.countsFromEnd && value < 0 then -value else value
  field.least ≤ size && size ≤ field.greatest

end NumberField

/-- The first thing that is wrong with a rule. -/
inductive RuleFault
  | zeroInterval
  | outOfRange (field : NumberField) (values : List Int)
  | zeroCount
  deriving DecidableEq, Repr

namespace RuleFault

/-- The range of a field in words. -/
def rangeText (field : NumberField) : List Char :=
  let bounds := Text.ofInt field.least ++ '-' :: Text.ofInt field.greatest
  if field.countsFromEnd then
    bounds ++ " or -1 to -".toList ++ Text.ofInt field.greatest
  else bounds

def message : RuleFault → String
  | zeroInterval => "Validation error: Interval must be at least 1"
  | outOfRange field values =>
    "Validation error: Invalid " ++ field.label ++ " values: " ++
      String.ofList (Text.join [',', ' '] (values.map Text.ofInt)) ++
      ". Must be between " ++ String.ofList (rangeText field)
  | zeroCount => "Validation error: Count must be positive"

end RuleFault

namespace Rule

/-- The values in a field that is checked for range. -/
def numbers (r : Rule) : NumberField → List Int
  | .monthDay => r.monthDays.elements.map (·.val)
  | .yearDay => r.yearDays.elements.map (·.val)
  | .weekNumber => r.weekNumbers.elements.map (·.val)
  | .month => r.months.elements.map (·.val)
  | .hour => r.hours.elements.map (·.val)
  | .minute => r.minutes.elements.map (·.val)
  | .second => r.seconds.elements.map (·.val)

/-- The fields that are checked for range, in the order in which they are checked. -/
def checkedFields : List NumberField :=
  [.monthDay, .yearDay, .weekNumber, .month, .hour, .minute, .second]

/-- The fault of a field, naming all its values out of range. -/
def fieldFault? (r : Rule) (field : NumberField) : Option RuleFault :=
  let values := (r.numbers field).filter fun value => !field.admits value
  if values.isEmpty then none else some (.outOfRange field values)

/-- The first fault of a rule: its interval, then its numbers, then its count. -/
def fault? (r : Rule) : Option RuleFault :=
  if r.interval.val < 1 then some .zeroInterval
  else (checkedFields.findSome? r.fieldFault?).or <|
    if r.count.any fun n => n.val = 0 then some .zeroCount else none

end Rule

end Recurrence
