import Recurrence.Instant.Text
import Recurrence.Rule

set_option autoImplicit false
set_option relaxedAutoImplicit false

/-!
Rules as records of plain data, the form in which they are exchanged and kept. Writing names every
field. Reading wants every field but the two bounds, takes the fields by name or all of them in
order, and passes over names that it does not know.
-/

namespace Recurrence

/-- Plain data: the values that records are made of. -/
inductive Data
  | null
  | truth (value : Bool)
  | integer (value : Int)
  /-- A number written with a fraction or an exponent. -/
  | fraction
  | text (value : String)
  | list (items : List Data)
  /-- Values by name, each name once. -/
  | fields (items : List (String × Data))
  deriving Inhabited

namespace Data

/-- An integer of a limited range. -/
def readInt? {low high : Int} : Data → Option (BoundedInt low high)
  | integer n => BoundedInt.ofInt? n
  | _ => none

/-- One of several names: the name itself, or the name as the only field, with no value. -/
def readName? {α : Type} (ofName? : String → Option α) : Data → Option α
  | text name => ofName? name
  | fields [(name, null)] => ofName? name
  | _ => none

/-- A timestamp with its distance from universal time. -/
def readInstant? : Data → Option Instant
  | text value => Instant.ofTimestamp? value
  | _ => none

/-- A value that may be null. -/
def readOptional? {α : Type} (read? : Data → Option α) : Data → Option (Option α)
  | null => some none
  | value => (read? value).map some

/-- A set, as a list of its members in any order, repetitions allowed. -/
def readSet? {α : Type} [Ranked α] (read? : Data → Option α) : Data → Option (SortedSet α)
  | list items => (items.mapM read?).map SortedSet.ofList
  | _ => none

def ofSet {α : Type} [Ranked α] (write : α → Data) (s : SortedSet α) : Data :=
  list (s.elements.map write)

def ofBounded {low high : Int} (n : BoundedInt low high) : Data := integer n.val

/-- The set of bounded numbers in a list of integers. -/
def readNumbers? {low high : Int} : Data → Option (SortedSet (BoundedInt low high)) :=
  readSet? readInt?

/-- The set of weekdays in a list of their codes. -/
def readWeekdays? : Data → Option (SortedSet Weekday) := readSet? (readName? Weekday.ofCode?)

end Data

namespace Rule

/-- The names of the fields of a rule's record, in order. -/
def fieldNames : List String :=
  ["frequency", "interval", "count", "until", "by_weekday", "by_month_day", "by_month",
    "by_year_day", "by_week_number", "by_hour", "by_minute", "by_second", "week_start"]

def fieldValues (r : Rule) : List Data :=
  [.text r.frequency.code, .ofBounded r.interval, r.count.elim .null .ofBounded,
    r.ends.elim .null fun t => .text t.timestamp, .ofSet (fun d => .text d.code) r.weekdays,
    .ofSet .ofBounded r.monthDays, .ofSet .ofBounded r.months, .ofSet .ofBounded r.yearDays,
    .ofSet .ofBounded r.weekNumbers, .ofSet .ofBounded r.hours, .ofSet .ofBounded r.minutes,
    .ofSet .ofBounded r.seconds, .text r.weekStart.code]

/-- The record of a rule. -/
def toData (r : Rule) : Data := .fields (fieldNames.zip r.fieldValues)

/-- The rule with the given values for its fields, in order. -/
def ofValues? : List Data → Option Rule
  | [frequency, interval, count, ends, weekdays, monthDays, months, yearDays, weekNumbers, hours,
      minutes, seconds, weekStart] =>
    return {
      frequency := ← frequency.readName? Frequency.ofCode?
      interval := ← interval.readInt?
      count := ← count.readOptional? Data.readInt?
      ends := ← ends.readOptional? Data.readInstant?
      weekdays := ← weekdays.readWeekdays?
      monthDays := ← monthDays.readNumbers?
      months := ← months.readNumbers?
      yearDays := ← yearDays.readNumbers?
      weekNumbers := ← weekNumbers.readNumbers?
      hours := ← hours.readNumbers?
      minutes := ← minutes.readNumbers?
      seconds := ← seconds.readNumbers?
      weekStart := ← weekStart.readName? Weekday.ofCode? }
  | _ => none

/-- The value of a field; a bound that is left out is null. -/
def fieldValue? (items : List (String × Data)) (name : String) : Option Data :=
  match items.lookup name with
  | some value => some value
  | none => if name = "count" ∨ name = "until" then some .null else none

/-- The rule that a record describes. -/
def ofData? : Data → Option Rule
  | .fields items => do ofValues? (← fieldNames.mapM (fieldValue? items))
  | .list values => ofValues? values
  | _ => none

end Rule

end Recurrence
