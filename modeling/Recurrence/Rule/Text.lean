import Recurrence.Instant.Text
import Recurrence.Rule

set_option autoImplicit false
set_option relaxedAutoImplicit false

/-!
Rules as text, such as `FREQ=WEEKLY;COUNT=6;BYDAY=MO,WE,FR`. Writing leaves out what has its
default value. Reading takes the parts in any order and case, with white space around keys and
values, and passes over keys that it does not know.
-/

namespace Recurrence

open Recurrence.Text

/-- The parts of rule text besides the frequency. -/
inductive RulePart
  | interval | count | ends | weekdays | monthDays | months | yearDays | weekNumbers
  | hours | minutes | seconds | weekStart
  deriving DecidableEq, Repr

namespace RulePart

/-- The key that stands for the part. -/
def key : RulePart → String
  | interval => "INTERVAL"
  | count => "COUNT"
  | ends => "UNTIL"
  | weekdays => "BYDAY"
  | monthDays => "BYMONTHDAY"
  | months => "BYMONTH"
  | yearDays => "BYYEARDAY"
  | weekNumbers => "BYWEEKNO"
  | hours => "BYHOUR"
  | minutes => "BYMINUTE"
  | seconds => "BYSECOND"
  | weekStart => "WKST"

def all : List RulePart :=
  [interval, count, ends, weekdays, monthDays, months, yearDays, weekNumbers, hours, minutes,
    seconds, weekStart]

/-- The part with exactly this key. -/
def ofKey? (key : String) : Option RulePart := all.find? fun part => part.key == key

end RulePart

/-- Why a text is not the text of a rule. -/
inductive RuleTextError
  /-- A part without an equals sign. -/
  | malformedPart (part : String)
  | unknownFrequency (value : String)
  | missingFrequency
  /-- A number, or an item of a list of numbers, that does not fit its part. -/
  | invalidNumber (part : RulePart) (value : String)
  | invalidEnd (value : String)
  | invalidWeekStart (value : String)
  | invalidWeekday (value : String)
  deriving DecidableEq, Repr

namespace RuleTextError

def message : RuleTextError → String
  | malformedPart part => "Parse error: Malformed rule part: " ++ part
  | unknownFrequency value => "Parse error: Unknown FREQ: " ++ value
  | missingFrequency => "Parse error: Missing FREQ"
  | invalidNumber part value => "Parse error: Invalid " ++ part.key ++ " value: " ++ value
  | invalidEnd value => "Parse error: Invalid UNTIL: " ++ value
  | invalidWeekStart value => "Parse error: Invalid WKST: " ++ value
  | invalidWeekday value => "Parse error: Invalid weekday: " ++ value

end RuleTextError

namespace Rule

/-- A list of numbers, separated by commas. -/
def numbersText {low high : Int} (s : SortedSet (BoundedInt low high)) : List Char :=
  join [','] (s.elements.map fun n => ofInt n.val)

/-- The text of a value, absent for a set without members. -/
def unlessEmpty {α : Type} [Ranked α] (s : SortedSet α) (text : List Char) : Option (List Char) :=
  if s.isEmpty then none else some text

/-- The value written for a part, if the rule has more than its default there. -/
def partText? (r : Rule) : RulePart → Option (List Char)
  | .interval => if r.interval.val = 1 then none else some (ofInt r.interval.val)
  | .count => r.count.map fun n => ofInt n.val
  | .ends => r.ends.map Instant.compactText
  | .weekdays => unlessEmpty r.weekdays (join [','] (r.weekdays.elements.map (·.code.toList)))
  | .monthDays => unlessEmpty r.monthDays (numbersText r.monthDays)
  | .months => unlessEmpty r.months (numbersText r.months)
  | .yearDays => unlessEmpty r.yearDays (numbersText r.yearDays)
  | .weekNumbers => unlessEmpty r.weekNumbers (numbersText r.weekNumbers)
  | .hours => unlessEmpty r.hours (numbersText r.hours)
  | .minutes => unlessEmpty r.minutes (numbersText r.minutes)
  | .seconds => unlessEmpty r.seconds (numbersText r.seconds)
  | .weekStart => if r.weekStart = .monday then none else some r.weekStart.code.toList

/-- A part of rule text: a key, an equals sign and a value. -/
def entryText (key : String) (value : List Char) : List Char := key.toList ++ '=' :: value

def entries (r : Rule) : List (List Char) :=
  entryText "FREQ" r.frequency.code.toList ::
    RulePart.all.filterMap fun part => (r.partText? part).map (entryText part.key)

def text (r : Rule) : String := String.ofList (join [';'] r.entries)

/-- A part of rule text, as it is read. -/
inductive Entry
  | frequency (value : Frequency)
  | other (key : String) (value : List Char)

/-- Read a part: the key in either case, the value without the white space around it. -/
def readEntry (text : List Char) : Except RuleTextError Entry :=
  match cut? '=' text with
  | none => .error (.malformedPart (String.ofList text))
  | some (key, value) =>
    let key := String.ofList ((trim key).map Char.toUpper)
    if key = "FREQ" then
      match Frequency.read? value with
      | some frequency => .ok (.frequency frequency)
      | none => .error (.unknownFrequency (String.ofList value))
    else .ok (.other key (trim value))

def readNumber {low high : Int} (part : RulePart) (value : List Char) :
    Except RuleTextError (BoundedInt low high) :=
  match BoundedInt.read? (trim value) with
  | some n => .ok n
  | none => .error (.invalidNumber part (String.ofList value))

def readNumbers {low high : Int} (part : RulePart) (value : List Char) :
    Except RuleTextError (SortedSet (BoundedInt low high)) :=
  return SortedSet.ofList (← (fields ',' value).mapM (readNumber part))

/-- Read the code of a weekday in a list of them. -/
def readWeekday (value : List Char) : Except RuleTextError Weekday :=
  match Weekday.read? value with
  | some d => .ok d
  | none => .error (.invalidWeekday (String.ofList value))

def readWeekdays (value : List Char) : Except RuleTextError (SortedSet Weekday) :=
  return SortedSet.ofList (← (fields ',' value).mapM readWeekday)

/-- The rule with one part set to what its value says. -/
def setPart (r : Rule) (part : RulePart) (value : List Char) : Except RuleTextError Rule :=
  match part with
  | .interval => return { r with interval := ← readNumber part value }
  | .count => return { r with count := some (← readNumber part value) }
  | .ends => match Instant.readCompact? value with
    | some t => .ok { r with ends := some t }
    | none => .error (.invalidEnd (String.ofList value))
  | .weekStart => match Weekday.read? value with
    | some d => .ok { r with weekStart := d }
    | none => .error (.invalidWeekStart (String.ofList value))
  | .weekdays => return { r with weekdays := ← readWeekdays value }
  | .monthDays => return { r with monthDays := ← readNumbers part value }
  | .months => return { r with months := ← readNumbers part value }
  | .yearDays => return { r with yearDays := ← readNumbers part value }
  | .weekNumbers => return { r with weekNumbers := ← readNumbers part value }
  | .hours => return { r with hours := ← readNumbers part value }
  | .minutes => return { r with minutes := ← readNumbers part value }
  | .seconds => return { r with seconds := ← readNumbers part value }

/-- The rule with one more part applied; the frequency is settled before, and a key that stands for
no part changes nothing. -/
def setEntry (r : Rule) : Entry → Except RuleTextError Rule
  | .frequency _ => .ok r
  | .other key value => match RulePart.ofKey? key with
    | some part => r.setPart part value
    | none => .ok r

/-- The last frequency among the parts. -/
def lastFrequency? (parts : List Entry) : Option Frequency :=
  parts.foldl (fun found part => match part with
    | .frequency f => some f
    | .other _ _ => found) none

/-- The rule that the parts of a text describe. All parts are taken apart before any value but the
frequency is read, and of two parts with one key the later one holds. -/
def readParts (parts : List (List Char)) : Except RuleTextError Rule := do
  let entries ← (parts.filter fun part => trim part ≠ []).mapM readEntry
  match lastFrequency? entries with
  | some frequency => entries.foldlM setEntry { frequency }
  | none => .error .missingFrequency

/-- The text without the label that may stand in front of a rule. -/
def withoutLabel (text : List Char) : List Char := (after? "RRULE:".toList text).getD text

def read (text : List Char) : Except RuleTextError Rule :=
  readParts (fields ';' (withoutLabel (trim text)))

/-- The rule with the given text. -/
def ofText (text : String) : Except RuleTextError Rule := read text.toList

end Rule

end Recurrence
