import Recurrence.Instant
import Recurrence.Text.Numeral
import Recurrence.Text.Field

set_option autoImplicit false
set_option relaxedAutoImplicit false

/-!
The written forms of instants: the timestamp, the wording in messages, and the compact form that
ends a rule; and the two grammars that are read.
-/

namespace Recurrence.Instant

open Recurrence.Text

/-- A year in four digits, or with a sign outside 0 to 9999. -/
def yearText (year : Int) : List Char :=
  if 0 ≤ year ∧ year ≤ 9999 then padded 4 year.toNat
  else if year < 0 then '-' :: padded 4 (-year).toNat
  else '+' :: padded 4 year.toNat

/-- The second of the minute as written, 60 in a leap second. -/
def writtenSecond (t : TimeOfDay) : Nat := t.secondOfMinute + if t.isLeap then 1 else 0

/-- The fraction of a second, exact in three, six or nine digits, absent if zero. -/
def fractionText (t : TimeOfDay) : List Char :=
  let nano := t.nano % 1000000000
  if nano = 0 then []
  else if nano % 1000000 = 0 then '.' :: padded 3 (nano / 1000000)
  else if nano % 1000 = 0 then '.' :: padded 6 (nano / 1000)
  else '.' :: padded 9 nano

def dateText (t : Instant) : List Char :=
  let date := Calendar.date t.day
  join ['-'] [yearText date.year, padded 2 date.month, padded 2 date.dayOfMonth]

/-- Hour, minute and second with a colon between them, and the fraction. -/
def timeText (t : Instant) : List Char :=
  join [':'] [padded 2 t.time.hour, padded 2 t.time.minute, padded 2 (writtenSecond t.time)] ++
    fractionText t.time

/-- The timestamp of an instant, such as `2026-03-01T12:00:00.250Z`. -/
def timestamp (t : Instant) : String := String.ofList (dateText t ++ 'T' :: timeText t ++ ['Z'])

/-- The instant as it stands in a message, such as `2026-03-01 12:00:00 UTC`. -/
def wording (t : Instant) : String :=
  String.ofList (dateText t ++ ' ' :: timeText t ++ [' ', 'U', 'T', 'C'])

/-- The compact form to the second, such as `20260301T120000Z`. A fraction is left out. -/
def compactText (t : Instant) : List Char :=
  let date := Calendar.date t.day
  yearText date.year ++ padded 2 date.month ++ padded 2 date.dayOfMonth ++
    'T' :: padded 2 t.time.hour ++ padded 2 t.time.minute ++ padded 2 (writtenSecond t.time) ++
    ['Z']

/-- Read a number of at most two digits, after any white space. -/
def readPair? (text : List Char) : Option (Nat × List Char) := takeDigits? 2 (trimStart text)

/-- Read a year, after any white space: up to four digits, or any number after a sign. -/
def readYear? (text : List Char) : Option (Int × List Char) :=
  match trimStart text with
  | '+' :: rest => (takeAllDigits? rest).map fun (n, rest) => ((n : Int), rest)
  | '-' :: rest => (takeAllDigits? rest).map fun (n, rest) => (-(n : Int), rest)
  | rest => (takeDigits? 4 rest).map fun (n, rest) => ((n : Int), rest)

/-- The time that hour, minute, second and nanoseconds name; second 60 is a leap second. -/
def timeOf? (hour minute second nano : Nat) : Option TimeOfDay :=
  if second = 60 then TimeOfDay.ofClock? hour minute 59 (1000000000 + nano)
  else TimeOfDay.ofClock? hour minute second nano

/-- Read year, month and day written without separators. -/
def readCompactDate? (text : List Char) : Option (Int × List Char) := do
  let (year, text) ← readYear? text
  let (month, text) ← readPair? text
  let (dayOfMonth, text) ← readPair? text
  let day ← Calendar.day? year month dayOfMonth
  return (day, text)

/-- Read the compact form: with a time of day, in which the final `Z` may be left out; or a date
alone, which means the last second of that day. -/
def readCompact? (text : List Char) : Option Instant := do
  let (day, rest) ← readCompactDate? text
  if text.contains 'T' then
    let rest ← after? ['T'] rest
    let (hour, rest) ← readPair? rest
    let (minute, rest) ← readPair? rest
    let (second, rest) ← readPair? rest
    if rest = [] ∨ rest = ['Z'] then
      let time ← timeOf? hour minute second 0
      return ⟨day, time⟩
    else none
  else
    if rest = [] then
      let time ← timeOf? 23 59 59 0
      return ⟨day, time⟩
    else none

/-- Read a separator, after any white space. -/
def readMark? (mark : Char) (text : List Char) : Option (List Char) :=
  after? [mark] (trimStart text)

/-- Read a fraction of a second to the nanosecond; further digits are passed over. -/
def readFraction? : List Char → Option (Nat × List Char)
  | '.' :: text => do
    let (value, rest) ← takeDigits? 9 text
    let width := text.length - rest.length
    return (value * Nat.pow 10 (9 - width), rest.dropWhile fun c => (digit? c).isSome)
  | text => some (0, text)

def readTwoDigits? : List Char → Option (Nat × List Char)
  | c :: d :: rest => do
    let tens ← digit? c
    let ones ← digit? d
    return (10 * tens + ones, rest)
  | _ => none

/-- Read the distance from universal time, in seconds: `Z`, `UTC`, or a sign and hours and
minutes. -/
def readOffset? (text : List Char) : Option (Int × List Char) :=
  match text with
  | 'Z' :: rest => some (0, rest)
  | 'z' :: rest => some (0, rest)
  | sign :: rest =>
    if (text.take 3).map Char.toUpper = ['U', 'T', 'C'] then some (0, text.drop 3)
    else do
      let direction : Int ← if sign = '+' then some 1
        else if sign = '-' ∨ sign = '\u2212' then some (-1) else none
      let (hours, rest) ← readTwoDigits? rest
      let (minutes, rest) ← readTwoDigits? (rest.dropWhile fun c => c = ':' || isBlank c)
      if hours < 24 ∧ minutes < 60 then
        return (direction * (hours * 3600 + minutes * 60), rest)
      else none
  | [] => none

/-- The instant at which a clock set `offset` seconds ahead of universal time shows the given day
and time. -/
def ofLocal? (day : Int) (time : TimeOfDay) (offset : Int) : Option Instant := do
  let second := (time.second : Int) - offset
  let day := day + second / 86400
  if Calendar.firstDay ≤ day ∧ day ≤ Calendar.lastDay then
    let time ← TimeOfDay.ofSecond? (second % 86400).toNat time.nano
    return ⟨day, time⟩
  else none

/-- Read a timestamp with its distance from universal time. -/
def readTimestamp? (text : List Char) : Option Instant := do
  let (year, text) ← readYear? text
  let text ← readMark? '-' text
  let (month, text) ← readPair? text
  let text ← readMark? '-' text
  let (dayOfMonth, text) ← readPair? text
  let text ← match text with
    | mark :: rest => if mark = 'T' ∨ mark = 't' ∨ mark = ' ' then some rest else none
    | [] => none
  let (hour, text) ← readPair? text
  let text ← readMark? ':' text
  let (minute, text) ← readPair? text
  let text ← readMark? ':' text
  let (second, text) ← readPair? text
  let (nano, text) ← readFraction? text
  let (offset, text) ← readOffset? (trimStart text)
  if trimStart text = [] then
    let day ← Calendar.day? year month dayOfMonth
    let time ← timeOf? hour minute second nano
    ofLocal? day time offset
  else none

def ofTimestamp? (text : String) : Option Instant := readTimestamp? text.toList

end Recurrence.Instant
