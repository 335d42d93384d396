import Recurrence.Text.Blank

set_option autoImplicit false
set_option relaxedAutoImplicit false

/-!
How often a rule recurs. The shortest period is a day.
-/

namespace Recurrence

/-- The unit of time in which a rule counts its interval. -/
inductive Frequency
  | daily | weekly | monthly | yearly
  deriving DecidableEq, Repr

namespace Frequency

def all : List Frequency := [daily, weekly, monthly, yearly]

/-- The word that stands for the frequency in rule text. -/
def code : Frequency → String
  | daily => "DAILY"
  | weekly => "WEEKLY"
  | monthly => "MONTHLY"
  | yearly => "YEARLY"

def ofCode? (text : String) : Option Frequency := all.find? fun f => f.code == text

/-- Read a frequency in either case, with white space around it. -/
def read? (text : List Char) : Option Frequency :=
  ofCode? (String.ofList ((Text.trim text).map Char.toUpper))

end Frequency

end Recurrence
