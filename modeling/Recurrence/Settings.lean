import Recurrence.Limits
import Recurrence.Settings.Tree

set_option autoImplicit false
set_option relaxedAutoImplicit false

/-!
Settings, and how the environment changes them. A variable's name is a path into the tree of
settings, its value a scalar. The limits of the engine are the fields of one record, the level of
the log the only field of another.
-/

namespace Recurrence

/-- The settings of a program that uses the engine. -/
structure Settings where
  limits : Limits := {}
  logLevel : String := "info"
  deriving DecidableEq, Repr

namespace Settings

/-- The key of the record of limits. -/
def engineKey : String := "engine"

def loggingKey : String := "logging"

/-- The key of the limit on the number of occurrences. -/
def maxOccurrencesKey : String := "default_max_occurrences"

def safetyCapKey : String := "safety_cap"

def horizonDaysKey : String := "next_occurrence_horizon_days"

def levelKey : String := "level"

def toTree (s : Settings) : SettingTree :=
  .branch
    [(engineKey, .branch
        [(maxOccurrencesKey, .leaf (.integer s.limits.maxOccurrences)),
          (safetyCapKey, .leaf (.integer s.limits.safetyCap)),
          (horizonDaysKey, .leaf (.integer s.limits.horizonDays))]),
      (loggingKey, .branch [(levelKey, .leaf (.text s.logLevel))])]

/-- The greatest number of occurrences or of days, that of four bytes. -/
def greatestLimit : Nat := 4294967295

/-- A limit in the record of limits, if it is a count that does not exceed the greatest one. -/
def limit? (engine : SettingTree) (index : Nat) (name : String) (greatest : Nat) : Option Nat := do
  let count ← (← engine.field? index name).toCount?
  if count ≤ greatest then return count else none

def limits? (engine : SettingTree) : Option Limits :=
  return {
    maxOccurrences := ← limit? engine 0 maxOccurrencesKey greatestLimit
    safetyCap := ← limit? engine 1 safetyCapKey Scalar.greatestCount
    horizonDays := ← limit? engine 2 horizonDaysKey greatestLimit }

/-- The settings in a tree, if every one is where it belongs. -/
def ofTree? (t : SettingTree) : Option Settings :=
  return {
    limits := ← limits? (← t.get? (.key engineKey))
    logLevel := (← (← t.get? (.key loggingKey)).field? 0 levelKey).toText }

/-- The tree with one variable applied. Empty variables, and names that stand for no path, change
nothing. -/
def applyVariable (t : SettingTree) (name value : String) : SettingTree :=
  match SettingPath.ofName? name with
  | some path => if value.isEmpty then t else t.setPath (.ofText value) path
  | none => t

/-- The settings that an environment leads to; none if it puts a scalar in the place of a record,
something else than a scalar in the place of a field, or a limit out of range. -/
def ofEnvironment? (environment : List (String × String)) : Option Settings :=
  ofTree? (environment.foldl (fun t v => applyVariable t v.1 v.2) (toTree {}))

end Settings

end Recurrence
