import Recurrence.Text.Field
import Recurrence.Text.Numeral

set_option autoImplicit false
set_option relaxedAutoImplicit false

/-!
Paths into a tree of settings, and the variable names that stand for them. In a name an underscore
or a point separates the keys of a path, a hyphen or a space the words of a key, and a number in
brackets is a place in a list: `ENGINE_SAFETY-CAP` is the key `safety_cap` under the key `engine`.
-/

namespace Recurrence

open Recurrence.Text

/-- A step down a tree of settings: to a key of a section, or to a place in a list. -/
inductive SettingStep
  | key (name : String)
  | place (index : Nat)
  deriving DecidableEq, Repr

/-- The steps from the root of a tree to a setting. -/
abbrev SettingPath := List SettingStep

namespace SettingPath

/-- The lower case of a character, so far as it is in ASCII: that of the letters of ASCII and of the
Kelvin sign. No other character can stand in a path. -/
def lowerCase (c : Char) : Char := if c = '\u212a' then 'k' else c.toLower

/-- A character of a name as it is read: a point separates keys, and a hyphen words. -/
def nameChar (c : Char) : Char :=
  if c = '_' then '.' else if c = ' ' then '-' else lowerCase c

/-- The words of a text, joined by underscores. Hyphens at either end, or next to one another,
separate nothing. -/
def joinWords (text : List Char) : List Char :=
  join ['_'] ((fields '-' text).filter fun word => word ≠ [])

/-- True of the characters of keys. -/
def isKeyChar (c : Char) : Bool := c.isAlphanum || c = '_'

/-- Read a key: one or more characters, all of them such as keys have. -/
def readKey? (text : List Char) : Option SettingStep :=
  if text ≠ [] ∧ text.all isKeyChar then some (.key (String.ofList text)) else none

/-- The greatest place in a list. -/
def greatestPlace : Nat := 9223372036854775807

/-- The text without the tabs at its front. -/
def trimTabs (text : List Char) : List Char := text.dropWhile (· = '\t')

/-- Read a place and the bracket behind it, maybe with tabs around the number. -/
def readPlace? (text : List Char) : Option SettingStep := do
  let (index, rest) ← takeAllDigits? (trimTabs text)
  if trimTabs rest = [']'] ∧ index ≤ greatestPlace then return .place index else none

/-- Read a key and the places behind it. -/
def readSteps? (text : List Char) : Option SettingPath :=
  match fields '[' text with
  | [] => none
  | key :: places => return (← readKey? key) :: (← places.mapM readPlace?)

/-- The path that a variable's name stands for, if it stands for one. The words of each key are
joined before the key is read. -/
def ofName? (name : String) : Option SettingPath :=
  ((fields '.' (name.toList.map nameChar)).mapM fun text => readSteps? (joinWords text)).map
    List.flatten

end SettingPath

end Recurrence
