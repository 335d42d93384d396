import Recurrence.Settings.Path
import Recurrence.Settings.Scalar

set_option autoImplicit false
set_option relaxedAutoImplicit false

/-!
Trees of settings. What stands at a path is replaced by what is put there, together with all that
is above it and does not fit the path.
-/

namespace Recurrence

/-- A tree of settings: a value, a section of settings by key, or a list of settings by place, in
which places may be vacant. -/
inductive SettingTree
  | leaf (value : Scalar)
  | branch (items : List (String × SettingTree))
  | list (items : List (Nat × SettingTree))

namespace SettingTree

/-- The settings by key; only a section has any. -/
def byKey : SettingTree → List (String × SettingTree)
  | branch items => items
  | _ => []

/-- The settings by place; only a list has any. -/
def byPlace : SettingTree → List (Nat × SettingTree)
  | list items => items
  | _ => []

/-- The tree one step below. -/
def get? (t : SettingTree) : SettingStep → Option SettingTree
  | .key name => t.byKey.lookup name
  | .place index => t.byPlace.lookup index

/-- The tree with another one put one step below. What is no section gives way to one where a key
is put, and what is no list to one where a place is filled. -/
def put (t : SettingTree) (step : SettingStep) (below : SettingTree) : SettingTree :=
  match step with
  | .key name => branch ((name, below) :: t.byKey.filter fun item => item.1 ≠ name)
  | .place index => list ((index, below) :: t.byPlace.filter fun item => item.1 ≠ index)

/-- The tree with a value at the end of a path. -/
def setPath (value : Scalar) : SettingPath → SettingTree → SettingTree
  | [], _ => leaf value
  | step :: path, t => t.put step (setPath value path ((t.get? step).getD (branch [])))

/-- The value of a field of a record. A record may be a section, by the keys of its fields, or a
list, in the order of its fields. -/
def field? (t : SettingTree) (index : Nat) (name : String) : Option Scalar :=
  match (t.get? (.key name)).or (t.get? (.place index)) with
  | some (leaf value) => some value
  | _ => none

end SettingTree

end Recurrence
