set_option autoImplicit false
set_option relaxedAutoImplicit false

/-!
Identifiers of objects. Nothing is known of them but whether two are the same.
-/

namespace Recurrence

/-- The name of a recurring object, of a replacement, or of an organization. -/
structure ObjectId where
  text : String
  deriving DecidableEq, Repr

end Recurrence
