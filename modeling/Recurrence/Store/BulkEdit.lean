import Recurrence.Store

set_option autoImplicit false
set_option relaxedAutoImplicit false

/-!
Edits of this and all following occurrences. The object is cut off before the edited occurrence,
and another object, or none, takes over from there. Either all checks pass and the edit is made, or
the store stays as it is.
-/

namespace Recurrence

/-- An edit of an object from one of its occurrences on. -/
structure BulkEdit where
  splitDate : Instant
  /-- The object that takes over; without one, all occurrences from the split on are cancelled. -/
  continuation : Option Entity
  /-- The text of a rule for the continuation, in place of its own. -/
  ruleText : Option String

namespace Store

/-- The check that an object is not continued yet by an object that exists. -/
def checkUncontinued (s : Store) (root : ObjectId) : Except EditError Unit :=
  match s.continuation? root with
  | some continuation =>
    if s.entities.contains continuation then .error (.alreadyContinues root continuation)
    else .ok ()
  | none => .ok ()

/-- The rule for a continuation: the one given as text, else its own, else the generated one. -/
def continuationRule (ruleText : Option String) (own generated : Option Rule) :
    Except EditError (Option Rule) :=
  match ruleText with
  | some text => (some <$> Rule.ofText text).mapError .ruleText
  | none => .ok (own.or generated)

/-- The continuation as it will be stored, if it is a new object. -/
def prepareContinuation (s : Store) (root : ObjectId) (ruleText : Option String)
    (generated : Option Rule) (e : Entity) : Except EditError Entity := do
  if e.id ∈ s.chainIds root then throw .closesCycle
  if s.entities.contains e.id then throw (.alreadyExists e.id)
  return e.withRule (← continuationRule ruleText e.rule generated)

/-- The store with the rule of an object replaced. A split at the first candidate leaves no rule to
put in place; then the boundary that the link sets keeps the object empty. -/
def truncate (s : Store) (id : ObjectId) (root : Entity) : Option Rule → Store
  | some rule => { s with entities := s.entities.insert id (root.withRule (some rule)) }
  | none => s

/-- The store after an edit from an occurrence on, and the link that records it. -/
def applyBulkEdit (s : Store) (id : ObjectId) (edit : BulkEdit) :
    Except EditError (Store × Link) := do
  let (root, rule) ← s.recurring id
  s.checkUncontinued id
  let split ← (rule.splitAt root.start edit.splitDate).mapError .split
  let continuation ← edit.continuation.mapM
    (s.prepareContinuation id edit.ruleText split.continuation)
  let link : Link :=
    { root := id, continuation := continuation.map Entity.id, splitDate := edit.splitDate }
  let truncated := s.truncate id root split.truncated
  return ((continuation.elim truncated truncated.insert).insertLink link, link)

end Store

end Recurrence
