import Recurrence.Chain
import Recurrence.Entity
import Recurrence.Split

set_option autoImplicit false
set_option relaxedAutoImplicit false

/-!
The store of objects, their exceptions, and the links that continue one object as another; and the
edits of single objects and exceptions.
-/

namespace Recurrence

/-- The record that an object was split: it goes on as another object, or not at all. -/
structure Link where
  root : ObjectId
  continuation : Option ObjectId
  splitDate : Instant
  deriving DecidableEq, Repr

/-- Objects by their ids, with the exceptions and the link of each. -/
structure Store where
  entities : Table ObjectId Entity
  exceptions : Table ObjectId ExceptionTable
  links : Table ObjectId Link

/-- Why an edit was refused. -/
inductive EditError
  | notFound (id : ObjectId)
  | notRecurring (id : ObjectId)
  | alreadyContinues (root continuation : ObjectId)
  /-- The continuation is an object of the chain that it would continue. -/
  | closesCycle
  | alreadyExists (id : ObjectId)
  | split (error : SplitError)
  | ruleText (error : RuleTextError)

namespace EditError

/-- The message for a refused edit; arithmetic that leaves the calendar has none. -/
def message? : EditError → Option String
  | notFound id => some ("Not found: Object " ++ id.text)
  | notRecurring id => some ("Object " ++ id.text ++ " is not recurring")
  | alreadyContinues root continuation =>
    some ("Conflict: Object " ++ root.text ++ " already continues as " ++ continuation.text)
  | closesCycle =>
    some "Invariant violation: bulk modification continuation would close a cycle"
  | alreadyExists id => some ("Conflict: Object " ++ id.text ++ " already exists")
  | split error => error.message?
  | ruleText error => some error.message

end EditError

namespace Store

def empty : Store := ⟨∅, ∅, ∅⟩

/-- The store with an object added, in place of any other of the same id. -/
def insert (s : Store) (e : Entity) : Store := { s with entities := s.entities.insert e.id e }

def entity? (s : Store) (id : ObjectId) : Option Entity := s.entities.find? id

def exceptionsOf (s : Store) (id : ObjectId) : ExceptionTable := (s.exceptions.find? id).getD ∅

def link? (s : Store) (id : ObjectId) : Option Link := s.links.find? id

/-- The store with a link recorded as it is. -/
def insertLink (s : Store) (link : Link) : Store :=
  { s with links := s.links.insert link.root link }

/-- The object with an id, which has to recur, and its rule. -/
def recurring (s : Store) (id : ObjectId) : Except EditError (Entity × Rule) :=
  match s.entity? id with
  | none => .error (.notFound id)
  | some e => match e.rule with
    | none => .error (.notRecurring id)
    | some rule => .ok (e, rule)

/-- The store with an exception recorded, and the exception that it takes the place of. -/
def upsertException (s : Store) (e : Exception) :
    Except EditError (Store × Option Exception) := do
  let _ ← s.recurring e.parent
  let table := s.exceptionsOf e.parent
  return ({ s with exceptions := s.exceptions.insert e.parent (table.record e) },
    table.exceptionTo? e.date)

/-- The store without the exception in the second of a date, and that exception. -/
def removeException (s : Store) (parent : ObjectId) (date : Instant) : Store × Option Exception :=
  match s.exceptions.find? parent with
  | none => (s, none)
  | some table =>
    ({ s with exceptions := s.exceptions.insert parent (table.erase date.truncate) },
      table.exceptionTo? date)

/-- The id of the object that an object's link leads to. -/
def continuation? (s : Store) (id : ObjectId) : Option ObjectId :=
  (s.link? id).bind Link.continuation

/-- The ids of the objects of a chain, from the root on, as far as they exist. -/
def chainIds (s : Store) (root : ObjectId) : List ObjectId :=
  trail s.continuation? s.entities.keys (some root)

/-- The store without an object, its exceptions and its link. -/
def eraseObject (s : Store) (id : ObjectId) : Store where
  entities := s.entities.erase id
  exceptions := s.exceptions.erase id
  links := s.links.erase id

/-- The store without the objects of a chain, and their number. -/
def deleteChain (s : Store) (root : ObjectId) : Store × Nat :=
  let ids := s.chainIds root
  (ids.foldl eraseObject s, ids.length)

/-- An object as a segment of a chain. -/
def segment (s : Store) (id : ObjectId) (e : Entity) (startBoundary : Instant)
    (next : Option Nat) : Segment where
  id
  series := e.series
  duration := e.duration
  startBoundary
  endBoundary := (s.link? id).map Link.splitDate
  exceptions := s.exceptionsOf id
  next

/-- The segments from an object on, which stands at the given place. They go on along the links to
the objects that exist and are not loaded yet. -/
def segmentsFrom (s : Store) (unloaded : List ObjectId) (id : ObjectId) (e : Entity)
    (startBoundary : Instant) (place : Nat) : List Segment :=
  match (s.link? id).bind fun link => link.continuation.map fun c => (c, link.splitDate) with
  | none => [s.segment id e startBoundary none]
  | some (continuation, splitDate) =>
    if continuation ∈ unloaded then
      match s.entity? continuation with
      | some following =>
        s.segment id e startBoundary (some (place + 1)) ::
          s.segmentsFrom (unloaded.erase continuation) continuation following splitDate (place + 1)
      | none => [s.segment id e startBoundary none]
    else [s.segment id e startBoundary none]
  termination_by unloaded.length
  decreasing_by
    rename_i h
    have shorter := List.length_erase_of_mem h
    have nonempty := List.length_pos_of_mem h
    omega

/-- The chain of an object. Each segment begins where the one before it was split. -/
def chain (s : Store) (root : ObjectId) : Chain :=
  match s.entity? root with
  | some e => ⟨s.segmentsFrom (s.entities.keys.erase root) root e e.start 0⟩
  | none => .empty

end Store

end Recurrence
