set_option autoImplicit false
set_option relaxedAutoImplicit false

/-!
Text cut at a separator. Joining the fields again gives the text back.
-/

namespace Recurrence.Text

/-- The stretches of text between the separators; always at least one, maybe empty. -/
def fields (separator : Char) : List Char → List (List Char)
  | [] => [[]]
  | c :: rest =>
    if c = separator then [] :: fields separator rest
    else match fields separator rest with
      | [] => [[c]]
      | field :: later => (c :: field) :: later

/-- The text before and after the first separator, if there is one. -/
def cut? (separator : Char) : List Char → Option (List Char × List Char)
  | [] => none
  | c :: rest =>
    if c = separator then some ([], rest)
    else (cut? separator rest).map fun (front, back) => (c :: front, back)

/-- The fields in one text, with the separator between them. -/
def join (separator : List Char) (parts : List (List Char)) : List Char :=
  List.intercalate separator parts

/-- The rest of the text after `front`, if the text begins with it. -/
def after? : List Char → List Char → Option (List Char)
  | [], text => some text
  | _ :: _, [] => none
  | c :: front, d :: text => if c = d then after? front text else none

theorem fields_ne_nil (separator : Char) (text : List Char) : fields separator text ≠ [] := by
  cases text with
  | nil => simp [fields]
  | cons c rest =>
    unfold fields
    split
    · simp
    · split <;> simp

end Recurrence.Text
