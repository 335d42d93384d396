set_option autoImplicit false
set_option relaxedAutoImplicit false

/-!
Finite maps, held as lists of entries in which no key stands twice. What a table says is the value
that `find?` gives for each key; the order of the entries is only that of their making.
-/

namespace Recurrence

universe u v

/-- A finite map from keys to values. -/
structure Table (κ : Type u) (α : Type v) where
  entries : List (κ × α)
  keys_nodup : (entries.map Prod.fst).Nodup

namespace Table

variable {κ : Type u} {α : Type v}

def empty : Table κ α := ⟨[], List.nodup_nil⟩

instance : EmptyCollection (Table κ α) := ⟨empty⟩

instance : Inhabited (Table κ α) := ⟨empty⟩

def keys (t : Table κ α) : List κ := t.entries.map Prod.fst

def values (t : Table κ α) : List α := t.entries.map Prod.snd

variable [DecidableEq κ]

def find? (t : Table κ α) (key : κ) : Option α :=
  (t.entries.find? fun e => e.1 = key).map Prod.snd

def contains (t : Table κ α) (key : κ) : Bool := (t.find? key).isSome

/-- The map without a value for the key. -/
def erase (t : Table κ α) (key : κ) : Table κ α where
  entries := t.entries.filter fun e => e.1 ≠ key
  keys_nodup := t.keys_nodup.sublist (List.filter_sublist.map Prod.fst)

/-- The map with the given value for the key, in place of any other. -/
def insert (t : Table κ α) (key : κ) (value : α) : Table κ α where
  entries := (key, value) :: (t.erase key).entries
  keys_nodup := by
    refine List.nodup_cons.2 ⟨?_, (t.erase key).keys_nodup⟩
    simp [erase]

/-- The map of a list of entries; of two entries with one key the later one holds. -/
def ofList (entries : List (κ × α)) : Table κ α :=
  entries.foldl (fun t e => t.insert e.1 e.2) empty

@[simp] theorem find?_empty (key : κ) : (empty : Table κ α).find? key = none := rfl

@[simp] theorem find?_insert_self (t : Table κ α) (key : κ) (value : α) :
    (t.insert key value).find? key = some value := by
  simp [insert, find?]

theorem find?_erase (t : Table κ α) (key other : κ) :
    (t.erase key).find? other = if other = key then none else t.find? other := by
  unfold find? erase
  rw [List.find?_filter]
  by_cases h : other = key
  · subst h
    simp [List.find?_eq_none]
  · simp only [h, if_false]
    congr 2
    funext e
    by_cases he : e.1 = other <;> simp [he, h]

theorem find?_insert (t : Table κ α) (key other : κ) (value : α) :
    (t.insert key value).find? other = if other = key then some value else t.find? other := by
  by_cases h : other = key
  · subst h
    simp
  · have step : (t.insert key value).find? other = (t.erase key).find? other := by
      simp [insert, find?, Ne.symm h]
    rw [step, find?_erase]
    simp [h]

theorem mem_keys_iff {t : Table κ α} {key : κ} : key ∈ t.keys ↔ ∃ value, t.find? key = some value := by
  unfold keys find?
  constructor
  · intro h
    obtain ⟨e, he, rfl⟩ := List.mem_map.1 h
    cases found : t.entries.find? fun x => x.1 = e.1 with
    | none => simpa using List.find?_eq_none.1 found e he
    | some x => exact ⟨x.2, by simp⟩
  · rintro ⟨value, h⟩
    obtain ⟨e, he, rfl⟩ := Option.map_eq_some_iff.1 h
    refine List.mem_map.2 ⟨e, List.mem_of_find?_eq_some he, ?_⟩
    simpa using List.find?_some he

end Table

end Recurrence
