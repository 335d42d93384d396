import Recurrence.Proofs.CheckedSteps
import Recurrence.Proofs.CompactInstants
import Recurrence.Rule.Text

set_option autoImplicit false
set_option relaxedAutoImplicit false

/-!
Rule text, read back. Each part of a rule that is written sets that part and nothing else when it is
read, and a part that is left out has its default value; so a rule is what its text says, except
that the text has no place for a fraction of a second in the end of the rule.
-/

namespace Recurrence

open Recurrence.Text

namespace SortedSet

universe u

variable {α : Type u} [Ranked α]

private theorem place_of_lt {a : α} {xs : List α} (h : ∀ x ∈ xs, Ranked.rank a < Ranked.rank x) :
    place a xs = a :: xs := by
  cases xs with
  | nil => rfl
  | cons x xs => rw [place, if_pos (h x List.mem_cons_self)]

private theorem ofList_elements (s : SortedSet α) : ofList s.elements = s := by
  have hlist : ∀ xs : List α, (xs.Pairwise fun a b => Ranked.rank a < Ranked.rank b) →
      (ofList xs).elements = xs := by
    intro xs hxs
    induction xs with
    | nil => rfl
    | cons x xs ih =>
      obtain ⟨hx, hrest⟩ := List.pairwise_cons.1 hxs
      change place x (ofList xs).elements = x :: xs
      rw [ih hrest, place_of_lt hx]
  have helements := hlist s.elements s.ascending
  generalize ofList s.elements = t at helements
  cases s
  cases t
  cases helements
  rfl

end SortedSet

private theorem isPlain_of_mem_key {part : RulePart} {c : Char} (hc : c ∈ part.key.toList) :
    isPlain c = true := by
  have hall : part.key.toList.all isPlain = true := by cases part <;> decide
  exact List.all_eq_true.1 hall c hc

private theorem Weekday.isPlain_of_mem_code {d : Weekday} {c : Char} (hc : c ∈ d.code.toList) :
    isPlain c = true := by
  have hall : d.code.toList.all isPlain = true := by cases d <;> decide
  exact List.all_eq_true.1 hall c hc

private theorem Frequency.isPlain_of_mem_code {f : Frequency} {c : Char} (hc : c ∈ f.code.toList) :
    isPlain c = true := by
  have hall : f.code.toList.all isPlain = true := by cases f <;> decide
  exact List.all_eq_true.1 hall c hc

private theorem Weekday.read?_code (d : Weekday) : Weekday.read? d.code.toList = some d := by
  unfold Weekday.read?
  rw [upper_trim_of_plain fun c => Weekday.isPlain_of_mem_code]
  cases d <;> rfl

private theorem Frequency.read?_code (f : Frequency) : Frequency.read? f.code.toList = some f := by
  unfold Frequency.read?
  rw [upper_trim_of_plain fun c => Frequency.isPlain_of_mem_code]
  cases f <;> rfl

private theorem RulePart.ofKey?_key (part : RulePart) : RulePart.ofKey? part.key = some part := by
  cases part <;> rfl

private theorem RulePart.mem_all (part : RulePart) : part ∈ RulePart.all := by
  cases part <;> decide

namespace Rule

variable {r : Rule} {low high : Int}

private theorem mapM_map_eq_ok {ε α β : Type} {f : α → β} {g : β → Except ε α} (xs : List α)
    (h : ∀ a, g (f a) = .ok a) : (xs.map f).mapM g = .ok xs := by
  induction xs with
  | nil => rfl
  | cons x xs ih =>
    rw [List.map_cons, List.mapM_cons, h x, ih]
    rfl

private theorem readNumber_ofInt (part : RulePart) (n : BoundedInt low high) :
    readNumber part (ofInt n.val) = .ok n := by
  unfold readNumber
  rw [trim_eq_self fun c hc => isBlank_of_isPlain (isPlain_of_mem_ofInt hc),
    BoundedInt.read?_ofInt]

private theorem readWeekday_code (d : Weekday) : readWeekday d.code.toList = .ok d := by
  unfold readWeekday
  rw [Weekday.read?_code]

private theorem unlessEmpty_eq_some {α : Type} [Ranked α] {s : SortedSet α} {text value : List Char}
    (h : unlessEmpty s text = some value) : value = text ∧ s.elements ≠ [] := by
  unfold unlessEmpty SortedSet.isEmpty at h
  split at h
  · cases h
  · rename_i hfull
    cases h
    exact ⟨rfl, fun hnil => hfull (by rw [hnil]; rfl)⟩

private theorem eq_empty_of_unlessEmpty {α : Type} [Ranked α] {s : SortedSet α} {text : List Char}
    (h : unlessEmpty s text = none) : s = ∅ := by
  unfold unlessEmpty at h
  split at h
  · exact SortedSet.isEmpty_iff.1 (by assumption)
  · cases h

section Lists

variable {ε α : Type} {write : α → List Char} {xs : List α}

private theorem mapM_fields_join {read : List Char → Except ε α}
    (hplain : ∀ a, ∀ c ∈ write a, isPlain c = true) (hread : ∀ a, read (write a) = .ok a)
    (hfull : xs ≠ []) : (fields ',' (join [','] (xs.map write))).mapM read = .ok xs := by
  have hfields : fields ',' (join [','] (xs.map write)) = xs.map write := by
    refine fields_join (by simpa using hfull) fun item hitem hcomma => ?_
    obtain ⟨a, -, rfl⟩ := List.mem_map.1 hitem
    exact absurd (hplain a ',' hcomma) (by decide)
  rw [hfields, mapM_map_eq_ok xs hread]

private theorem isPlain_or_comma_of_mem_join (hplain : ∀ a, ∀ c ∈ write a, isPlain c = true)
    {c : Char} (hc : c ∈ join [','] (xs.map write)) : isPlain c = true ∨ c = ',' := by
  rcases mem_join hc with hcomma | ⟨item, hitem, hc⟩
  · exact Or.inr hcomma
  · obtain ⟨a, -, rfl⟩ := List.mem_map.1 hitem
    exact Or.inl (hplain a c hc)

end Lists

private theorem readNumbers_numbersText (part : RulePart) {s : SortedSet (BoundedInt low high)}
    {value : List Char} (h : unlessEmpty s (numbersText s) = some value) :
    readNumbers part value = .ok s := by
  obtain ⟨rfl, hfull⟩ := unlessEmpty_eq_some h
  unfold readNumbers numbersText
  rw [mapM_fields_join (fun n c => isPlain_of_mem_ofInt) (readNumber_ofInt part) hfull]
  exact congrArg Except.ok (SortedSet.ofList_elements s)

private theorem readWeekdays_codes {s : SortedSet Weekday} {value : List Char}
    (h : unlessEmpty s (join [','] (s.elements.map (·.code.toList))) = some value) :
    readWeekdays value = .ok s := by
  obtain ⟨rfl, hfull⟩ := unlessEmpty_eq_some h
  unfold readWeekdays
  rw [mapM_fields_join (fun d c => Weekday.isPlain_of_mem_code) readWeekday_code hfull]
  exact congrArg Except.ok (SortedSet.ofList_elements s)

private theorem eq_of_partText?_interval {value : List Char}
    (h : r.partText? .interval = some value) : value = ofInt r.interval.val := by
  simp only [partText?] at h
  split at h
  · cases h
  · exact (Option.some.inj h).symm

private theorem eq_of_partText?_weekStart {value : List Char}
    (h : r.partText? .weekStart = some value) : value = r.weekStart.code.toList := by
  simp only [partText?] at h
  split at h
  · cases h
  · exact (Option.some.inj h).symm

/-- The rule with the defaults in place of the parts that are not kept. -/
def keeping (r : Rule) (kept : RulePart → Bool) : Rule where
  frequency := r.frequency
  interval := if kept .interval then r.interval else .one
  count := if kept .count then r.count else none
  ends := if kept .ends then r.ends else none
  weekdays := if kept .weekdays then r.weekdays else ∅
  monthDays := if kept .monthDays then r.monthDays else ∅
  months := if kept .months then r.months else ∅
  yearDays := if kept .yearDays then r.yearDays else ∅
  weekNumbers := if kept .weekNumbers then r.weekNumbers else ∅
  hours := if kept .hours then r.hours else ∅
  minutes := if kept .minutes then r.minutes else ∅
  seconds := if kept .seconds then r.seconds else ∅
  weekStart := if kept .weekStart then r.weekStart else .monday

private theorem setPart_keeping (hends : ∀ t ∈ r.ends, t.truncate = t ∧ t.PlainYear)
    (kept : RulePart → Bool) {part : RulePart} {value : List Char}
    (h : r.partText? part = some value) :
    (r.keeping kept).setPart part value = .ok (r.keeping fun p => p == part || kept p) := by
  cases part with
  | interval =>
    obtain rfl := eq_of_partText?_interval h
    simp only [setPart, readNumber_ofInt]
    rfl
  | count =>
    simp only [partText?, Option.map_eq_some_iff] at h
    obtain ⟨n, hcount, rfl⟩ := h
    simp only [setPart, readNumber_ofInt, keeping, hcount]
    rfl
  | ends =>
    simp only [partText?, Option.map_eq_some_iff] at h
    obtain ⟨t, ht, rfl⟩ := h
    obtain ⟨hwhole, hyear⟩ := hends t ht
    simp only [setPart, Instant.readCompact?_compactText hyear, hwhole, keeping, ht]
    rfl
  | weekStart =>
    obtain rfl := eq_of_partText?_weekStart h
    simp only [setPart, Weekday.read?_code]
    rfl
  | weekdays =>
    simp only [setPart, readWeekdays_codes h]
    rfl
  | monthDays | months | yearDays | weekNumbers | hours | minutes | seconds =>
    simp only [setPart, readNumbers_numbersText _ h]
    rfl

private theorem keeping_of_partText?_eq_none (kept : RulePart → Bool) {part : RulePart}
    (h : r.partText? part = none) : (r.keeping fun p => p == part || kept p) = r.keeping kept := by
  cases part with
  | interval =>
    have hdefault : r.interval = .one := by
      simp only [partText?, ite_eq_left_iff, reduceCtorEq, imp_false, not_not] at h
      cases hinterval : r.interval
      rw [hinterval] at h
      cases h
      rfl
    simp [keeping, hdefault]
  | count =>
    have hdefault : r.count = none := Option.map_eq_none_iff.1 h
    simp [keeping, hdefault]
  | ends =>
    have hdefault : r.ends = none := Option.map_eq_none_iff.1 h
    simp [keeping, hdefault]
  | weekStart =>
    have hdefault : r.weekStart = .monday := by
      simpa only [partText?, ite_eq_left_iff, reduceCtorEq, imp_false, not_not] using h
    simp [keeping, hdefault]
  | weekdays =>
    have hdefault := eq_empty_of_unlessEmpty h
    simp [keeping, hdefault]
  | monthDays | months | yearDays | weekNumbers | hours | minutes | seconds =>
    have hdefault := eq_empty_of_unlessEmpty h
    simp [keeping, hdefault]

def readable (r : Rule) (parts : List RulePart) : List Entry :=
  parts.filterMap fun part => (r.partText? part).map (Entry.other part.key)

/-- Reading the written ones of some parts puts all of these back. -/
private theorem foldlM_readable (hends : ∀ t ∈ r.ends, t.truncate = t ∧ t.PlainYear)
    (parts : List RulePart)
    (kept : RulePart → Bool) : (r.readable parts).foldlM setEntry (r.keeping kept) =
      .ok (r.keeping fun p => parts.contains p || kept p) := by
  induction parts generalizing kept with
  | nil => rfl
  | cons part parts ih =>
    have hrest := ih fun p => p == part || kept p
    have hkept : (fun p => (part :: parts).contains p || kept p) =
        fun p => parts.contains p || (p == part || kept p) := by
      funext p
      rw [List.contains_cons, Bool.or_comm (p == part), Bool.or_assoc]
    rw [hkept, ← hrest]
    unfold readable
    cases htext : r.partText? part with
    | none =>
      rw [List.filterMap_cons_none (by rw [htext]; rfl), keeping_of_partText?_eq_none kept htext]
    | some value =>
      have hset : setEntry (r.keeping kept) (.other part.key value) =
          .ok (r.keeping fun p => p == part || kept p) := by
        simp only [setEntry, RulePart.ofKey?_key]
        exact setPart_keeping hends kept htext
      rw [List.filterMap_cons_some (by rw [htext]; rfl), List.foldlM_cons, hset]
      rfl

private theorem keeping_all (r : Rule) :
    r.keeping (fun p => RulePart.all.contains p || false) = r := by
  have hall : (fun p => RulePart.all.contains p || false) = fun _ => true := by
    funext p
    simpa using RulePart.mem_all p
  rw [hall]
  rfl

private theorem lastFrequency?_readable (r : Rule) (parts : List RulePart) (f : Frequency) :
    lastFrequency? (.frequency f :: r.readable parts) = some f := by
  unfold lastFrequency? readable
  rw [List.foldl_cons]
  induction parts with
  | nil => rfl
  | cons part parts ih =>
    cases htext : r.partText? part with
    | none => rwa [List.filterMap_cons_none (by rw [htext]; rfl)]
    | some value => rwa [List.filterMap_cons_some (by rw [htext]; rfl), List.foldl_cons]

private theorem isPlain_of_mem_partText {part : RulePart} {value : List Char}
    (h : r.partText? part = some value) {c : Char} (hc : c ∈ value) :
    isPlain c = true ∨ c = ',' := by
  have hnumbers : ∀ {low high : Int} {s : SortedSet (BoundedInt low high)},
      unlessEmpty s (numbersText s) = some value → isPlain c = true ∨ c = ',' := by
    intro low high s hs
    obtain ⟨rfl, -⟩ := unlessEmpty_eq_some hs
    exact isPlain_or_comma_of_mem_join (fun n d => isPlain_of_mem_ofInt) hc
  cases part with
  | interval =>
    obtain rfl := eq_of_partText?_interval h
    exact Or.inl (isPlain_of_mem_ofInt hc)
  | count =>
    obtain ⟨n, -, rfl⟩ := Option.map_eq_some_iff.1 h
    exact Or.inl (isPlain_of_mem_ofInt hc)
  | ends =>
    obtain ⟨t, -, rfl⟩ := Option.map_eq_some_iff.1 h
    exact Or.inl (Instant.isPlain_of_mem_compactText hc)
  | weekStart =>
    obtain rfl := eq_of_partText?_weekStart h
    exact Or.inl (Weekday.isPlain_of_mem_code hc)
  | weekdays =>
    obtain ⟨rfl, -⟩ := unlessEmpty_eq_some h
    exact isPlain_or_comma_of_mem_join (fun d e => Weekday.isPlain_of_mem_code) hc
  | monthDays | months | yearDays | weekNumbers | hours | minutes | seconds => exact hnumbers h

/-- A character of rule text that the text is not cut or trimmed at. -/
def IsInked (c : Char) : Prop := isBlank c = false ∧ c ≠ ';'

private theorem IsInked.of_isPlain {c : Char} (hc : isPlain c = true) : IsInked c := by
  refine ⟨isBlank_of_isPlain hc, ?_⟩
  rintro rfl
  exact absurd hc (by decide)

private theorem isInked_of_mem_entryText {key : String} {value : List Char}
    (hkey : ∀ c ∈ key.toList, isPlain c = true) (hvalue : ∀ c ∈ value, isPlain c = true ∨ c = ',')
    {c : Char} (hc : c ∈ entryText key value) : IsInked c := by
  rcases List.mem_append.1 hc with hc | hc
  · exact IsInked.of_isPlain (hkey c hc)
  · rcases List.mem_cons.1 hc with rfl | hc
    · exact ⟨by decide, by decide⟩
    · rcases hvalue c hc with hplain | rfl
      · exact IsInked.of_isPlain hplain
      · exact ⟨by decide, by decide⟩

private theorem isPlain_of_mem_frequencyKey : ∀ c ∈ "FREQ".toList, isPlain c = true :=
  List.all_eq_true.1 (by decide)

private theorem isInked_of_mem_entries {entry : List Char} (hentry : entry ∈ r.entries) {c : Char}
    (hc : c ∈ entry) : IsInked c := by
  rcases List.mem_cons.1 hentry with rfl | hentry
  · exact isInked_of_mem_entryText isPlain_of_mem_frequencyKey
      (fun d hd => Or.inl (Frequency.isPlain_of_mem_code hd)) hc
  · obtain ⟨part, -, hpart⟩ := List.mem_filterMap.1 hentry
    obtain ⟨value, hvalue, rfl⟩ := Option.map_eq_some_iff.1 hpart
    exact isInked_of_mem_entryText (fun d => isPlain_of_mem_key)
      (fun d => isPlain_of_mem_partText hvalue) hc

private theorem isBlank_of_mem_entries {entry : List Char} (hentry : entry ∈ r.entries) {c : Char}
    (hc : c ∈ entry) : isBlank c = false :=
  (isInked_of_mem_entries hentry hc).1

private theorem ne_nil_of_mem_entries {entry : List Char} (hentry : entry ∈ r.entries) :
    entry ≠ [] := by
  rcases List.mem_cons.1 hentry with rfl | hentry
  · exact List.append_ne_nil_of_right_ne_nil _ (List.cons_ne_nil _ _)
  · obtain ⟨part, -, hpart⟩ := List.mem_filterMap.1 hentry
    obtain ⟨value, -, rfl⟩ := Option.map_eq_some_iff.1 hpart
    exact List.append_ne_nil_of_right_ne_nil _ (List.cons_ne_nil _ _)

private theorem cut?_entryText {key : String} (hkey : ∀ c ∈ key.toList, isPlain c = true)
    (value : List Char) : cut? '=' (entryText key value) = some (key.toList, value) := by
  refine cut?_append_cons ?_ value
  intro hmem
  exact absurd (hkey '=' hmem) (by decide)

private theorem readEntry_frequency (f : Frequency) :
    readEntry (entryText "FREQ" f.code.toList) = .ok (.frequency f) := by
  unfold readEntry
  simp only [cut?_entryText isPlain_of_mem_frequencyKey,
    upper_trim_of_plain isPlain_of_mem_frequencyKey, Frequency.read?_code, if_true]

private theorem readEntry_part {part : RulePart} {value : List Char}
    (h : r.partText? part = some value) :
    readEntry (entryText part.key value) = .ok (.other part.key value) := by
  have hvalue : trim value = value := by
    refine trim_eq_self fun c hc => ?_
    rcases isPlain_of_mem_partText h hc with hplain | rfl
    · exact isBlank_of_isPlain hplain
    · decide
  have hother : part.key ≠ "FREQ" := by cases part <;> decide
  unfold readEntry
  simp only [cut?_entryText fun c => isPlain_of_mem_key,
    upper_trim_of_plain fun c => isPlain_of_mem_key, hvalue, if_neg hother]

private theorem mapM_readEntry (r : Rule) (parts : List RulePart) :
    (parts.filterMap fun part => (r.partText? part).map (entryText part.key)).mapM readEntry =
      .ok (r.readable parts) := by
  unfold readable
  induction parts with
  | nil => rfl
  | cons part parts ih =>
    cases htext : r.partText? part with
    | none =>
      rw [List.filterMap_cons_none (by rw [htext]; rfl),
        List.filterMap_cons_none (by rw [htext]; rfl)]
      exact ih
    | some value =>
      rw [List.filterMap_cons_some (by rw [htext]; rfl),
        List.filterMap_cons_some (by rw [htext]; rfl), List.mapM_cons, readEntry_part htext, ih]
      rfl

private theorem readParts_entries (hends : ∀ t ∈ r.ends, t.truncate = t ∧ t.PlainYear) :
    readParts r.entries = .ok r := by
  have hfilter : r.entries.filter (fun part => trim part ≠ []) = r.entries := by
    refine List.filter_eq_self.2 fun entry hentry => ?_
    rw [trim_eq_self fun c => isBlank_of_mem_entries hentry]
    simpa using ne_nil_of_mem_entries hentry
  have hread : r.entries.mapM readEntry =
      .ok (.frequency r.frequency :: r.readable RulePart.all) := by
    unfold entries
    rw [List.mapM_cons, readEntry_frequency, mapM_readEntry]
    rfl
  have hfold := foldlM_readable hends RulePart.all fun _ => false
  rw [keeping_all] at hfold
  unfold readParts
  rw [hfilter, hread]
  simp only [bind, Except.bind, lastFrequency?_readable]
  exact hfold

private theorem exists_text_eq_cons (r : Rule) : ∃ rest, r.text.toList = 'F' :: rest := by
  unfold text entries join
  rw [String.toList_ofList]
  cases RulePart.all.filterMap fun part => (r.partText? part).map (entryText part.key) with
  | nil => exact ⟨_, List.append_nil _⟩
  | cons entry later =>
    rw [List.intercalate_cons_cons]
    exact ⟨_, rfl⟩

private theorem isBlank_of_mem_text {c : Char} (hc : c ∈ r.text.toList) : isBlank c = false := by
  unfold text at hc
  rw [String.toList_ofList] at hc
  rcases mem_join hc with rfl | ⟨entry, hentry, hc⟩
  · decide
  · exact isBlank_of_mem_entries hentry hc

def label (labelled : Bool) : String := if labelled then "RRULE:" else ""

theorem isBlank_of_mem_label (labelled : Bool) :
    ∀ c ∈ (label labelled).toList, isBlank c = false := by
  have hall : (label labelled).toList.all (fun c => !isBlank c) = true := by
    cases labelled <;> decide
  simpa using List.all_eq_true.1 hall

private theorem withoutLabel_text (r : Rule) (labelled : Bool) :
    withoutLabel ((label labelled).toList ++ r.text.toList) = r.text.toList := by
  unfold withoutLabel label
  cases labelled with
  | true =>
    rw [if_pos rfl, after?_append]
    rfl
  | false =>
    obtain ⟨rest, hrest⟩ := exists_text_eq_cons r
    rw [hrest]
    rfl

private theorem read_text (hends : ∀ t ∈ r.ends, t.truncate = t ∧ t.PlainYear) (labelled : Bool)
    {front back : List Char} (hfront : ∀ c ∈ front, isBlank c = true)
    (hback : ∀ c ∈ back, isBlank c = true) :
    read (front ++ ((label labelled).toList ++ r.text.toList) ++ back) = .ok r := by
  have hink : ∀ c ∈ (label labelled).toList ++ r.text.toList, isBlank c = false := by
    intro c hc
    rcases List.mem_append.1 hc with hc | hc
    · exact isBlank_of_mem_label labelled c hc
    · exact isBlank_of_mem_text hc
  have hfields : fields ';' r.text.toList = r.entries := by
    unfold text
    rw [String.toList_ofList]
    refine fields_join (List.cons_ne_nil _ _) fun entry hentry hmem => ?_
    exact (isInked_of_mem_entries hentry hmem).2 rfl
  unfold read
  rw [trim_of_surrounded hfront hback hink, withoutLabel_text, hfields, readParts_entries hends]

/-- The text of a rule, with or without a label and with any white space around it, is read as the
rule. -/
theorem ofText_text (r : Rule) (hends : ∀ t ∈ r.ends, t.truncate = t ∧ t.PlainYear)
    (labelled : Bool) (front back : String) (hfront : ∀ c ∈ front.toList, isBlank c = true)
    (hback : ∀ c ∈ back.toList, isBlank c = true) :
    ofText (front ++ label labelled ++ r.text ++ back) = .ok r := by
  unfold ofText
  rw [String.toList_append, String.toList_append, String.toList_append,
    List.append_assoc front.toList]
  exact read_text hends labelled hfront hback

/-- A rule that ends in the leap second of 2016, with values that make no sense. -/
def leapEnd : Rule where
  frequency := .monthly
  interval := ⟨0, by decide, by decide⟩
  count := some ⟨0, by decide, by decide⟩
  ends := some ⟨Calendar.day 2016 12 31, (TimeOfDay.ofSecond? 86399 1000000000).getD .midnight⟩
  monthDays := .ofList [⟨-1, by decide, by decide⟩, ⟨0, by decide, by decide⟩]
  hours := .ofList [⟨255, by decide, by decide⟩]
  weekStart := .sunday

theorem ofText_leapEnd : (∀ t ∈ leapEnd.ends, t.truncate = t ∧ t.PlainYear) ∧
    (∀ c ∈ " ".toList, isBlank c = true) ∧ (∀ c ∈ "\n".toList, isBlank c = true) ∧
    ofText (" " ++ label true ++ leapEnd.text ++ "\n") = .ok leapEnd := by
  have hends : ∀ t ∈ leapEnd.ends, t.truncate = t ∧ t.PlainYear := by
    intro t ht
    cases ht
    exact ⟨by decide, by decide, by decide⟩
  have hspace : ∀ c ∈ " ".toList, isBlank c = true := List.all_eq_true.1 (by decide)
  have hline : ∀ c ∈ "\n".toList, isBlank c = true := List.all_eq_true.1 (by decide)
  exact ⟨hends, hspace, hline, ofText_text leapEnd hends true " " "\n" hspace hline⟩

example : leapEnd.text =
    "FREQ=MONTHLY;INTERVAL=0;COUNT=0;UNTIL=20161231T235960Z;BYMONTHDAY=-1,0;BYHOUR=255;WKST=SU" := by
  decide +kernel

def wholeEnd (r : Rule) : Rule := { r with ends := r.ends.map Instant.truncate }

private theorem text_wholeEnd (r : Rule) : r.wholeEnd.text = r.text := by
  have hparts : r.wholeEnd.partText? = r.partText? := by
    funext part
    cases part with
    | ends =>
      simp only [partText?, wholeEnd, Option.map_map]
      congr 1
      funext t
      exact t.compactText_truncate
    | interval | count | weekdays | monthDays | months | yearDays | weekNumbers | hours | minutes
      | seconds | weekStart => rfl
  unfold text entries
  rw [hparts]
  rfl

/-- Reading the text of a rule loses the fraction of a second in its end, and nothing else. -/
theorem ofText_text_eq_wholeEnd (hends : ∀ t ∈ r.ends, t.PlainYear) :
    ofText r.text = .ok r.wholeEnd := by
  have hwhole : ∀ t ∈ r.wholeEnd.ends, t.truncate = t ∧ t.PlainYear := by
    intro t ht
    obtain ⟨u, hu, rfl⟩ := Option.map_eq_some_iff.1 ht
    exact ⟨u.truncate_truncate, (hends u hu).from_zero, (hends u hu).to_last⟩
  have hnone : ∀ c ∈ ([] : List Char), isBlank c = true := nofun
  have hread := read_text hwhole false hnone hnone
  rw [text_wholeEnd] at hread
  simpa [ofText, label] using hread

end Rule

end Recurrence
