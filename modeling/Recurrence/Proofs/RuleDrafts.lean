import Mathlib.Data.List.Pairwise
import Mathlib.Data.Option.Basic
import Recurrence.Proofs.CheckedSteps
import Recurrence.Proofs.TextLaws
import Recurrence.Rule.Text

set_option autoImplicit false
set_option relaxedAutoImplicit false

/-!
Rule text, part by part. A text is read in two rounds, first for the frequency and then for the
other parts, but as far as the outcome goes one round does: each part changes what has been made of
the rule so far, or makes the text fail. A part only changes what its key stands for, so parts with
different keys may change places.
-/

namespace Recurrence

open Recurrence.Text

theorem RulePart.key_of_ofKey? {key : String} {part : RulePart}
    (h : RulePart.ofKey? key = some part) : part.key = key := by
  unfold RulePart.ofKey? at h
  simpa using List.find?_some h

namespace Rule

def withPart (r : Rule) (part : RulePart) (other : Rule) : Rule :=
  match part with
  | .interval => { r with interval := other.interval }
  | .count => { r with count := other.count }
  | .ends => { r with ends := other.ends }
  | .weekdays => { r with weekdays := other.weekdays }
  | .monthDays => { r with monthDays := other.monthDays }
  | .months => { r with months := other.months }
  | .yearDays => { r with yearDays := other.yearDays }
  | .weekNumbers => { r with weekNumbers := other.weekNumbers }
  | .hours => { r with hours := other.hours }
  | .minutes => { r with minutes := other.minutes }
  | .seconds => { r with seconds := other.seconds }
  | .weekStart => { r with weekStart := other.weekStart }

def withFrequency (r : Rule) (f : Frequency) : Rule := { r with frequency := f }

private theorem withPart_comm {p q : RulePart} (h : p ≠ q) (r s t : Rule) :
    (r.withPart p s).withPart q t = (r.withPart q t).withPart p s := by
  cases p <;> cases q <;> first | exact absurd rfl h | rfl

private theorem withPart_withFrequency (r : Rule) (f : Frequency) (part : RulePart) (other : Rule) :
    (r.withFrequency f).withPart part other = (r.withPart part other).withFrequency f := by
  cases part <;> rfl

private theorem setPart_eq_map (r base : Rule) (part : RulePart) (value : List Char) :
    r.setPart part value = r.withPart part <$> base.setPart part value := by
  cases part with
  | ends => cases h : Instant.readCompact? value <;> simp only [setPart, h] <;> rfl
  | weekStart => cases h : Weekday.read? value <;> simp only [setPart, h] <;> rfl
  | interval | count | weekdays | monthDays | months | yearDays | weekNumbers | hours | minutes
    | seconds =>
    simp only [setPart, bind_pure_comp, Functor.map_map]
    rfl

private theorem setEntry_withFrequency (r : Rule) (f : Frequency) (entry : Entry) :
    (r.withFrequency f).setEntry entry = (·.withFrequency f) <$> r.setEntry entry := by
  cases entry with
  | frequency g => rfl
  | other key value =>
    cases hpart : RulePart.ofKey? key with
    | none =>
      simp only [setEntry, hpart]
      rfl
    | some part =>
      simp only [setEntry, hpart]
      let base : Rule := { frequency := f }
      rw [setPart_eq_map (r.withFrequency f) base, setPart_eq_map r base, Functor.map_map]
      congr
      funext other
      exact withPart_withFrequency r f part other

private theorem foldlM_withFrequency (entries : List Entry) (r : Rule) (f : Frequency) :
    entries.foldlM setEntry (r.withFrequency f) =
      (·.withFrequency f) <$> entries.foldlM setEntry r := by
  induction entries generalizing r with
  | nil => rfl
  | cons entry entries ih =>
    rw [List.foldlM_cons, List.foldlM_cons, setEntry_withFrequency]
    cases r.setEntry entry with
    | error e => rfl
    | ok s => exact ih s

def Entry.key : Entry → String
  | .frequency _ => "FREQ"
  | .other key _ => key

def Entry.latest (entry : Entry) (found : Option Frequency) : Option Frequency :=
  match entry with
  | .frequency f => some f
  | .other _ _ => found

private theorem lastFrequency?_eq_foldl (entries : List Entry) :
    lastFrequency? entries = entries.foldl (fun found entry => entry.latest found) none := rfl

private theorem setEntry_comm {e e' : Entry} (h : e.key ≠ e'.key) (r : Rule) :
    (r.setEntry e).toOption.bind (fun s => (s.setEntry e').toOption) =
      (r.setEntry e').toOption.bind fun s => (s.setEntry e).toOption := by
  cases e with
  | frequency f => exact (Option.bind_fun_some _).symm
  | other key value =>
    cases e' with
    | frequency f => exact Option.bind_fun_some _
    | other key' value' =>
      cases hpart : RulePart.ofKey? key with
      | none => simp [setEntry, hpart, Except.toOption]
      | some part =>
        cases hpart' : RulePart.ofKey? key' with
        | none => simp [setEntry, hpart', Except.toOption]
        | some part' =>
          have hne : part ≠ part' := by
            rintro rfl
            exact h ((RulePart.key_of_ofKey? hpart).symm.trans (RulePart.key_of_ofKey? hpart'))
          have hset : ∀ s : Rule, (s.setEntry (.other key value)).toOption =
              (r.setPart part value).toOption.map (s.withPart part) := by
            intro s
            simp only [setEntry, hpart]
            rw [setPart_eq_map s r, toOption_map]
          have hset' : ∀ s : Rule, (s.setEntry (.other key' value')).toOption =
              (r.setPart part' value').toOption.map (s.withPart part') := by
            intro s
            simp only [setEntry, hpart']
            rw [setPart_eq_map s r, toOption_map]
          simp only [hset, hset']
          cases (r.setPart part value).toOption with
          | none => simp
          | some s =>
            cases (r.setPart part' value').toOption with
            | none => simp
            | some t => exact congrArg some (withPart_comm hne r s t)

/-- What has been made of a rule: the frequency, once a part has given it, and all the rest. -/
structure Draft where
  frequency : Option Frequency
  rest : Rule

namespace Draft

def start : Draft := ⟨none, { frequency := .daily }⟩

def rule? (d : Draft) : Option Rule := d.frequency.map d.rest.withFrequency

def add? (d : Draft) (entry : Entry) : Option Draft :=
  (d.rest.setEntry entry).toOption.map fun r => ⟨entry.latest d.frequency, r⟩

private theorem add?_add? (d : Draft) (e e' : Entry) : (d.add? e).bind (·.add? e') =
    ((d.rest.setEntry e).toOption.bind fun r => (r.setEntry e').toOption).map
      (Draft.mk (e'.latest (e.latest d.frequency))) := by
  unfold add?
  cases (d.rest.setEntry e).toOption <;> rfl

private theorem add?_comm {e e' : Entry} (h : e.key ≠ e'.key) (d : Draft) :
    (d.add? e).bind (·.add? e') = (d.add? e').bind (·.add? e) := by
  have hlatest : e'.latest (e.latest d.frequency) = e.latest (e'.latest d.frequency) := by
    cases e with
    | frequency f =>
      cases e' with
      | frequency f' => exact absurd rfl h
      | other key' value' => rfl
    | other key value => rfl
  rw [add?_add?, add?_add?, setEntry_comm h, hlatest]

end Draft

/-- What a part does to a draft; a blank part does nothing. -/
def effect (part : List Char) (d : Draft) : Option Draft :=
  if trim part = [] then some d else (readEntry part).toOption.bind d.add?

def drafted (d : Option Draft) (parts : List (List Char)) : Option Draft :=
  parts.foldl (fun d part => d.bind (effect part)) d

private theorem drafted_eq_bind (d : Option Draft) (parts : List (List Char)) :
    drafted d parts = d.bind fun d => drafted (some d) parts := by
  cases d with
  | some d => rfl
  | none =>
    induction parts with
    | nil => rfl
    | cons part parts ih => exact ih

private theorem drafted_cons (d : Draft) (part : List Char) (parts : List (List Char)) :
    drafted (some d) (part :: parts) = (effect part d).bind fun d => drafted (some d) parts :=
  drafted_eq_bind (effect part d) parts

/-- Adding the parts one after another comes to the same as reading them all and setting the entries
afterwards. -/
private theorem drafted_eq (parts : List (List Char)) (d : Draft) : drafted (some d) parts =
    ((parts.filter fun part => trim part ≠ []).mapM readEntry).toOption.bind fun entries =>
      (entries.foldlM setEntry d.rest).toOption.map fun r =>
        ⟨entries.foldl (fun found entry => entry.latest found) d.frequency, r⟩ := by
  induction parts generalizing d with
  | nil => rfl
  | cons part parts ih =>
    rw [drafted_cons]
    by_cases hblank : trim part = []
    · rw [effect, if_pos hblank, List.filter_cons_of_neg (by simp [hblank])]
      exact ih d
    · rw [effect, if_neg hblank, List.filter_cons_of_pos (by simp [hblank]), List.mapM_cons]
      simp only [toOption_bind, Option.bind_assoc, ih]
      congr
      funext entry
      -- All has to go well, so it may be asked first whether the later parts can be read.
      rw [Option.bind_comm]
      congr
      funext entries
      change _ = ((entry :: entries).foldlM setEntry d.rest).toOption.map _
      rw [Draft.add?, Option.bind_map, List.foldlM_cons, toOption_bind, Option.map_bind]
      rfl

theorem toOption_readParts (parts : List (List Char)) :
    (readParts parts).toOption = (drafted (some .start) parts).bind Draft.rule? := by
  unfold readParts
  rw [drafted_eq, toOption_bind, Option.bind_assoc]
  congr
  funext entries
  rw [lastFrequency?_eq_foldl, Option.bind_map]
  cases hlast : entries.foldl (fun found entry => entry.latest found) none with
  | none =>
    have hnone : (Draft.rule? ∘ fun r => ⟨none, r⟩) = fun _ => none := rfl
    rw [Draft.start, hlast, hnone, Option.bind_fun_none]
    rfl
  | some f =>
    have hfold := congrArg Except.toOption (foldlM_withFrequency entries Draft.start.rest f)
    rw [toOption_map, Option.map_eq_bind] at hfold
    rw [Draft.start, hlast]
    exact hfold

def key? (part : List Char) : Option String :=
  (cut? '=' part).map fun (key, _) => keyword key

private theorem key?_of_readEntry {part : List Char} {entry : Entry}
    (h : readEntry part = .ok entry) : key? part = some entry.key := by
  unfold readEntry at h
  unfold key?
  cases hcut : cut? '=' part with
  | none =>
    rw [hcut] at h
    cases h
  | some pair =>
    obtain ⟨key, value⟩ := pair
    simp only [hcut] at h
    split at h
    · rename_i hkey
      split at h
      · cases h
        exact congrArg some hkey
      · cases h
    · cases h
      rfl

def KeysDiffer (p q : List Char) : Prop := ∀ key, key? p = some key → key? q ≠ some key

instance : Std.Symm KeysDiffer where
  symm _ _ h key hq hp := h key hp hq

theorem keysDiffer_of_nodup {parts : List (List Char)} (h : (parts.filterMap key?).Nodup) :
    ∀ ⦃p⦄, p ∈ parts → ∀ ⦃q⦄, q ∈ parts → p ≠ q → KeysDiffer p q := by
  have hpairs : parts.Pairwise KeysDiffer :=
    (List.pairwise_filterMap.1 h).imp fun hne key hp hq => hne key hp key hq rfl
  exact hpairs.forall

theorem effect_comm {p q : List Char} (h : KeysDiffer p q) (d : Draft) :
    (effect p d).bind (effect q) = (effect q d).bind (effect p) := by
  by_cases hp : trim p = []
  · have hsame : ∀ d, effect p d = some d := fun d => if_pos hp
    simp [hsame]
  by_cases hq : trim q = []
  · have hsame : ∀ d, effect q d = some d := fun d => if_pos hq
    simp [hsame]
  have hread : effect p = fun d => (readEntry p).toOption.bind d.add? := funext fun d => if_neg hp
  have hread' : effect q = fun d => (readEntry q).toOption.bind d.add? := funext fun d => if_neg hq
  rw [hread, hread']
  cases he : readEntry p with
  | error e => simp [Except.toOption]
  | ok e =>
    cases he' : readEntry q with
    | error e' => simp [Except.toOption]
    | ok e' =>
      have hkeys : e.key ≠ e'.key := by
        intro hsame
        apply h e.key (key?_of_readEntry he)
        rw [key?_of_readEntry he', hsame]
      exact Draft.add?_comm hkeys d

end Rule

end Recurrence
