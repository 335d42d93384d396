import Mathlib.Data.List.Perm.Basic
import Recurrence.Proofs.RuleDrafts
import Recurrence.Proofs.RuleTexts

set_option autoImplicit false
set_option relaxedAutoImplicit false

/-!
The spellings of a rule. A text describes the same rule, or none, when its parts change places, when
the case of keys and codes and the white space around keys, values and items of lists change, and
when blank parts and parts with unknown keys come in. Only the label in front of a rule has to be
told from a part that begins in the same way.
-/

namespace Recurrence

open Recurrence.Text

private theorem Frequency.read?_congr {text text' : List Char} (h : word text = word text') :
    Frequency.read? text = Frequency.read? text' :=
  congrArg (fun code => Frequency.ofCode? (String.ofList code)) h

private theorem Weekday.read?_congr {text text' : List Char} (h : word text = word text') :
    Weekday.read? text = Weekday.read? text' :=
  congrArg (fun code => Weekday.ofCode? (String.ofList code)) h

namespace Rule

variable {front back : List Char}

def listKeys : List String :=
  ["BYDAY", "BYMONTHDAY", "BYMONTH", "BYYEARDAY", "BYWEEKNO", "BYHOUR", "BYMINUTE", "BYSECOND"]

def codeKeys : List String := ["FREQ", "WKST", "BYDAY"]

def items (key : String) (value : List Char) : List (List Char) :=
  if key ∈ listKeys then fields ',' value else [value]

/-- What counts of a value: its items without the white space around them, codes in capital
letters. -/
def substance (key : String) (value : List Char) : List (List Char) :=
  ((items key value).map trim).map fun item =>
    if key ∈ codeKeys then item.map Char.toUpper else item

/-- What counts of a part: its key in capital letters, and what counts of the value. -/
def content (part : List Char) : Option String × List (List Char) :=
  match cut? '=' part with
  | some (key, value) => (some (keyword key), substance (keyword key) value)
  | none => (none, [word part])

/-- A part that says nothing: it is blank, or its key is not known. -/
def Ignored (part : List Char) : Prop :=
  trim part = [] ∨ ∃ key, key? part = some key ∧ key ≠ "FREQ" ∧ RulePart.ofKey? key = none

def textOf (labelled : Bool) (parts : List (List Char)) : String :=
  label labelled ++ String.ofList (join [';'] parts)

/-- No part is taken for the label: one stands in front of the parts, or the first of these begins
in another way. -/
def LabelClear (labelled : Bool) (parts : List (List Char)) : Prop :=
  labelled = false → ∀ part ∈ parts.head?, ¬ (label true).toList <+: trim part

private theorem items_of_list {key : String} (h : key ∈ listKeys) (value : List Char) :
    items key value = fields ',' value := if_pos h

private theorem items_of_not_list {key : String} (h : key ∉ listKeys) (value : List Char) :
    items key value = [value] := if_neg h

private theorem substance_of_code {key : String} (h : key ∈ codeKeys) (value : List Char) :
    substance key value = (items key value).map word := by
  simp only [substance, if_pos h, List.map_map]
  rfl

private theorem substance_of_not_code {key : String} (h : key ∉ codeKeys) (value : List Char) :
    substance key value = (items key value).map trim := by
  simp only [substance, if_neg h, List.map_id']

private theorem key?_eq_content (part : List Char) : key? part = (content part).1 := by
  unfold key? content
  cases cut? '=' part <;> rfl

private theorem substance_append_right (hb : ∀ c ∈ back, isBlank c = true) (key : String)
    (value : List Char) : substance key (value ++ back) = substance key value := by
  have hitems : (items key (value ++ back)).map trim = (items key value).map trim := by
    unfold items
    split
    · exact map_trim_fields_append_right (by decide) hb value
    · simp [trim_append_right hb]
  rw [substance, hitems, substance]

private theorem content_surrounded (hf : ∀ c ∈ front, isBlank c = true)
    (hb : ∀ c ∈ back, isBlank c = true) (part : List Char) :
    content (front ++ part ++ back) = content part := by
  have hequals : isBlank '=' = false := by decide
  have hfront := separator_not_mem hequals hf
  have hback := separator_not_mem hequals hb
  unfold content
  cases hcut : cut? '=' part with
  | none =>
    have hnone : cut? '=' (front ++ part ++ back) = none := by
      rw [cut?_eq_none_iff] at hcut ⊢
      simp [hfront, hback, hcut]
    rw [hnone]
    exact congrArg (fun text => (none, [text])) (word_surrounded hf hb part)
  | some pair =>
    obtain ⟨key, value⟩ := pair
    obtain ⟨hkey, rfl⟩ := cut?_eq_some hcut
    have hsome : cut? '=' (front ++ (key ++ '=' :: value) ++ back) =
        some (front ++ key, value ++ back) := by
      rw [← List.append_assoc, List.append_assoc (front ++ key), List.cons_append]
      exact cut?_append_cons (by simp [hfront, hkey]) _
    have hkeyword : keyword (front ++ key) = keyword key := by
      rw [keyword, word, trim_append_left hf, keyword, word]
    simp only [hsome, hkeyword, substance_append_right hb]

private theorem content_trim (part : List Char) : content (trim part) = content part := by
  obtain ⟨front, back, hf, hb, hpart⟩ := exists_trim part
  calc
    content (trim part) = content (front ++ trim part ++ back) := (content_surrounded hf hb _).symm
    _ = content part := by rw [← hpart]

/-! ### Separators -/

private theorem semicolon_mem_substance_iff {key : String} {value : List Char} :
    (∃ item ∈ substance key value, ';' ∈ item) ↔ ';' ∈ value := by
  have hitems : (∃ item ∈ items key value, ';' ∈ item) ↔ ';' ∈ value := by
    unfold items
    split
    · exact mem_fields_iff (by decide)
    · simp
  have hitem : ∀ item, (';' ∈ if key ∈ codeKeys then (trim item).map Char.toUpper
      else trim item) ↔ ';' ∈ item := by
    intro item
    split
    · exact semicolon_mem_word_iff
    · exact mem_trim_iff (by decide)
  rw [← hitems]
  simp only [substance, List.mem_map, exists_exists_and_eq_and, hitem]

private theorem semicolon_mem_iff {part : List Char} : ';' ∈ part ↔
    (∃ key, (content part).1 = some key ∧ ';' ∈ key.toList) ∨
      ∃ item ∈ (content part).2, ';' ∈ item := by
  unfold content
  cases hcut : cut? '=' part with
  | none => simp [semicolon_mem_word_iff]
  | some pair =>
    obtain ⟨key, value⟩ := pair
    obtain ⟨-, rfl⟩ := cut?_eq_some hcut
    simp [semicolon_mem_substance_iff, keyword, semicolon_mem_word_iff]

/-! ### Parts -/

private theorem toOption_readEntry {part key value : List Char}
    (h : cut? '=' part = some (key, value)) : (readEntry part).toOption =
      if keyword key = "FREQ" then (Frequency.read? value).map .frequency
      else some (.other (keyword key) (trim value)) := by
  unfold readEntry
  simp only [h]
  change (if keyword key = "FREQ" then _ else _ : Except RuleTextError Entry).toOption = _
  split
  · cases Frequency.read? value <;> rfl
  · rfl

private theorem toOption_readNumbers {low high : Int} (part : RulePart) (value : List Char) :
    (readNumbers part value : Except _ (SortedSet (BoundedInt low high))).toOption =
      (((fields ',' value).map trim).mapM BoundedInt.read?).map SortedSet.ofList := by
  have hread : ∀ item, (readNumber part item : Except _ (BoundedInt low high)).toOption =
      BoundedInt.read? (trim item) := by
    intro item
    unfold readNumber
    cases BoundedInt.read? (trim item) <;> rfl
  rw [readNumbers, bind_pure_comp, toOption_map, toOption_mapM, List.mapM_map]
  simp only [hread]
  rfl

private theorem toOption_readWeekdays (value : List Char) : (readWeekdays value).toOption =
    (((fields ',' value).map word).mapM fun code =>
      Weekday.ofCode? (String.ofList code)).map SortedSet.ofList := by
  have hread : ∀ item, (readWeekday item).toOption = Weekday.read? item := by
    intro item
    unfold readWeekday
    cases Weekday.read? item <;> rfl
  rw [readWeekdays, bind_pure_comp, toOption_map, toOption_mapM, List.mapM_map]
  simp only [hread]
  rfl

private theorem setPart_congr {part : RulePart} {value value' : List Char}
    (h : substance part.key value = substance part.key value') (r : Rule) :
    (r.setPart part (trim value)).toOption = (r.setPart part (trim value')).toOption := by
  cases part with
  | interval | count | ends =>
    rw [substance_of_not_code (by decide), substance_of_not_code (by decide),
      items_of_not_list (by decide), items_of_not_list (by decide)] at h
    have hsame : trim value = trim value' := List.singleton_inj.1 h
    rw [hsame]
  | weekStart =>
    rw [substance_of_code (by decide), substance_of_code (by decide),
      items_of_not_list (by decide), items_of_not_list (by decide)] at h
    have hread : Weekday.read? (trim value) = Weekday.read? (trim value') := by
      apply Weekday.read?_congr
      rw [word_trim, word_trim, List.singleton_inj.1 h]
    simp only [setPart, hread]
    cases Weekday.read? (trim value') <;> rfl
  | weekdays =>
    rw [substance_of_code (by decide), substance_of_code (by decide),
      items_of_list (by decide), items_of_list (by decide)] at h
    have hread : (readWeekdays (trim value)).toOption = (readWeekdays (trim value')).toOption := by
      rw [toOption_readWeekdays, toOption_readWeekdays, map_word_fields_trim (by decide),
        map_word_fields_trim (by decide), h]
    simp only [setPart, bind_pure_comp, toOption_map, hread]
  | monthDays | months | yearDays | weekNumbers | hours | minutes | seconds =>
    rw [substance_of_not_code (by decide), substance_of_not_code (by decide),
      items_of_list (by decide), items_of_list (by decide)] at h
    simp only [setPart, bind_pure_comp, toOption_map, toOption_readNumbers]
    rw [map_trim_fields_trim (by decide), map_trim_fields_trim (by decide), h]

private theorem setEntry_congr {key : String} {value value' : List Char}
    (h : substance key value = substance key value') (r : Rule) :
    (r.setEntry (.other key (trim value))).toOption =
      (r.setEntry (.other key (trim value'))).toOption := by
  cases hpart : RulePart.ofKey? key with
  | none => simp only [setEntry, hpart]
  | some part =>
    obtain rfl := RulePart.key_of_ofKey? hpart
    simp only [setEntry, hpart]
    exact setPart_congr h r

private theorem effect_of_cut {part key value : List Char} (h : cut? '=' part = some (key, value))
    (d : Draft) : effect part d = (readEntry part).toOption.bind d.add? := by
  obtain ⟨-, rfl⟩ := cut?_eq_some h
  have hfull : '=' ∈ trim (key ++ '=' :: value) := (mem_trim_iff (by decide)).2 (by simp)
  exact if_neg (List.ne_nil_of_mem hfull)

private theorem effect_of_uncut {part : List Char} (h : cut? '=' part = none) (d : Draft) :
    effect part d = if word part = [] then some d else none := by
  have hread : (readEntry part).toOption = none := by
    unfold readEntry
    rw [h]
    rfl
  unfold effect word
  rw [hread, Option.bind_none]
  simp only [List.map_eq_nil_iff]

private theorem effect_congr {part part' : List Char} (h : content part = content part') :
    effect part = effect part' := by
  funext d
  unfold content at h
  cases hcut : cut? '=' part with
  | none =>
    cases hcut' : cut? '=' part' with
    | none =>
      -- Neither part has a key: it fails, or is blank, and this can be told from its word.
      simp only [hcut, hcut', Prod.mk.injEq, List.singleton_inj, true_and] at h
      rw [effect_of_uncut hcut, effect_of_uncut hcut', h]
    | some pair' => simp [hcut, hcut'] at h
  | some pair =>
    cases hcut' : cut? '=' part' with
    | none => simp [hcut, hcut'] at h
    | some pair' =>
      simp only [hcut, hcut', Prod.mk.injEq, Option.some.injEq] at h
      obtain ⟨hkey, hvalue⟩ := h
      rw [← hkey] at hvalue
      rw [effect_of_cut hcut, effect_of_cut hcut', toOption_readEntry hcut,
        toOption_readEntry hcut', ← hkey]
      split
      · rename_i hfrequency
        rw [hfrequency, substance_of_code (by decide), substance_of_code (by decide),
          items_of_not_list (by decide), items_of_not_list (by decide)] at hvalue
        rw [Frequency.read?_congr (List.singleton_inj.1 hvalue)]
      · change d.add? _ = d.add? _
        unfold Draft.add?
        rw [setEntry_congr hvalue]
        rfl

private theorem effect_of_ignored {part : List Char} (h : Ignored part) : effect part = some := by
  funext d
  obtain hblank | ⟨_, hkey, hother, hunknown⟩ := h
  · exact if_pos hblank
  · obtain ⟨⟨key, value⟩, hcut, rfl⟩ := Option.map_eq_some_iff.1 hkey
    rw [effect_of_cut hcut, toOption_readEntry hcut, if_neg hother, Option.bind_some]
    simp only [Draft.add?, setEntry, hunknown]
    rfl

/-! ### Texts -/

private theorem drafted_congr {parts parts' : List (List Char)}
    (h : parts.map content = parts'.map content)
    (d : Option Draft) : drafted d parts = drafted d parts' := by
  induction parts generalizing parts' d with
  | nil =>
    obtain rfl := List.map_eq_nil_iff.1 h.symm
    rfl
  | cons part parts ih =>
    obtain ⟨part', rest', rfl, hpart, hrest⟩ := List.map_eq_cons_iff.1 h.symm
    change drafted (d.bind (effect part)) parts = drafted (d.bind (effect part')) rest'
    rw [effect_congr hpart, ih hrest.symm]

private theorem drafted_ignored {parts : List (List Char)} (h : ∀ part ∈ parts, Ignored part)
    (d : Option Draft) : drafted d parts = d := by
  induction parts with
  | nil => rfl
  | cons part parts ih =>
    change drafted (d.bind (effect part)) parts = d
    rw [effect_of_ignored (h part List.mem_cons_self), Option.bind_fun_some,
      ih fun other hother => h other (List.mem_cons_of_mem part hother)]

/-- Parts of which those that say anything have different keys may stand in any order. -/
private theorem drafted_perm {parts parts' : List (List Char)} (hperm : parts.Perm parts')
    (hkeys : ∀ p ∈ parts, ∀ q ∈ parts, p ≠ q → ¬ Ignored p → ¬ Ignored q →
      KeysDiffer p q) (d : Option Draft) :
    drafted d parts = drafted d parts' := by
  apply hperm.foldl_eq'
  intro p hp q hq d
  -- What is left after these cases are two parts that say something, under different keys.
  by_cases hsame : p = q
  · rw [hsame]
  by_cases hignored : Ignored p
  · rw [effect_of_ignored hignored, Option.bind_fun_some, Option.bind_fun_some]
  by_cases hignored' : Ignored q
  · rw [effect_of_ignored hignored', Option.bind_fun_some, Option.bind_fun_some]
  cases d with
  | none => rfl
  | some d => exact effect_comm (hkeys p hp q hq hsame hignored hignored') d

private theorem withoutLabel_trim_join {parts : List (List Char)}
    (hparts : ∀ part ∈ parts, ';' ∉ part)
    (hfirst : ∀ part ∈ parts.head?, ¬ (label true).toList <+: trim part) :
    withoutLabel (trim (join [';'] parts)) = trim (join [';'] parts) := by
  unfold withoutLabel
  cases hafter : after? "RRULE:".toList (trim (join [';'] parts)) with
  | none => rfl
  | some rest =>
    exfalso
    have htrim := eq_append_of_after? hafter
    obtain ⟨front, back, hf, hb, htext⟩ := exists_trim (join [';'] parts)
    rw [htrim, List.append_assoc, List.append_assoc] at htext
    cases parts with
    | nil => simp [join] at htext
    | cons part later =>
      -- The first part is the text up to the first separator, and the label has no separator.
      have hhead := head?_fields ';' (join [';'] (part :: later))
      have hfront : ∀ c ∈ front, decide (c ≠ ';') = true := by
        intro c hc
        exact decide_eq_true (ne_of_mem_of_not_mem hc (separator_not_mem (by decide) hf))
      have hnone : ∀ c ∈ "RRULE:".toList, decide (c ≠ ';') = true :=
        List.all_eq_true.1 (by decide)
      rw [fields_join (List.cons_ne_nil _ _) hparts, htext,
        List.takeWhile_append_of_pos hfront, List.takeWhile_append_of_pos hnone] at hhead
      have hpart := Option.some.inj hhead
      apply hfirst part rfl
      rw [hpart, trim_append_left hf]
      exact ⟨_, (trim_append_of_ink (by decide) (isBlank_of_mem_label true) _).symm⟩

private theorem map_trim_fields_textOf {labelled : Bool} {parts : List (List Char)}
    (hparts : ∀ part ∈ parts, ';' ∉ part) (hlabel : LabelClear labelled parts) :
    (fields ';' (withoutLabel (trim (textOf labelled parts).toList))).map trim =
      (fields ';' (join [';'] parts)).map trim := by
  have hsep : isBlank ';' = false := by decide
  unfold textOf
  rw [String.toList_append, String.toList_ofList]
  cases labelled with
  | true =>
    rw [trim_append_of_ink (by decide) (isBlank_of_mem_label true)]
    have hafter := after?_append (label true).toList (trimEnd (join [';'] parts))
    change (fields ';' ((after? (label true).toList _).getD _)).map trim = _
    rw [hafter]
    exact map_trim_fields_trimEnd hsep _
  | false =>
    change (fields ';' (withoutLabel (trim (join [';'] parts)))).map trim = _
    rw [withoutLabel_trim_join hparts (hlabel rfl)]
    exact map_trim_fields_trim hsep _

private theorem toOption_ofText {labelled : Bool} {parts : List (List Char)}
    (hparts : ∀ part ∈ parts, ';' ∉ part) (hlabel : LabelClear labelled parts) :
    (ofText (textOf labelled parts)).toOption =
      (drafted (some .start) parts).bind Draft.rule? := by
  have hcontent : (content ∘ trim) = content := funext content_trim
  have htrim := congrArg (List.map content) (map_trim_fields_textOf hparts hlabel)
  rw [List.map_map, List.map_map, hcontent] at htrim
  unfold ofText read
  rw [toOption_readParts, drafted_congr htrim]
  cases parts with
  | nil => rfl
  | cons part later => rw [fields_join (List.cons_ne_nil _ _) hparts]

private theorem keys_of_respelled {parts respelled : List (List Char)}
    (h : respelled.map content = parts.map content) :
    respelled.filterMap key? = parts.filterMap key? := by
  have hkey : ∀ texts : List (List Char),
      texts.filterMap key? = (texts.map content).filterMap Prod.fst := by
    intro texts
    rw [List.filterMap_map]
    exact List.filterMap_congr fun part _ => key?_eq_content part
  rw [hkey, h, hkey]

private theorem semicolon_not_mem_respelled {parts respelled : List (List Char)}
    (h : respelled.map content = parts.map content) (hparts : ∀ part ∈ parts, ';' ∉ part) :
    ∀ part ∈ respelled, ';' ∉ part := by
  intro part hpart
  have hmem := List.mem_map_of_mem (f := content) hpart
  rw [h] at hmem
  obtain ⟨original, horiginal, hcontent⟩ := List.mem_map.1 hmem
  rw [semicolon_mem_iff, ← hcontent, ← semicolon_mem_iff]
  exact hparts original horiginal

/-- Texts of the same parts, differently spelled, in another order, with or without the label and
with parts added that say nothing, describe the same rule, or both describe none. -/
theorem ofText_respelled {parts respelled added final : List (List Char)}
    {labelled labelled' : Bool} (hparts : ∀ part ∈ parts, ';' ∉ part)
    (hkeys : (parts.filterMap key?).Nodup) (hlabel : LabelClear labelled parts)
    (hrespelled : respelled.map content = parts.map content)
    (hadded : ∀ part ∈ added, ';' ∉ part ∧ Ignored part)
    (hfinal : final.Perm (respelled ++ added)) (hlabel' : LabelClear labelled' final) :
    (ofText (textOf labelled' final)).toOption = (ofText (textOf labelled parts)).toOption := by
  have hmem : ∀ part ∈ final, ';' ∉ part := by
    intro part hpart
    obtain hpart | hpart := List.mem_append.1 (hfinal.mem_iff.1 hpart)
    · exact semicolon_not_mem_respelled hrespelled hparts part hpart
    · exact (hadded part hpart).1
  have hdistinct := keysDiffer_of_nodup (keys_of_respelled hrespelled ▸ hkeys)
  have hsilent : ∀ part ∈ respelled ++ added, ¬ Ignored part → part ∈ respelled := by
    intro part hpart hsays
    obtain hpart | hpart := List.mem_append.1 hpart
    · exact hpart
    · exact absurd (hadded part hpart).2 hsays
  have horder : drafted (some .start) final = drafted (some .start) (respelled ++ added) := by
    refine (drafted_perm hfinal.symm ?_ _).symm
    intro p hp q hq hne hsays hsays'
    exact hdistinct (hsilent p hp hsays) (hsilent q hq hsays') hne
  have hcontent : drafted (some .start) (respelled ++ added) = drafted (some .start) parts := by
    have happend : drafted (some .start) (respelled ++ added) =
        drafted (drafted (some .start) respelled) added := List.foldl_append
    rw [happend, drafted_ignored fun part hpart => (hadded part hpart).2,
      drafted_congr hrespelled]
  rw [toOption_ofText hmem hlabel', toOption_ofText hparts hlabel, horder, hcontent]

def teaParts : List (List Char) :=
  ["FREQ=WEEKLY", "BYDAY=MO,FR", "BYHOUR=9,17", "X-NOTE=Tea"].map String.toList

def teaRespelled : List (List Char) :=
  [" freq = weekly", "ByDay= mo , Fr", "BYHOUR\t= 9,17 ", "x-note=Tea"].map String.toList

def teaAdded : List (List Char) := ["  ", "EXRULE=none"].map String.toList

def teaFinal : List (List Char) :=
  ["  ", "BYHOUR\t= 9,17 ", "x-note=Tea", "ByDay= mo , Fr", "EXRULE=none", " freq = weekly"].map
    String.toList

theorem ofText_teaFinal :
    (∀ part ∈ teaParts, ';' ∉ part) ∧ (teaParts.filterMap key?).Nodup ∧
      LabelClear false teaParts ∧ teaRespelled.map content = teaParts.map content ∧
      (∀ part ∈ teaAdded, ';' ∉ part ∧ Ignored part) ∧ teaFinal.Perm (teaRespelled ++ teaAdded) ∧
      LabelClear true teaFinal ∧
      (ofText (textOf true teaFinal)).toOption = (ofText (textOf false teaParts)).toOption ∧
      (ofText (textOf true teaFinal)).toOption.map text =
        some "FREQ=WEEKLY;BYDAY=MO,FR;BYHOUR=9,17" := by
  have hparts : ∀ part ∈ teaParts, ';' ∉ part := by decide +kernel
  have hkeys : (teaParts.filterMap key?).Nodup := by decide +kernel
  have hlabel : LabelClear false teaParts := fun _ => by decide +kernel
  have hrespelled : teaRespelled.map content = teaParts.map content := by decide +kernel
  have hadded : ∀ part ∈ teaAdded, ';' ∉ part ∧ Ignored part := by
    simp only [teaAdded, List.map_cons, List.map_nil, List.forall_mem_cons]
    refine ⟨⟨by decide, Or.inl (by decide)⟩, ⟨by decide, Or.inr ⟨"EXRULE", by decide +kernel,
      by decide, by decide⟩⟩, nofun⟩
  have hfinal : teaFinal.Perm (teaRespelled ++ teaAdded) := by decide +kernel
  have hlabel' : LabelClear true teaFinal := nofun
  have hsame := ofText_respelled hparts hkeys hlabel hrespelled hadded hfinal hlabel'
  refine ⟨hparts, hkeys, hlabel, hrespelled, hadded, hfinal, hlabel', hsame, ?_⟩
  rw [hsame]
  decide +kernel

def labelLikeParts : List (List Char) := ["rrule:COUNT=3", "FREQ=DAILY"].map String.toList

/-- In capital letters, the beginning of the first part is taken for the label, and the rest of it
for a count. -/
theorem ofText_labelLike :
    let parts := labelLikeParts
    let respelled := ["RRULE:COUNT=3", "FREQ=DAILY"].map String.toList
    (∀ part ∈ parts, ';' ∉ part ∧ ¬ (label true).toList <+: trim part) ∧
      (parts.filterMap key?).Nodup ∧ respelled.map content = parts.map content ∧
      (ofText (textOf false parts)).toOption.map text = some "FREQ=DAILY" ∧
      (ofText (textOf false respelled)).toOption.map text = some "FREQ=DAILY;COUNT=3" ∧
      (ofText (textOf false respelled)).toOption ≠ (ofText (textOf false parts)).toOption := by
  intro parts respelled
  have hplain : (ofText (textOf false parts)).toOption.map text = some "FREQ=DAILY" := by
    decide +kernel
  have hcounted :
      (ofText (textOf false respelled)).toOption.map text = some "FREQ=DAILY;COUNT=3" := by
    decide +kernel
  refine ⟨by decide +kernel, by decide +kernel, by decide +kernel, hplain, hcounted, ?_⟩
  intro hsame
  rw [hsame, hplain] at hcounted
  exact absurd hcounted (by decide)

end Rule

end Recurrence
