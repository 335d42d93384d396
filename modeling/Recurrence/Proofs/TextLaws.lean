import Mathlib.Algebra.Group.Nat.Defs
import Mathlib.Data.List.TakeWhile
import Recurrence.Text.Field
import Recurrence.Text.Numeral

set_option autoImplicit false
set_option relaxedAutoImplicit false

/-!
Laws of text. Keys, codes and numbers are written in plain characters, which trimming, upper case
and separators leave alone; text that is put together from plain fields comes apart into the same
fields, and a numeral reads as the number it is written for.
-/

namespace Recurrence.Text

/-- The characters of keys, codes and numbers: capital letters, digits and signs. -/
def isPlain (c : Char) : Bool := c.isUpper || c.isDigit || c == '-' || c == '+'

theorem isPlain_of_isDigit {c : Char} (h : c.isDigit = true) : isPlain c = true := by
  unfold isPlain
  rw [h]
  simp

private theorem isPlain_bounds {c : Char} (h : isPlain c = true) : 43 ≤ c.toNat ∧ c.toNat ≤ 90 := by
  have upper : c.isUpper = decide (c.val ≥ 65 ∧ c.val ≤ 90) := rfl
  simp only [isPlain, upper, Char.isDigit, Bool.or_eq_true, Bool.and_eq_true,
    decide_eq_true_eq, beq_iff_eq, ge_iff_le, UInt32.le_iff_toNat_le] at h
  rcases h with ((h | h) | rfl) | rfl
  · exact ⟨Nat.le_trans (by decide) h.1, h.2⟩
  · exact ⟨Nat.le_trans (by decide) h.1, Nat.le_trans h.2 (by decide)⟩
  · decide
  · decide

theorem isBlank_of_isPlain {c : Char} (h : isPlain c = true) : isBlank c = false := by
  have bounds := isPlain_bounds h
  simp only [isBlank, blankRanges, List.any_cons, List.any_nil, Bool.or_false, Bool.or_eq_false_iff,
    Bool.and_eq_false_iff, decide_eq_false_iff_not]
  omega

private theorem toUpper_of_isPlain {c : Char} (h : isPlain c = true) : c.toUpper = c := by
  have bounds := isPlain_bounds h
  unfold Char.toUpper
  rw [dif_neg]
  rintro ⟨low, -⟩
  rw [UInt32.le_iff_toNat_le] at low
  have small : c.val.toNat ≤ 90 := bounds.2
  exact absurd (Nat.le_trans low small) (by decide)

/-! ### White space -/

theorem trim_append_left {front : List Char} (hf : ∀ c ∈ front, isBlank c = true)
    (text : List Char) : trim (front ++ text) = trim text := by
  unfold trim trimStart
  rw [List.dropWhile_append_of_pos hf]

private theorem trimEnd_append_right {back : List Char} (hb : ∀ c ∈ back, isBlank c = true)
    (text : List Char) : trimEnd (text ++ back) = trimEnd text := by
  unfold trimEnd
  rw [List.reverse_append,
    List.dropWhile_append_of_pos fun c hc => hb c (List.mem_reverse.1 hc)]

theorem trim_append_right {back : List Char} (hb : ∀ c ∈ back, isBlank c = true)
    (text : List Char) : trim (text ++ back) = trim text := by
  unfold trim trimStart
  rw [List.dropWhile_append]
  split
  · rename_i empty
    rw [List.dropWhile_eq_nil_iff.2 hb, List.isEmpty_iff.1 empty]
  · exact trimEnd_append_right hb _

private theorem exists_trimEnd (text : List Char) :
    ∃ back, (∀ c ∈ back, isBlank c = true) ∧ text = trimEnd text ++ back := by
  refine ⟨(text.reverse.takeWhile isBlank).reverse, fun c hc => ?_, ?_⟩
  · exact List.mem_takeWhile_imp (List.mem_reverse.1 hc)
  · unfold trimEnd
    rw [← List.reverse_append, List.takeWhile_append_dropWhile, List.reverse_reverse]

theorem exists_trim (text : List Char) : ∃ front back, (∀ c ∈ front, isBlank c = true) ∧
    (∀ c ∈ back, isBlank c = true) ∧ text = front ++ trim text ++ back := by
  obtain ⟨back, hb, hback⟩ := exists_trimEnd (trimStart text)
  refine ⟨text.takeWhile isBlank, back, fun c hc => List.mem_takeWhile_imp hc, hb, ?_⟩
  unfold trim
  rw [List.append_assoc, ← hback]
  exact List.takeWhile_append_dropWhile.symm

private theorem trim_trim (text : List Char) : trim (trim text) = trim text := by
  obtain ⟨front, back, hf, hb, htext⟩ := exists_trim text
  calc
    trim (trim text) = trim (front ++ trim text ++ back) := by
      rw [trim_append_right hb, trim_append_left hf]
    _ = trim text := by rw [← htext]

theorem mem_trim_iff {text : List Char} {c : Char} (h : isBlank c = false) :
    c ∈ trim text ↔ c ∈ text := by
  obtain ⟨front, back, hf, hb, htext⟩ := exists_trim text
  have hfront : c ∉ front := fun hc => Bool.noConfusion (h.symm.trans (hf c hc))
  have hback : c ∉ back := fun hc => Bool.noConfusion (h.symm.trans (hb c hc))
  rw [htext, trim_append_right hb, trim_append_left hf, trim_trim]
  simp [hfront, hback]

private theorem dropWhile_isBlank_of_ink {front : List Char} (some : front ≠ [])
    (h : ∀ c ∈ front, isBlank c = false) (text : List Char) :
    (front ++ text).dropWhile isBlank = front ++ text := by
  cases front with
  | nil => exact absurd rfl some
  | cons c rest =>
    rw [List.cons_append, List.dropWhile_cons_of_neg]
    simp [h c List.mem_cons_self]

theorem trim_append_of_ink {front : List Char} (some : front ≠ [])
    (h : ∀ c ∈ front, isBlank c = false) (text : List Char) :
    trim (front ++ text) = front ++ trimEnd text := by
  unfold trim trimStart trimEnd
  rw [dropWhile_isBlank_of_ink some h, List.reverse_append, List.dropWhile_append]
  split
  · rename_i empty
    have reversed := dropWhile_isBlank_of_ink (List.reverse_ne_nil_iff.2 some)
      (fun c hc => h c (List.mem_reverse.1 hc)) []
    rw [List.append_nil] at reversed
    rw [reversed, List.isEmpty_iff.1 empty, List.reverse_reverse, List.reverse_nil,
      List.append_nil]
  · rw [List.reverse_append, List.reverse_reverse]

theorem trim_eq_self {text : List Char} (h : ∀ c ∈ text, isBlank c = false) : trim text = text := by
  cases text with
  | nil => rfl
  | cons c rest =>
    have kept := trim_append_of_ink (List.cons_ne_nil c rest) h []
    simpa [trimEnd] using kept

theorem trim_of_surrounded {front text back : List Char} (hf : ∀ c ∈ front, isBlank c = true)
    (hb : ∀ c ∈ back, isBlank c = true) (ht : ∀ c ∈ text, isBlank c = false) :
    trim (front ++ text ++ back) = text := by
  rw [trim_append_right hb, trim_append_left hf, trim_eq_self ht]

theorem trimStart_of_plain {c : Char} {rest : List Char} (h : isPlain c = true) :
    trimStart (c :: rest) = c :: rest := by
  simp [trimStart, isBlank_of_isPlain h]

private theorem map_toUpper_of_plain {text : List Char} (h : ∀ c ∈ text, isPlain c = true) :
    text.map Char.toUpper = text := by
  calc
    text.map Char.toUpper = text.map id :=
      List.map_congr_left fun c hc => toUpper_of_isPlain (h c hc)
    _ = text := List.map_id text

theorem upper_trim_of_plain {word : String} (h : ∀ c ∈ word.toList, isPlain c = true) :
    String.ofList ((trim word.toList).map Char.toUpper) = word := by
  rw [trim_eq_self fun c hc => isBlank_of_isPlain (h c hc), map_toUpper_of_plain h,
    String.ofList_toList]

/-! ### Words -/

def word (text : List Char) : List Char := (trim text).map Char.toUpper

def keyword (text : List Char) : String := String.ofList (word text)

theorem word_surrounded {front back : List Char} (hf : ∀ c ∈ front, isBlank c = true)
    (hb : ∀ c ∈ back, isBlank c = true) (text : List Char) : word (front ++ text ++ back) = word text := by
  rw [word, trim_append_right hb, trim_append_left hf, word]

theorem word_trim (text : List Char) : word (trim text) = word text := by
  rw [word, trim_trim, word]

private theorem toUpper_eq_semicolon_iff {c : Char} : c.toUpper = ';' ↔ c = ';' := by
  constructor
  · intro h
    unfold Char.toUpper at h
    split at h
    · rename_i lower
      have value := congrArg (fun d : Char => d.val.toNat) h
      have low := UInt32.le_iff_toNat_le.1 lower.1
      have high := UInt32.le_iff_toNat_le.1 lower.2
      simp only [UInt32.toNat_add] at value
      change 97 ≤ c.val.toNat at low
      change c.val.toNat ≤ 122 at high
      change (c.val.toNat + 4294967264) % 4294967296 = 59 at value
      omega
    · exact h
  · rintro rfl
    rfl

theorem semicolon_mem_word_iff {text : List Char} : ';' ∈ word text ↔ ';' ∈ text := by
  unfold word
  simp only [List.mem_map, toUpper_eq_semicolon_iff, exists_eq_right]
  exact mem_trim_iff (by decide)

/-! ### Fields -/

private theorem fields_of_not_mem {separator : Char} {text : List Char} (h : separator ∉ text) :
    fields separator text = [text] := by
  induction text with
  | nil => rfl
  | cons c rest ih =>
    rw [List.mem_cons, not_or] at h
    unfold fields
    rw [if_neg (Ne.symm h.1), ih h.2]

private theorem fields_append_cons {separator : Char} {field : List Char} (h : separator ∉ field)
    (text : List Char) : fields separator (field ++ separator :: text) =
      field :: fields separator text := by
  induction field with
  | nil => simp [fields]
  | cons c rest ih =>
    rw [List.mem_cons, not_or] at h
    rw [List.cons_append, fields, if_neg (Ne.symm h.1), ih h.2]

/-- Text joined from fields without the separator comes apart into these fields. -/
theorem fields_join {separator : Char} {parts : List (List Char)} (some : parts ≠ [])
    (h : ∀ part ∈ parts, separator ∉ part) : fields separator (join [separator] parts) = parts := by
  unfold join
  induction parts with
  | nil => exact absurd rfl some
  | cons part later ih =>
    have here := h part List.mem_cons_self
    cases later with
    | nil => simpa using fields_of_not_mem here
    | cons next later =>
      rw [List.intercalate_cons_cons, List.append_assoc, List.singleton_append,
        fields_append_cons here, ih (by simp) fun p hp => h p (List.mem_cons_of_mem part hp)]

theorem mem_fields_iff {separator c : Char} (h : c ≠ separator) {text : List Char} :
    (∃ field ∈ fields separator text, c ∈ field) ↔ c ∈ text := by
  induction text with
  | nil => simp [fields]
  | cons d rest ih =>
    unfold fields
    split
    · rename_i same
      simp [ih, same, h]
    · split
      · rename_i none
        exact absurd none (fields_ne_nil separator rest)
      · rename_i field later hfields
        rw [hfields] at ih
        simp only [List.mem_cons, exists_eq_or_imp] at ih ⊢
        rw [← ih, or_assoc]

theorem head?_fields (separator : Char) (text : List Char) :
    (fields separator text).head? = some (text.takeWhile (· ≠ separator)) := by
  induction text with
  | nil => rfl
  | cons c rest ih =>
    unfold fields
    split
    · rename_i same
      simp [same]
    · rename_i other
      split
      · rename_i none
        exact absurd none (fields_ne_nil separator rest)
      · rename_i field later hfields
        rw [hfields] at ih
        have first : field = rest.takeWhile (· ≠ separator) := Option.some.inj ih
        simp [first, other]

private theorem fields_append_left {separator : Char} {front : List Char} (h : separator ∉ front)
    (text : List Char) : ∃ field later, fields separator text = field :: later ∧
      fields separator (front ++ text) = (front ++ field) :: later := by
  induction front with
  | nil =>
    obtain ⟨field, later, hfields⟩ := List.exists_cons_of_ne_nil (fields_ne_nil separator text)
    exact ⟨field, later, hfields, hfields⟩
  | cons c front ih =>
    rw [List.mem_cons, not_or] at h
    obtain ⟨field, later, hfields, hlonger⟩ := ih h.2
    refine ⟨field, later, hfields, ?_⟩
    rw [List.cons_append, fields, if_neg (Ne.symm h.1), hlonger]
    rfl

private theorem fields_append_right {separator : Char} {back : List Char} (h : separator ∉ back)
    (text : List Char) : ∃ earlier field, fields separator text = earlier ++ [field] ∧
      fields separator (text ++ back) = earlier ++ [field ++ back] := by
  induction text with
  | nil => exact ⟨[], [], rfl, fields_of_not_mem h⟩
  | cons c rest ih =>
    obtain ⟨earlier, field, hfields, hlonger⟩ := ih
    rw [List.cons_append, fields, fields, hfields, hlonger]
    split
    · exact ⟨[] :: earlier, field, rfl, rfl⟩
    · cases earlier with
      | nil => exact ⟨[], c :: field, rfl, rfl⟩
      | cons first earlier => exact ⟨(c :: first) :: earlier, field, rfl, rfl⟩

section Trimmed

variable {separator : Char} (hsep : isBlank separator = false)

include hsep

theorem separator_not_mem {blank : List Char} (h : ∀ c ∈ blank, isBlank c = true) :
    separator ∉ blank :=
  fun hc => Bool.noConfusion (hsep.symm.trans (h separator hc))

private theorem map_trim_fields_append_left {front : List Char} (hf : ∀ c ∈ front, isBlank c = true)
    (text : List Char) :
    (fields separator (front ++ text)).map trim = (fields separator text).map trim := by
  obtain ⟨field, later, hfields, hlonger⟩ := fields_append_left (separator_not_mem hsep hf) text
  rw [hfields, hlonger, List.map_cons, List.map_cons, trim_append_left hf]

theorem map_trim_fields_append_right {back : List Char} (hb : ∀ c ∈ back, isBlank c = true)
    (text : List Char) :
    (fields separator (text ++ back)).map trim = (fields separator text).map trim := by
  obtain ⟨earlier, field, hfields, hlonger⟩ := fields_append_right (separator_not_mem hsep hb) text
  rw [hfields, hlonger, List.map_append, List.map_append, List.map_singleton, List.map_singleton,
    trim_append_right hb]

theorem map_trim_fields_trim (text : List Char) :
    (fields separator (trim text)).map trim = (fields separator text).map trim := by
  obtain ⟨front, back, hf, hb, htext⟩ := exists_trim text
  calc
    (fields separator (trim text)).map trim =
        (fields separator (front ++ trim text ++ back)).map trim := by
      rw [map_trim_fields_append_right hsep hb, map_trim_fields_append_left hsep hf]
    _ = (fields separator text).map trim := by rw [← htext]

theorem map_trim_fields_trimEnd (text : List Char) :
    (fields separator (trimEnd text)).map trim = (fields separator text).map trim := by
  obtain ⟨back, hb, htext⟩ := exists_trimEnd text
  calc
    (fields separator (trimEnd text)).map trim =
        (fields separator (trimEnd text ++ back)).map trim :=
      (map_trim_fields_append_right hsep hb _).symm
    _ = (fields separator text).map trim := by rw [← htext]

theorem map_word_fields_trim (text : List Char) :
    (fields separator (trim text)).map word = (fields separator text).map word := by
  have hword : ∀ texts : List (List Char),
      texts.map word = (texts.map trim).map (List.map Char.toUpper) :=
    fun texts => List.map_map.symm
  rw [hword, map_trim_fields_trim hsep, ← hword]

end Trimmed

theorem mem_join {separator c : Char} {parts : List (List Char)} (h : c ∈ join [separator] parts) :
    c = separator ∨ ∃ part ∈ parts, c ∈ part := by
  unfold join at h
  induction parts with
  | nil => simp at h
  | cons part later ih =>
    cases later with
    | nil => exact Or.inr ⟨part, List.mem_cons_self, by simpa using h⟩
    | cons next later =>
      rw [List.intercalate_cons_cons, List.mem_append, List.mem_append, List.mem_singleton] at h
      rcases h with (h | h) | h
      · exact Or.inr ⟨part, List.mem_cons_self, h⟩
      · exact Or.inl h
      · obtain same | ⟨p, hp, hc⟩ := ih h
        · exact Or.inl same
        · exact Or.inr ⟨p, List.mem_cons_of_mem part hp, hc⟩

theorem cut?_append_cons {separator : Char} {front : List Char} (h : separator ∉ front)
    (back : List Char) : cut? separator (front ++ separator :: back) = some (front, back) := by
  induction front with
  | nil => simp [cut?]
  | cons c rest ih =>
    rw [List.mem_cons, not_or] at h
    rw [List.cons_append, cut?, if_neg (Ne.symm h.1), ih h.2]
    rfl

theorem cut?_eq_some {separator : Char} {text front back : List Char}
    (h : cut? separator text = some (front, back)) :
    separator ∉ front ∧ text = front ++ separator :: back := by
  induction text generalizing front with
  | nil => cases h
  | cons c rest ih =>
    unfold cut? at h
    split at h
    · rename_i same
      cases h
      exact ⟨List.not_mem_nil, by rw [same, List.nil_append]⟩
    · rename_i other
      obtain ⟨⟨front, _⟩, hrest, hcut⟩ := Option.map_eq_some_iff.1 h
      cases hcut
      obtain ⟨hnone, rfl⟩ := ih hrest
      exact ⟨by simp [hnone, Ne.symm other], rfl⟩

theorem cut?_eq_none_iff {separator : Char} {text : List Char} :
    cut? separator text = none ↔ separator ∉ text := by
  induction text with
  | nil => simp [cut?]
  | cons c rest ih =>
    unfold cut?
    split
    · rename_i same
      simp [same]
    · rename_i other
      simp [ih, Ne.symm other]

theorem after?_append (front back : List Char) : after? front (front ++ back) = some back := by
  induction front with
  | nil => rfl
  | cons c rest ih =>
    rw [List.cons_append, after?, if_pos rfl, ih]

theorem eq_append_of_after? {front text rest : List Char} (h : after? front text = some rest) :
    text = front ++ rest := by
  induction front generalizing text with
  | nil => exact Option.some.inj h
  | cons c front ih =>
    cases text with
    | nil => cases h
    | cons d text =>
      unfold after? at h
      split at h
      · rename_i same
        rw [same, ih h, List.cons_append]
      · cases h

/-! ### Numerals -/

private theorem digit?_digitChar {d : Nat} (h : d < 10) : digit? d.digitChar = some d := by
  revert d
  decide

private theorem isSome_digit? {c : Char} (h : c.isDigit = true) : (digit? c).isSome = true := by
  simp only [Char.isDigit, Bool.and_eq_true, decide_eq_true_eq] at h
  unfold digit?
  rw [if_pos ⟨h.1, h.2⟩]
  rfl

private theorem readDigits_append (value : Nat) (xs ys : List Char) :
    readDigits value (xs ++ ys) = (readDigits value xs).bind fun v => readDigits v ys := by
  induction xs generalizing value with
  | nil => rfl
  | cons c rest ih =>
    simp only [List.cons_append, readDigits]
    cases digit? c with
    | none => rfl
    | some d => exact ih _

private theorem isDigit_of_mem_ofNat {n : Nat} {c : Char} (h : c ∈ ofNat n) : c.isDigit = true :=
  Nat.isDigit_of_mem_toDigits (by decide) (by decide) h

private theorem readDigits_ofNat (n : Nat) : readDigits 0 (ofNat n) = some n := by
  induction n using Nat.strongRecOn with
  | ind n ih =>
    unfold ofNat
    by_cases small : n < 10
    · rw [Nat.toDigits_of_lt_base small]
      simp [readDigits, digit?_digitChar small]
    · have shorter := ih (n / 10) (by omega)
      have last := digit?_digitChar (show n % 10 < 10 by omega)
      unfold ofNat at shorter
      rw [Nat.toDigits_of_base_le (by decide) (by omega), readDigits_append, shorter]
      simp only [Option.bind_some, readDigits, last, Option.some.injEq]
      omega

private theorem readDigits_zeros (k : Nat) (text : List Char) :
    readDigits 0 (List.replicate k '0' ++ text) = readDigits 0 text := by
  induction k with
  | zero => rfl
  | succ k ih =>
    rw [List.replicate_succ, List.cons_append, ← ih]
    rfl

private theorem readNat?_of_ne_nil {text : List Char} (h : text ≠ []) :
    readNat? text = readDigits 0 text := by
  cases text with
  | nil => exact absurd rfl h
  | cons c rest => rfl

private theorem ofNat_ne_nil (n : Nat) : ofNat n ≠ [] := Nat.toDigits_ne_nil

private theorem readNat?_ofNat (n : Nat) : readNat? (ofNat n) = some n := by
  rw [readNat?_of_ne_nil (ofNat_ne_nil n), readDigits_ofNat]

theorem padded_ne_nil (width n : Nat) : padded width n ≠ [] :=
  List.append_ne_nil_of_right_ne_nil _ (ofNat_ne_nil n)

private theorem readNat?_padded (width n : Nat) : readNat? (padded width n) = some n := by
  rw [readNat?_of_ne_nil (padded_ne_nil width n), padded, readDigits_zeros, readDigits_ofNat]

theorem isDigit_of_mem_padded {width n : Nat} {c : Char} (h : c ∈ padded width n) :
    c.isDigit = true := by
  rcases List.mem_append.1 h with zero | digit
  · rw [List.eq_of_mem_replicate zero]
    decide
  · exact isDigit_of_mem_ofNat digit

private theorem length_padded {width n : Nat} (positive : 0 < width) (h : n < 10 ^ width) :
    (padded width n).length = width := by
  have fits : (ofNat n).length ≤ width := (Nat.length_toDigits_le_iff (by decide) positive).2 h
  rw [padded, List.length_append, List.length_replicate]
  omega

theorem takeDigits?_padded {width n : Nat} (positive : 0 < width) (h : n < 10 ^ width)
    (rest : List Char) : takeDigits? width (padded width n ++ rest) = some (n, rest) := by
  have length := length_padded positive h
  have digits : (padded width n).takeWhile (fun c => (digit? c).isSome) = padded width n :=
    List.takeWhile_eq_self_iff.2 fun c hc => isSome_digit? (isDigit_of_mem_padded hc)
  unfold takeDigits?
  rw [List.take_left' length]
  simp only [digits, readNat?_padded, Option.map_some, List.drop_left]

theorem isPlain_of_mem_ofInt {n : Int} {c : Char} (h : c ∈ ofInt n) : isPlain c = true := by
  cases n with
  | ofNat n => exact isPlain_of_isDigit (isDigit_of_mem_ofNat h)
  | negSucc n =>
    rcases List.mem_cons.1 h with rfl | digit
    · decide
    · exact isPlain_of_isDigit (isDigit_of_mem_ofNat digit)

private theorem head?_ofNat (n : Nat) {c : Char} (h : c.isDigit = false) :
    (ofNat n).head? ≠ some c := by
  intro same
  have digit := isDigit_of_mem_ofNat (List.mem_of_head? same)
  rw [h] at digit
  contradiction

private theorem readInt?_ofInt (n : Int) : readInt? (ofInt n) = some n := by
  cases n with
  | ofNat n =>
    have plus := head?_ofNat n (c := '+') (by decide)
    have minus := head?_ofNat n (c := '-') (by decide)
    have value := readNat?_ofNat n
    change readInt? (ofNat n) = some (Int.ofNat n)
    generalize ofNat n = digits at plus minus value
    unfold readInt?
    split
    · exact absurd rfl plus
    · exact absurd rfl minus
    · rw [value]
      rfl
  | negSucc n =>
    change (readNat? (ofNat (n + 1))).map (fun n => -(n : Int)) = some (Int.negSucc n)
    rw [readNat?_ofNat]
    rfl

end Recurrence.Text

namespace Recurrence.BoundedInt

variable {low high : Int}

theorem read?_ofInt (b : BoundedInt low high) : read? (Text.ofInt b.val) = some b := by
  have signed : ¬ ((Text.ofInt b.val).head? = some '-' ∧ 0 ≤ low) := by
    rintro ⟨minus, positive⟩
    have := b.low_le
    cases value : b.val with
    | ofNat n =>
      rw [value] at minus
      exact Text.head?_ofNat n (by decide) minus
    | negSucc n => omega
  unfold read?
  rw [if_neg signed, Text.readInt?_ofInt]
  exact ofInt?_eq_some_iff.2 rfl

end Recurrence.BoundedInt
