import Recurrence.Instant.Text
import Recurrence.Proofs.ClockTimes
import Recurrence.Proofs.OrdinaryTime
import Recurrence.Proofs.TextLaws

set_option autoImplicit false
set_option relaxedAutoImplicit false

/-!
The compact form of instants, read back. It has no place for a fraction of a second, so what is read
is the beginning of the second; a leap second is written as second 60 and read as one.
-/

namespace Recurrence.Instant

open Recurrence.Text Recurrence.Calendar

variable {t : Instant}

structure PlainYear (t : Instant) : Prop where
  from_zero : 0 ≤ yearOf t.day
  to_last : yearOf t.day ≤ 9999

private theorem isLeap_truncate_eq (t : Instant) : t.truncate.time.isLeap = t.time.isLeap := by
  unfold TimeOfDay.isLeap
  rw [nano_truncate]
  unfold TimeOfDay.isLeap
  split <;> simp_all

theorem compactText_truncate (t : Instant) : t.truncate.compactText = t.compactText := by
  have hleap := isLeap_truncate_eq t
  simp only [compactText, writtenSecond, TimeOfDay.hour, TimeOfDay.minute,
    TimeOfDay.secondOfMinute, day_truncate, second_truncate, hleap]

private theorem writtenSecond_lt (c : TimeOfDay) : writtenSecond c < 100 := by
  have hsecond := c.secondOfMinute_lt
  unfold writtenSecond
  split <;> omega

private theorem timeOf?_writtenSecond (c : TimeOfDay) :
    timeOf? c.hour c.minute (writtenSecond c) 0 = some c.truncate := by
  have hsecond := c.secondOfMinute_lt
  unfold timeOf? writtenSecond TimeOfDay.isLeap TimeOfDay.truncate
  by_cases hleap : 1000000000 ≤ c.nano
  · have hend : c.secondOfMinute = 59 := c.leap_at_minute_end hleap
    simp only [hleap, decide_true, if_true, hend, dif_pos]
    exact TimeOfDay.ofClock?_eq_some_iff.2 ⟨rfl, rfl, hend, rfl⟩
  · simp only [hleap, decide_false, Bool.false_eq_true, if_false, Nat.add_zero, dif_neg,
      not_false_eq_true]
    rw [if_neg (by omega)]
    exact TimeOfDay.ofClock?_eq_some_iff.2 ⟨rfl, rfl, rfl, rfl⟩

private theorem day?_date {d : Int} (hlow : firstYear ≤ yearOf d) (hhigh : yearOf d ≤ lastYear) :
    day? (date d).year (date d).month (date d).dayOfMonth = some d := by
  obtain ⟨hmonth, hyear, hfirst, hlast⟩ := date_bounds d
  unfold day?
  rw [if_pos ⟨hlow, hhigh, hmonth, hyear, hfirst, hlast⟩, day_date]

private theorem exists_padded_eq_cons (width n : Nat) :
    ∃ c rest, padded width n = c :: rest ∧ c.isDigit = true := by
  cases hdigits : padded width n with
  | nil => exact absurd hdigits (padded_ne_nil width n)
  | cons c rest =>
    have hc : c ∈ padded width n := hdigits ▸ List.mem_cons_self
    exact ⟨c, rest, rfl, isDigit_of_mem_padded hc⟩

private theorem trimStart_padded (width n : Nat) (rest : List Char) :
    trimStart (padded width n ++ rest) = padded width n ++ rest := by
  obtain ⟨c, digits, hdigits, hc⟩ := exists_padded_eq_cons width n
  rw [hdigits, List.cons_append]
  exact trimStart_of_plain (isPlain_of_isDigit hc)

private theorem readPair?_padded {n : Nat} (hn : n < 100) (rest : List Char) :
    readPair? (padded 2 n ++ rest) = some (n, rest) := by
  unfold readPair?
  rw [trimStart_padded, takeDigits?_padded (by decide) hn]

private theorem readYear?_padded {n : Nat} (hn : n < 10000) (rest : List Char) :
    readYear? (padded 4 n ++ rest) = some ((n : Int), rest) := by
  have htaken : takeDigits? 4 (padded 4 n ++ rest) = some (n, rest) :=
    takeDigits?_padded (by decide) hn rest
  obtain ⟨c, digits, hdigits, hc⟩ := exists_padded_eq_cons 4 n
  unfold readYear?
  rw [trimStart_padded]
  rw [hdigits, List.cons_append] at htaken ⊢
  split
  · rename_i heq
    cases heq
    exact absurd hc (by decide)
  · rename_i heq
    cases heq
    exact absurd hc (by decide)
  · rw [htaken]
    rfl

private theorem compactText_eq (ht : t.PlainYear) :
    t.compactText = padded 4 (yearOf t.day).toNat ++ (padded 2 (date t.day).month ++
      (padded 2 (date t.day).dayOfMonth ++ 'T' :: (padded 2 t.time.hour ++
        (padded 2 t.time.minute ++ (padded 2 (writtenSecond t.time) ++ ['Z']))))) := by
  have hyear : yearText (date t.day).year = padded 4 (yearOf t.day).toNat :=
    if_pos ⟨ht.from_zero, ht.to_last⟩
  simp only [compactText, hyear, List.append_assoc, List.cons_append]

theorem readCompact?_compactText (ht : t.PlainYear) :
    readCompact? t.compactText = some t.truncate := by
  have hyears := ht.to_last
  obtain ⟨-, hmonth, -, hlast⟩ := date_bounds t.day
  have hlength := monthLength_bounds (date t.day).year (date t.day).month
  have hfirst : firstYear ≤ 0 := by decide
  have hend : 9999 ≤ lastYear := by decide
  have hsecond := t.time.second_lt
  have hhour : t.time.hour < 100 := by
    unfold TimeOfDay.hour
    omega
  have hminute := t.time.minute_lt
  have hdate : readCompactDate? t.compactText = some (t.day, 'T' :: (padded 2 t.time.hour ++
      (padded 2 t.time.minute ++ (padded 2 (writtenSecond t.time) ++ ['Z'])))) := by
    have hyear : (((yearOf t.day).toNat : Nat) : Int) = (date t.day).year :=
      Int.toNat_of_nonneg ht.from_zero
    rw [compactText_eq ht]
    unfold readCompactDate?
    rw [readYear?_padded (by omega)]
    simp only [Option.bind_eq_bind, Option.bind_some, hyear,
      readPair?_padded (show (date t.day).month < 100 by omega),
      readPair?_padded (show (date t.day).dayOfMonth < 100 by omega),
      day?_date (hfirst.trans ht.from_zero) (ht.to_last.trans hend)]
    rfl
  have htime : t.compactText.contains 'T' = true := by
    rw [compactText_eq ht]
    simp
  unfold readCompact?
  rw [hdate]
  simp only [Option.bind_eq_bind, Option.bind_some, htime, if_true, after?, readPair?_padded hhour,
    readPair?_padded (show t.time.minute < 100 by omega),
    readPair?_padded (writtenSecond_lt t.time), timeOf?_writtenSecond, or_true]
  rfl

private theorem isPlain_of_mem_padded {width n : Nat} {c : Char} (hc : c ∈ padded width n) :
    isPlain c = true :=
  isPlain_of_isDigit (isDigit_of_mem_padded hc)

private theorem isPlain_of_mem_yearText {year : Int} {c : Char} (hc : c ∈ yearText year) :
    isPlain c = true := by
  unfold yearText at hc
  split at hc
  · exact isPlain_of_mem_padded hc
  · split at hc
    · rcases List.mem_cons.1 hc with rfl | hc
      · decide
      · exact isPlain_of_mem_padded hc
    · rcases List.mem_cons.1 hc with rfl | hc
      · decide
      · exact isPlain_of_mem_padded hc

theorem isPlain_of_mem_compactText {c : Char} (hc : c ∈ t.compactText) : isPlain c = true := by
  simp only [compactText, List.mem_append, List.mem_cons, List.not_mem_nil, or_false] at hc
  rcases hc with (((((hc | hc) | hc) | rfl | hc) | hc) | hc) | rfl
  · exact isPlain_of_mem_yearText hc
  · exact isPlain_of_mem_padded hc
  · exact isPlain_of_mem_padded hc
  · decide
  · exact isPlain_of_mem_padded hc
  · exact isPlain_of_mem_padded hc
  · exact isPlain_of_mem_padded hc
  · decide

end Recurrence.Instant
