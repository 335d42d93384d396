import Recurrence.Proofs.PeriodStarts

set_option autoImplicit false
set_option relaxedAutoImplicit false

/-!
Candidates drawn one at a time. A draw keeps a queue: every turn takes its first candidate and
judges it, or, if there is none, fills the queue from the next period. The queue may stay empty over
many periods, but no period is looked at that begins beyond the bounds or the calendar, and none
twice. So every draw comes to an end, and it has yielded then what the expansion finds.
-/

namespace Recurrence

open Calendar

private theorem Instant.midnight_le_iff {d : Int} {t : Instant} :
    (⟨d, .midnight⟩ : Instant) ≤ t ↔ d ≤ t.day := by
  constructor
  · exact Instant.day_le_of_le
  · intro hd
    rw [Instant.le_iff]
    unfold Instant.position TimeOfDay.midnight TimeOfDay.position
    simp only
    omega

structure Draw where
  /-- The candidates that are not judged yet. -/
  pending : List Instant := []
  /-- The period to fill the queue from next. -/
  period : Nat
  /-- The candidates that count, those before the first period that was looked at included. -/
  counted : Nat
  /-- What has been yielded, the last first. -/
  yielded : List Instant := []
  finished : Bool := false

namespace Draw

def finish (s : Draw) : Draw := { s with finished := true }

def waits (s : Draw) : Bool := !s.finished && s.pending.isEmpty

private theorem waits_iff {s : Draw} : s.waits = true ↔ s.finished = false ∧ s.pending = [] := by
  simp [waits]

end Draw

namespace Pattern

variable {p : Pattern} {start stop c : Instant} {cap k n : Nat} {s : Draw}

/-- Fill the queue from the next period, unless that begins beyond the calendar, the window or the
rule's end. -/
def refill (p : Pattern) (stop : Instant) (s : Draw) : Draw :=
  match p.checkedStart? s.period with
  | none => s.finish
  | some day =>
    if stop < ⟨day, .midnight⟩ then s.finish
    else if p.rule.ends.any (· < ⟨day, .midnight⟩) then s.finish
    else { s with pending := s.pending ++ p.candidates s.period, period := s.period + 1 }

/-- Yield a candidate, leave it out if it lies before the window, or finish. -/
def judge (p : Pattern) (start stop : Instant) (cap : Nat) (c : Instant) (s : Draw) : Draw :=
  if p.rule.ends.any (· < c) then s.finish
  else
    let s : Draw := { s with counted := s.counted + 1 }
    if p.rule.count.any fun count => count.val.toNat < s.counted then s.finish
    else if stop < c then s.finish
    else if c < start then s
    else if cap ≤ s.yielded.length then s.finish
    else { s with yielded := c :: s.yielded }

def turn (p : Pattern) (start stop : Instant) (cap : Nat) (s : Draw) : Draw :=
  if s.finished then s
  else match s.pending with
    | [] => p.refill stop s
    | c :: pending => p.judge start stop cap c { s with pending }

def draw (p : Pattern) (start : Instant) : Draw where
  period := p.firstPeriod start
  counted :=
    if p.rule.count.isSome then
      p.countInPeriods (p.rule.count.map (·.val.toNat)) (p.firstPeriod start)
    else 0

def drawn (p : Pattern) (start stop : Instant) (cap n : Nat) : Draw :=
  (p.turn start stop cap)^[n] (p.draw start)

private theorem drawn_succ (p : Pattern) (start stop : Instant) (cap n : Nat) :
    p.drawn start stop cap (n + 1) = p.turn start stop cap (p.drawn start stop cap n) :=
  Function.iterate_succ_apply' _ _ _

def Begins (p : Pattern) (stop : Instant) (k : Nat) : Prop :=
  ∃ day, p.checkedStart? k = some day ∧ ⟨day, .midnight⟩ ≤ p.bound stop

private theorem bound_lt_of_ends (hends : p.rule.ends.any (· < c) = true) : p.bound stop < c := by
  obtain ⟨t, ht, hlt⟩ := (Option.any_eq_true _ _).1 hends
  exact ((le_bound_iff.1 le_rfl).2 t ht).trans_lt (of_decide_eq_true hlt)

private theorem bound_lt_of_stop (hstop : stop < c) : p.bound stop < c :=
  (le_bound_iff.1 le_rfl).1.trans_lt hstop

private theorem le_bound_of_not (hends : ¬ p.rule.ends.any (· < c) = true) (hstop : ¬ stop < c) :
    c ≤ p.bound stop := by
  refine le_bound_iff.2 ⟨not_lt.1 hstop, fun t ht => not_lt.1 fun hlt => hends ?_⟩
  exact (Option.any_eq_true _ _).2 ⟨t, ht, decide_eq_true hlt⟩

private theorem refill_of_begins (h : p.Begins stop s.period) : p.refill stop s =
    { s with pending := s.pending ++ p.candidates s.period, period := s.period + 1 } := by
  obtain ⟨day, hday, hle⟩ := h
  unfold refill
  simp only [hday]
  rw [if_neg fun hstop => not_le.2 (bound_lt_of_stop hstop) hle,
    if_neg fun hends => not_le.2 (bound_lt_of_ends hends) hle]

private theorem refill_of_not_begins (h : ¬ p.Begins stop s.period) :
    p.refill stop s = s.finish := by
  unfold refill
  cases hday : p.checkedStart? s.period with
  | none => rfl
  | some day =>
    simp only
    split_ifs with hstop hends
    · rfl
    · rfl
    · exact absurd ⟨day, hday, le_bound_of_not hends hstop⟩ h

/-- The candidates ahead: the queue, and those of the periods that begin within the bounds. -/
def ahead (p : Pattern) (stop : Instant) (s : Draw) : List Instant :=
  s.pending ++ p.enumerate s.period (p.periodsBy (p.bound stop).day - s.period)

def leftAfter (p : Pattern) (counted : Nat) : Option Nat :=
  (p.rule.count.map (·.val.toNat)).map (· - counted)

def outcome (p : Pattern) (start stop : Instant) (cap : Nat) (s : Draw) : List Instant :=
  s.yielded.reverse ++ if s.finished then [] else
    choose start (p.bound stop) (p.leftAfter s.counted) (cap - s.yielded.length) (p.ahead stop s)

def turnsLeft (p : Pattern) (stop : Instant) (s : Draw) : Nat :=
  if s.finished then 0
  else p.periodsBy (p.bound stop).day - s.period + (p.ahead stop s).length + 1

private theorem begins_iff (hp : firstDay ≤ p.periodStart 0) : p.Begins stop k ↔
    p.periodStart k ≤ lastDay ∧ k < p.periodsBy (p.bound stop).day := by
  have hunit : p.periodStart k ≤ (p.bound stop).day ↔ k < p.periodsBy (p.bound stop).day := by
    rw [lt_periodsBy_iff]
    exact Frequency.unitStart_le_iff
  unfold Begins
  simp only [checkedStart?_eq_some_iff hp, Instant.midnight_le_iff]
  constructor
  · rintro ⟨_, ⟨rfl, hlast⟩, hle⟩
    exact ⟨hlast, hunit.1 hle⟩
  · rintro ⟨hlast, hlt⟩
    exact ⟨_, ⟨rfl, hlast⟩, hunit.2 hlt⟩

private theorem candidates_eq_nil_of_lastDay_lt (hk : lastDay < p.periodStart k) :
    p.candidates k = [] := by
  unfold candidates days
  rw [if_neg (not_le.2 hk)]
  rfl

private theorem enumerate_eq_nil_of_not_begins (hp : firstDay ≤ p.periodStart 0)
    (hk : ¬ p.Begins stop k) :
    p.enumerate k (p.periodsBy (p.bound stop).day - k) = [] := by
  rw [begins_iff hp, not_and_or, not_le, not_lt] at hk
  rcases hk with hlate | hdone
  · -- Behind the calendar's last day all later periods are empty.
    unfold enumerate
    rw [List.flatMap_eq_nil_iff]
    intro j hj
    have hlater := p.periodStart_mono (List.mem_range'_1.1 hj).1
    exact candidates_eq_nil_of_lastDay_lt (hlate.trans_le hlater)
  · rw [Nat.sub_eq_zero_of_le hdone, enumerate_zero]

private theorem ahead_filled (hp : firstDay ≤ p.periodStart 0) (hbegins : p.Begins stop s.period) :
    p.ahead stop
        { s with pending := s.pending ++ p.candidates s.period, period := s.period + 1 } =
      p.ahead stop s := by
  have hlt := ((begins_iff hp).1 hbegins).2
  have hsplit : p.periodsBy (p.bound stop).day - s.period =
      p.periodsBy (p.bound stop).day - (s.period + 1) + 1 := by omega
  unfold ahead
  rw [hsplit, enumerate_succ, List.append_assoc]

private theorem leftAfter_succ (p : Pattern) (counted : Nat) :
    p.leftAfter (counted + 1) = (p.leftAfter counted).map (· - 1) := by
  unfold leftAfter
  rw [Option.map_map, Option.map_map, Option.map_map]
  rfl

private theorem leftAfter_eq_some_zero {counted : Nat}
    (hcount : (p.rule.count.any fun count => count.val.toNat < counted + 1) = true) :
    p.leftAfter counted = some 0 := by
  obtain ⟨count, hcount, hlt⟩ := (Option.any_eq_true _ _).1 hcount
  have hnone : count.val.toNat - counted = 0 := by
    have hless := of_decide_eq_true hlt
    omega
  unfold leftAfter
  rw [hcount, Option.map_some, Option.map_some, hnone]

private theorem upTo_singleton {counted : Nat}
    (hcount : ¬ (p.rule.count.any fun count => count.val.toNat < counted + 1) = true) :
    upTo (p.leftAfter counted) [c] = [c] := by
  unfold leftAfter
  cases hn : p.rule.count with
  | none => rfl
  | some count =>
    rw [hn, Option.any_some, decide_eq_true_eq] at hcount
    simp only [Option.map_some, upTo]
    refine List.take_of_length_le ?_
    rw [List.length_singleton]
    omega

private theorem choose_beyond {bound : Instant} {left : Option Nat} {room : Nat} {cs : List Instant}
    (hcs : (c :: cs).Pairwise (· < ·)) (hbound : bound < c) :
    choose start bound left room (c :: cs) = [] := by
  refine choose_eq_nil_of_outside fun b hb hinside => absurd hinside.2 (not_le.2 ?_)
  rcases List.mem_cons.1 hb with rfl | hb
  · exact hbound
  · exact hbound.trans ((List.pairwise_cons.1 hcs).1 b hb)

private theorem choose_skipped {bound : Instant} {counted room : Nat} (cs : List Instant)
    (hcount : ¬ (p.rule.count.any fun count => count.val.toNat < counted + 1) = true)
    (hstart : c < start) : choose start bound (p.leftAfter counted) room (c :: cs) =
      choose start bound (p.leftAfter (counted + 1)) room cs := by
  have hskipped : choose start bound (p.leftAfter counted) room [c] = [] := by
    unfold choose
    rw [upTo_singleton hcount]
    simp [not_le.2 hstart]
  rw [choose_cons, hskipped, List.nil_append, List.length_nil, Nat.sub_zero, leftAfter_succ]

private theorem choose_taken {bound : Instant} {counted room : Nat} (cs : List Instant)
    (hcount : ¬ (p.rule.count.any fun count => count.val.toNat < counted + 1) = true)
    (hstart : start ≤ c) (hbound : c ≤ bound) (hroom : 0 < room) :
    choose start bound (p.leftAfter counted) room (c :: cs) =
      c :: choose start bound (p.leftAfter (counted + 1)) (room - 1) cs := by
  have htaken : choose start bound (p.leftAfter counted) room [c] = [c] := by
    have hlength : [c].length ≤ room := hroom
    unfold choose
    rw [upTo_singleton hcount]
    simp [hstart, hbound, List.take_of_length_le hlength]
  rw [choose_cons, htaken, List.length_singleton, leftAfter_succ]
  rfl

private theorem outcome_finish (s : Draw) :
    p.outcome start stop cap s.finish = s.yielded.reverse := by
  simp [outcome, Draw.finish]

private theorem outcome_of_not_finished (hfinished : s.finished = false) :
    p.outcome start stop cap s = s.yielded.reverse ++
      choose start (p.bound stop) (p.leftAfter s.counted) (cap - s.yielded.length)
        (p.ahead stop s) := by
  unfold outcome
  rw [if_neg (by simp [hfinished])]

private theorem ahead_of_pending {pending : List Instant} (hpending : s.pending = c :: pending) :
    p.ahead stop s = c :: p.ahead stop { s with pending } := by
  unfold ahead
  rw [hpending, List.cons_append]

private theorem outcome_judge {pending : List Instant} (hpending : s.pending = c :: pending)
    (hfinished : s.finished = false) (hahead : (p.ahead stop s).Pairwise (· < ·)) :
    p.outcome start stop cap (p.judge start stop cap c { s with pending }) =
      p.outcome start stop cap s := by
  rw [outcome_of_not_finished hfinished]
  rw [ahead_of_pending hpending] at hahead ⊢
  unfold judge
  simp only
  -- Where the draw finishes, nothing more would be chosen of what is ahead.
  split_ifs with hends hcount hstop hstart hroom
  · rw [outcome_finish, choose_beyond hahead (bound_lt_of_ends hends), List.append_nil]
  · rw [outcome_finish, leftAfter_eq_some_zero hcount, choose_of_none_left, List.append_nil]
  · rw [outcome_finish, choose_beyond hahead (bound_lt_of_stop hstop), List.append_nil]
  · rw [choose_skipped _ hcount hstart]
    exact outcome_of_not_finished hfinished
  · rw [outcome_finish, Nat.sub_eq_zero_of_le hroom, choose_of_no_room, List.append_nil]
  · rw [choose_taken _ hcount (not_lt.1 hstart) (le_bound_of_not hends hstop) (by omega)]
    apply (outcome_of_not_finished _).trans
    · rw [List.reverse_cons, List.append_assoc, List.length_cons, ← Nat.sub_sub]
      rfl
    · exact hfinished

inductive Turned (p : Pattern) (start stop : Instant) (cap : Nat) (s : Draw) : Draw → Prop
  | rested (hfinished : s.finished = true) : Turned p start stop cap s s
  | filled (hwaits : s.waits = true) (hbegins : p.Begins stop s.period) :
    Turned p start stop cap s
      { s with pending := s.pending ++ p.candidates s.period, period := s.period + 1 }
  | ended (hwaits : s.waits = true) (hbegins : ¬ p.Begins stop s.period) :
    Turned p start stop cap s s.finish
  | judged {c : Instant} {pending : List Instant} (hfinished : s.finished = false)
    (hpending : s.pending = c :: pending) :
    Turned p start stop cap s (p.judge start stop cap c { s with pending })

private theorem turned_turn (p : Pattern) (start stop : Instant) (cap : Nat) (s : Draw) :
    p.Turned start stop cap s (p.turn start stop cap s) := by
  unfold turn
  split_ifs with hfinished
  · exact .rested hfinished
  · split
    · rename_i hpending
      have hwaits : s.waits = true := by simp [Draw.waits, hfinished, hpending]
      by_cases hbegins : p.Begins stop s.period
      · rw [refill_of_begins hbegins]
        exact .filled hwaits hbegins
      · rw [refill_of_not_begins hbegins]
        exact .ended hwaits hbegins
    · rename_i c pending hpending
      exact .judged (Bool.not_eq_true _ ▸ hfinished) hpending

private theorem pending_judge (s : Draw) : (p.judge start stop cap c s).pending = s.pending := by
  unfold judge
  simp only
  split_ifs <;> rfl

private theorem period_judge (s : Draw) : (p.judge start stop cap c s).period = s.period := by
  unfold judge
  simp only
  split_ifs <;> rfl

private theorem ahead_judge (s : Draw) :
    p.ahead stop (p.judge start stop cap c s) = p.ahead stop s := by
  unfold ahead
  rw [pending_judge, period_judge]

private theorem turnsLeft_le (s : Draw) : p.turnsLeft stop s ≤
    p.periodsBy (p.bound stop).day - s.period + (p.ahead stop s).length + 1 := by
  unfold turnsLeft
  split_ifs
  · exact Nat.zero_le _
  · exact le_rfl

private theorem turnsLeft_of_not_finished (hfinished : s.finished = false) : p.turnsLeft stop s =
    p.periodsBy (p.bound stop).day - s.period + (p.ahead stop s).length + 1 := by
  unfold turnsLeft
  rw [hfinished, if_neg Bool.false_ne_true]

namespace Turned

variable {s' : Draw}

private theorem outcome_eq (hp : firstDay ≤ p.periodStart 0) (h : p.Turned start stop cap s s')
    (hahead : (p.ahead stop s).Pairwise (· < ·)) :
    p.outcome start stop cap s' = p.outcome start stop cap s := by
  cases h with
  | rested => rfl
  | filled hwaits hbegins =>
    unfold outcome
    rw [ahead_filled hp hbegins]
  | ended hwaits hbegins =>
    have hnone : p.ahead stop s = [] := by
      unfold ahead
      rw [(Draw.waits_iff.1 hwaits).2, enumerate_eq_nil_of_not_begins hp hbegins, List.nil_append]
    rw [outcome_finish]
    unfold outcome
    rw [hnone, choose_eq_nil_of_outside fun c hc => absurd hc List.not_mem_nil]
    simp
  | judged hfinished hpending => exact outcome_judge hpending hfinished hahead

private theorem ahead_sublist (hp : firstDay ≤ p.periodStart 0) (h : p.Turned start stop cap s s') :
    (p.ahead stop s').Sublist (p.ahead stop s) := by
  cases h with
  | rested => exact List.Sublist.refl _
  | filled hwaits hbegins => rw [ahead_filled hp hbegins]
  | ended => exact List.Sublist.refl _
  | judged hfinished hpending =>
    rw [ahead_judge, ahead_of_pending hpending]
    exact List.sublist_cons_self _ _

private theorem turnsLeft_lt (hp : firstDay ≤ p.periodStart 0) (h : p.Turned start stop cap s s')
    (hfinished : s.finished = false) : p.turnsLeft stop s' < p.turnsLeft stop s := by
  rw [turnsLeft_of_not_finished hfinished]
  cases h with
  | rested hover =>
    rw [hfinished] at hover
    cases hover
  | filled hwaits hbegins =>
    have hlt := ((begins_iff hp).1 hbegins).2
    refine (turnsLeft_le _).trans_lt ?_
    rw [ahead_filled hp hbegins]
    simp only
    omega
  | ended =>
    rw [show p.turnsLeft stop s.finish = 0 from rfl]
    exact Nat.succ_pos _
  | judged _ hpending =>
    refine (turnsLeft_le _).trans_lt ?_
    rw [ahead_judge, period_judge, ahead_of_pending hpending, List.length_cons]
    simp only
    omega

private theorem period_eq (h : p.Turned start stop cap s s') : s'.period = s.period ∨
    s.waits = true ∧ p.Begins stop s.period ∧ s'.period = s.period + 1 := by
  cases h with
  | rested => exact Or.inl rfl
  | filled hwaits hbegins => exact Or.inr ⟨hwaits, hbegins, rfl⟩
  | ended => exact Or.inl rfl
  | judged => exact Or.inl (period_judge _)

private theorem refill_le (h : p.Turned start stop cap s s') :
    s.period + s.waits.toNat + s.finished.toNat ≤ s'.period + s'.finished.toNat := by
  cases h with
  | rested hfinished => simp [Draw.waits, hfinished]
  | filled hwaits =>
    simp only [hwaits, (Draw.waits_iff.1 hwaits).1, Bool.toNat_true, Bool.toNat_false]
    exact le_rfl
  | ended hwaits =>
    simp only [hwaits, (Draw.waits_iff.1 hwaits).1, Draw.finish, Bool.toNat_true, Bool.toNat_false]
    exact le_rfl
  | judged hfinished hpending =>
    have hbusy : s.waits = false := by simp [Draw.waits, hpending]
    rw [period_judge, hbusy, hfinished]
    exact Nat.le_add_right _ _

end Turned

/-- The periods whose candidates the first turns put into the queue, in order. -/
def looked (p : Pattern) (start stop : Instant) (cap n : Nat) : List Nat :=
  (List.range n).filterMap fun i =>
    if (p.drawn start stop cap i).period < (p.drawn start stop cap (i + 1)).period then
      some (p.drawn start stop cap i).period
    else none

/-- How many of the first turns fill the queue or find nothing to fill it with. -/
def refills (p : Pattern) (start stop : Instant) (cap n : Nat) : Nat :=
  (List.range n).countP fun i => (p.drawn start stop cap i).waits

private theorem turned_drawn (p : Pattern) (start stop : Instant) (cap n : Nat) :
    p.Turned start stop cap (p.drawn start stop cap n) (p.drawn start stop cap (n + 1)) := by
  rw [drawn_succ]
  exact p.turned_turn start stop cap _

private theorem ahead_drawn_ascending (hp : firstDay ≤ p.periodStart 0) (start stop : Instant)
    (cap n : Nat) : (p.ahead stop (p.drawn start stop cap n)).Pairwise (· < ·) := by
  induction n with
  | zero => exact p.enumerate_ascending _ _
  | succ n ih => exact ih.sublist ((p.turned_drawn start stop cap n).ahead_sublist hp)

/-- What has been yielded and what would be chosen of the rest are together what the expansion
finds, after any number of turns. -/
private theorem outcome_drawn (hp : firstDay ≤ p.periodStart 0) (start stop : Instant)
    (cap n : Nat) : p.outcome start stop cap (p.drawn start stop cap n) =
      (p.expand cap start stop).candidates := by
  induction n with
  | zero =>
    have hcounted : (p.draw start).counted = (p.expand cap start stop).alreadyCounted := by
      unfold draw expand
      simp
    rw [expand_candidates, ← hcounted]
    rfl
  | succ n ih =>
    rw [(p.turned_drawn start stop cap n).outcome_eq hp (ahead_drawn_ascending hp start stop cap n),
      ih]

private theorem drawn_succ_of_finished (hfinished : (p.drawn start stop cap n).finished = true) :
    p.drawn start stop cap (n + 1) = p.drawn start stop cap n := by
  rw [drawn_succ]
  unfold turn
  rw [if_pos hfinished]

private theorem finished_drawn_or (hp : firstDay ≤ p.periodStart 0) (start stop : Instant)
    (cap n : Nat) : (p.drawn start stop cap n).finished = true ∨
      p.turnsLeft stop (p.drawn start stop cap n) + n ≤ p.turnsLeft stop (p.draw start) := by
  induction n with
  | zero => exact Or.inr le_rfl
  | succ n ih =>
    cases hfinished : (p.drawn start stop cap n).finished with
    | true => exact Or.inl (by rw [drawn_succ_of_finished hfinished, hfinished])
    | false =>
      have hlt := (p.turned_drawn start stop cap n).turnsLeft_lt hp hfinished
      rcases ih with hover | hle
      · rw [hfinished] at hover
        cases hover
      · exact Or.inr (by omega)

/-- A draw ends within as many turns as there are periods and candidates ahead, and one more. -/
private theorem finished_drawn (hp : firstDay ≤ p.periodStart 0)
    (hn : p.turnsLeft stop (p.draw start) ≤ n) : (p.drawn start stop cap n).finished = true := by
  rcases finished_drawn_or hp start stop cap n with hfinished | hle
  · exact hfinished
  · cases hfinished : (p.drawn start stop cap n).finished with
    | true => rfl
    | false =>
      rw [turnsLeft_of_not_finished hfinished] at hle
      omega

private theorem yielded_drawn (hp : firstDay ≤ p.periodStart 0)
    (hfinished : (p.drawn start stop cap n).finished = true) :
    (p.drawn start stop cap n).yielded.reverse = (p.expand cap start stop).candidates := by
  rw [← outcome_drawn hp start stop cap n]
  unfold outcome
  rw [hfinished, if_pos rfl, List.append_nil]

private theorem looked_succ (p : Pattern) (start stop : Instant) (cap n : Nat) :
    p.looked start stop cap (n + 1) = p.looked start stop cap n ++
      if (p.drawn start stop cap n).period < (p.drawn start stop cap (n + 1)).period then
        [(p.drawn start stop cap n).period]
      else [] := by
  unfold looked
  rw [List.range_succ, List.filterMap_append]
  split_ifs with hmoved <;> simp [hmoved]

private theorem looked_eq (p : Pattern) (start stop : Instant) (cap n : Nat) :
    p.firstPeriod start ≤ (p.drawn start stop cap n).period ∧
      p.looked start stop cap n = List.range' (p.firstPeriod start)
        ((p.drawn start stop cap n).period - p.firstPeriod start) := by
  induction n with
  | zero =>
    refine ⟨le_rfl, ?_⟩
    rw [show (p.drawn start stop cap 0).period = p.firstPeriod start from rfl, Nat.sub_self]
    rfl
  | succ n ih =>
    obtain ⟨hle, hlooked⟩ := ih
    rw [looked_succ, hlooked]
    rcases (p.turned_drawn start stop cap n).period_eq with hsame | ⟨-, -, hnext⟩
    · rw [hsame, if_neg (lt_irrefl _), List.append_nil]
      exact ⟨hle, rfl⟩
    · rw [hnext, if_pos (Nat.lt_succ_self _), Nat.sub_add_comm hle, List.range'_concat,
        Nat.one_mul, Nat.add_sub_cancel' hle]
      exact ⟨hle.trans (Nat.le_succ _), rfl⟩

private theorem begins_of_lt_drawn (hlow : p.firstPeriod start ≤ k)
    (hk : k < (p.drawn start stop cap n).period) : p.Begins stop k := by
  induction n with
  | zero => exact absurd hk (Nat.not_lt.2 hlow)
  | succ n ih =>
    rcases (p.turned_drawn start stop cap n).period_eq with hsame | ⟨-, hbegins, hnext⟩
    · exact ih (hsame ▸ hk)
    · rcases Nat.lt_succ_iff_lt_or_eq.1 (hnext ▸ hk) with hlt | rfl
      · exact ih hlt
      · exact hbegins

private theorem mem_looked (hk : k ∈ p.looked start stop cap n) :
    p.firstPeriod start ≤ k ∧ p.Begins stop k := by
  obtain ⟨hle, hlooked⟩ := p.looked_eq start stop cap n
  rw [hlooked, List.mem_range'_1] at hk
  have hlt : k < (p.drawn start stop cap n).period := by omega
  exact ⟨hk.1, begins_of_lt_drawn hk.1 hlt⟩

private theorem refills_succ (p : Pattern) (start stop : Instant) (cap n : Nat) :
    p.refills start stop cap (n + 1) =
      p.refills start stop cap n + (p.drawn start stop cap n).waits.toNat := by
  unfold refills
  rw [List.range_succ, List.countP_append, List.countP_singleton]
  cases (p.drawn start stop cap n).waits <;> rfl

private theorem refills_le (p : Pattern) (start stop : Instant) (cap n : Nat) :
    p.refills start stop cap n ≤ (p.looked start stop cap n).length + 1 := by
  have hperiods : p.firstPeriod start + p.refills start stop cap n ≤
      (p.drawn start stop cap n).period + (p.drawn start stop cap n).finished.toNat := by
    induction n with
    | zero => exact Nat.le_add_right _ _
    | succ n ih =>
      have hstep := (p.turned_drawn start stop cap n).refill_le
      rw [refills_succ]
      omega
  have hlast := Bool.toNat_le (p.drawn start stop cap n).finished
  rw [(p.looked_eq start stop cap n).2, List.length_range']
  omega

private theorem length_looked_le (p : Pattern) (start stop : Instant) (cap n : Nat) :
    ((p.looked start stop cap n).length : ENat) ≤
      {k | p.firstPeriod start ≤ k ∧ p.Begins stop k}.encard := by
  have hascending : (p.looked start stop cap n).Pairwise (· < ·) := by
    rw [(p.looked_eq start stop cap n).2]
    exact List.pairwise_lt_range'
  rw [← Ascending.encard_eq_length hascending]
  refine Set.encard_le_encard fun k hk => ?_
  exact mem_looked hk

end Pattern

namespace Series

/-- Drawing candidates until there are none ends, and yields what the expansion finds. On the way
consecutive periods are looked at, each of which begins in time; there are finitely many of those,
and the queue is filled at most once more. Periods begin one after the other, and none after one
that the calendar does not have. -/
theorem expand_by_drawing (r : Rule) (anchor start stop : Instant) (cap : Nat)
    (hp : (Pattern.of r anchor).checkStart = .ok ()) :
    let p : Pattern := .of r anchor
    (∃ (e : Expansion) (n : Nat), (⟨some r, anchor⟩ : Series).expand cap start stop = .ok e ∧
      ∀ more, (p.drawn start stop cap (n + more)).finished = true ∧
        (p.drawn start stop cap (n + more)).yielded.reverse = e.candidates) ∧
    (∀ n, ∃ m, p.looked start stop cap n = List.range' (p.firstPeriod start) m ∧
      ∀ k ∈ p.looked start stop cap n, p.Begins stop k) ∧
    {k | p.Begins stop k}.Finite ∧
    (∀ n, (p.refills start stop cap n : ENat) ≤
      {k | p.firstPeriod start ≤ k ∧ p.Begins stop k}.encard + 1) ∧
    (∀ j k a b, j < k → p.checkedStart? j = some a → p.checkedStart? k = some b → a < b) ∧
    ∀ j k, j ≤ k → p.checkedStart? j = none → p.checkedStart? k = none := by
  intro p
  have hfirst : firstDay ≤ p.periodStart 0 := Pattern.firstDay_le_periodStart hp
  refine ⟨⟨p.expand cap start stop, p.turnsLeft stop (p.draw start),
    expand_of_checkStart hp cap start stop, fun more => ?_⟩, fun n => ?_, ?_, fun n => ?_,
    fun j k a b hjk ha hb => ?_, fun j k hjk hj => ?_⟩
  · have hfinished : (p.drawn start stop cap (p.turnsLeft stop (p.draw start) + more)).finished =
        true := Pattern.finished_drawn hfirst (Nat.le_add_right _ _)
    exact ⟨hfinished, Pattern.yielded_drawn hfirst hfinished⟩
  · exact ⟨_, (p.looked_eq start stop cap n).2, fun k hk => (Pattern.mem_looked hk).2⟩
  · refine (Set.finite_lt_nat (p.periodsBy (p.bound stop).day)).subset fun k hk => ?_
    exact ((Pattern.begins_iff hfirst).1 hk).2
  · refine le_trans (Nat.cast_le.2 (p.refills_le start stop cap n)) ?_
    rw [Nat.cast_succ]
    exact add_le_add_left (p.length_looked_le start stop cap n) 1
  · obtain ⟨rfl, -⟩ := (Pattern.checkedStart?_eq_some_iff hfirst).1 ha
    obtain ⟨rfl, -⟩ := (Pattern.checkedStart?_eq_some_iff hfirst).1 hb
    exact p.periodStart_lt hjk
  · rw [Pattern.checkedStart?_eq_none_iff hfirst] at hj ⊢
    rcases hjk.eq_or_lt with rfl | hlt
    · exact hj
    · exact hj.trans (p.periodStart_lt hlt)

/-- A rule for the 30th of February, in every 131072nd year, never recurs. Up to the end of the
calendar the years 2024 and 133096 are looked at; the next one is not in the calendar, and no later
one is. -/
theorem expand_thirtieth_of_february :
    let p : Pattern := .of { frequency := .yearly
                             interval := ⟨131072, by decide, by decide⟩
                             months := .ofList [⟨2, by decide, by decide⟩]
                             monthDays := .ofList [⟨30, by decide, by decide⟩] }
      (.nine 2024 1 1)
    p.checkStart = .ok () ∧ p.looked (.nine 2024 1 1) .last 5 9 = [0, 1] ∧
      p.refills (.nine 2024 1 1) .last 5 9 = 3 ∧
      (∃ n, ∀ more, (p.drawn (.nine 2024 1 1) .last 5 (n + more)).finished = true) ∧
      p.checkedStart? 1 = some (Calendar.day 133096 1 1) ∧ ∀ k, 2 ≤ k → p.checkedStart? k = none := by
  intro p
  have hp : p.checkStart = .ok () := by decide +kernel
  have hnone : p.checkedStart? 2 = none := by decide +kernel
  obtain ⟨⟨e, n, -, hdrawn⟩, -, -, -, -, hafter⟩ :=
    expand_by_drawing p.rule p.anchor (.nine 2024 1 1) .last 5 hp
  refine ⟨hp, by decide +kernel, by decide +kernel, ⟨n, fun more => (hdrawn more).1⟩,
    by decide +kernel, fun k hk => hafter 2 k hk hnone⟩

end Series

end Recurrence
