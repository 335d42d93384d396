import Mathlib.Data.List.Sort
import Recurrence.Occurrence
import Recurrence.Proofs.AscendingLists
import Recurrence.Proofs.InnerInstants

set_option autoImplicit false
set_option relaxedAutoImplicit false

/-!
The order in which occurrences are reported. Sorting is stable, so occurrences that start alike and
come from equal candidates stay in the order of their segments, and cutting every segment's
occurrences to a length before they are merged does not change that many first ones.
-/

namespace Recurrence.Occurrence

variable {ids : List ObjectId} {a b c d : Occurrence}

/-- The strict order by start, then by candidate. -/
def Earlier (a b : Occurrence) : Prop :=
  a.start < b.start ∨ (a.start = b.start ∧ a.candidate < b.candidate)

/-- The strict order by start, then by candidate, then by the place of the segment in a chain. -/
def Before (ids : List ObjectId) (a b : Occurrence) : Prop :=
  a.Earlier b ∨ (a.start = b.start ∧ a.candidate = b.candidate ∧
    ids.idxOf a.segment < ids.idxOf b.segment)

theorem Earlier.trans (hab : a.Earlier b) (hbc : b.Earlier c) : a.Earlier c := by
  unfold Earlier at *
  rcases hab with hab | ⟨hab, hab'⟩
  · rcases hbc with hbc | ⟨hbc, -⟩
    · exact Or.inl (hab.trans hbc)
    · exact Or.inl (hbc ▸ hab)
  · rcases hbc with hbc | ⟨hbc, hbc'⟩
    · exact Or.inl (hab ▸ hbc)
    · exact Or.inr ⟨hab.trans hbc, hab'.trans hbc'⟩

private theorem earlier_congr (hab : a.start = b.start) (hab' : a.candidate = b.candidate)
    (hcd : c.start = d.start) (hcd' : c.candidate = d.candidate) :
    a.Earlier c ↔ b.Earlier d := by
  unfold Earlier
  rw [hab, hab', hcd, hcd']

private theorem not_earlier_self (a : Occurrence) : ¬ a.Earlier a := by
  rintro (hlt | ⟨-, hlt⟩)
  · exact lt_irrefl _ hlt
  · exact lt_irrefl _ hlt

private theorem earlier_trichotomy (a b : Occurrence) :
    a.Earlier b ∨ b.Earlier a ∨ (a.start = b.start ∧ a.candidate = b.candidate) := by
  unfold Earlier
  rcases lt_trichotomy a.start b.start with hlt | heq | hlt
  · exact Or.inl (Or.inl hlt)
  · rcases lt_trichotomy a.candidate b.candidate with hlt | hsame | hlt
    · exact Or.inl (Or.inr ⟨heq, hlt⟩)
    · exact Or.inr (Or.inr ⟨heq, hsame⟩)
    · exact Or.inr (Or.inl (Or.inr ⟨heq.symm, hlt⟩))
  · exact Or.inr (Or.inl (Or.inl hlt))

private theorem precedes_iff_not_earlier : a.precedes b = true ↔ ¬ b.Earlier a := by
  unfold precedes Earlier
  simp only [Bool.or_eq_true, Bool.and_eq_true, decide_eq_true_eq, not_or, not_and, not_lt]
  constructor
  · rintro (hlt | ⟨heq, hle⟩)
    · exact ⟨le_of_lt hlt, fun heq => absurd (heq ▸ hlt) (lt_irrefl _)⟩
    · exact ⟨le_of_eq heq, fun _ => hle⟩
  · rintro ⟨hle, hcandidate⟩
    rcases lt_or_eq_of_le hle with hlt | heq
    · exact Or.inl hlt
    · exact Or.inr ⟨heq, hcandidate heq.symm⟩

private theorem precedes_trans (a b c : Occurrence) (hab : a.precedes b = true)
    (hbc : b.precedes c = true) : a.precedes c = true := by
  rw [precedes_iff_not_earlier] at *
  intro hca
  rcases earlier_trichotomy a b with hlt | hlt | ⟨hstart, hcandidate⟩
  · exact hbc (hca.trans hlt)
  · exact hab hlt
  · exact hbc ((earlier_congr rfl rfl hstart hcandidate).1 hca)

private theorem precedes_total (a b : Occurrence) : (a.precedes b || b.precedes a) = true := by
  rw [Bool.or_eq_true, precedes_iff_not_earlier, precedes_iff_not_earlier]
  by_cases hba : b.Earlier a
  · exact Or.inr fun hab => not_earlier_self a (hab.trans hba)
  · exact Or.inl hba

instance : IsStrictOrder Occurrence Earlier where
  irrefl := not_earlier_self
  trans _ _ _ := Earlier.trans

instance (ids : List ObjectId) : IsStrictOrder Occurrence (Before ids) where
  irrefl a := by
    rintro (hlt | ⟨-, -, hlt⟩)
    · exact not_earlier_self a hlt
    · exact lt_irrefl _ hlt
  trans a b c := by
    rintro (hab | ⟨hab, hab', hab''⟩) (hbc | ⟨hbc, hbc', hbc''⟩)
    · exact Or.inl (hab.trans hbc)
    · exact Or.inl ((earlier_congr rfl rfl hbc hbc').1 hab)
    · exact Or.inl ((earlier_congr hab hab' rfl rfl).2 hbc)
    · exact Or.inr ⟨hab.trans hbc, hab'.trans hbc', hab''.trans hbc''⟩

theorem mem_sort {os : List Occurrence} : a ∈ sort os ↔ a ∈ os := List.mem_mergeSort

theorem sort_of_pairwise {os : List Occurrence} (hos : os.Pairwise fun a b => a.precedes b = true) :
    sort os = os :=
  List.mergeSort_of_pairwise hos

theorem sort_pairwise (os : List Occurrence) :
    (sort os).Pairwise fun a b => a.precedes b = true :=
  List.pairwise_mergeSort precedes_trans precedes_total os

theorem sort_eq_insertionSort (os : List Occurrence) :
    sort os = os.insertionSort fun a b => a.precedes b = true := by
  induction os with
  | nil => simp [sort]
  | cons o os ih =>
    obtain ⟨front, back, hsort, hrest, hfront⟩ :=
      List.mergeSort_cons precedes_trans precedes_total o os
    have hback : ∀ b ∈ back, o.precedes b = true := by
      have hsorted := sort_pairwise (o :: os)
      unfold sort at hsorted
      rw [hsort, List.pairwise_append, List.pairwise_cons] at hsorted
      exact hsorted.2.1.1
    rw [List.insertionSort_cons, ← ih, List.orderedInsert_eq_take_drop]
    unfold sort
    rw [hsort, hrest, List.takeWhile_append_of_pos, List.dropWhile_append_of_pos]
    · cases back with
      | nil => simp
      | cons b back => simp [hback b]
    · intro b hb
      simpa using hfront b hb
    · intro b hb
      simpa using hfront b hb

private theorem filter_orderedInsert (p : Occurrence → Bool) {os : List Occurrence}
    (hos : os.Pairwise fun a b => a.precedes b = true) :
    (os.orderedInsert (fun a b => a.precedes b = true) a).filter p =
      if p a then (os.filter p).orderedInsert (fun a b => a.precedes b = true) a
      else os.filter p := by
  induction os with
  | nil => cases hp : p a <;> simp [hp]
  | cons b os ih =>
    obtain ⟨hb, hos⟩ := List.pairwise_cons.1 hos
    by_cases hab : a.precedes b = true
    · rw [List.orderedInsert, if_pos hab, List.filter_cons]
      congr 1
      -- Everything that is left stands behind `b`, and so behind `a`.
      have hall : ∀ x ∈ (b :: os).filter p, a.precedes x = true := by
        intro x hx
        rcases List.mem_cons.1 (List.mem_of_mem_filter hx) with rfl | hx
        · exact hab
        · exact precedes_trans a b x hab (hb x hx)
      cases hrest : (b :: os).filter p with
      | nil => rfl
      | cons x xs =>
        rw [List.orderedInsert, if_pos]
        exact hall x (hrest ▸ List.mem_cons_self)
    · rw [List.orderedInsert, if_neg hab, List.filter_cons, ih hos, List.filter_cons]
      cases p a <;> cases p b <;> simp [hab]

theorem filter_sort (p : Occurrence → Bool) (os : List Occurrence) :
    (sort os).filter p = sort (os.filter p) := by
  rw [sort_eq_insertionSort, sort_eq_insertionSort]
  induction os with
  | nil => rfl
  | cons a os ih =>
    have hsorted : (os.insertionSort fun a b => a.precedes b = true).Pairwise
        fun a b => a.precedes b = true := by
      rw [← sort_eq_insertionSort]
      exact sort_pairwise os
    rw [List.insertionSort_cons, filter_orderedInsert p hsorted, ih, List.filter_cons]
    split <;> rfl

private theorem orderedInsert_merge (a : Occurrence) (os os' : List Occurrence) :
    (os.merge os' precedes).orderedInsert (fun a b => a.precedes b = true) a =
      (os.orderedInsert (fun a b => a.precedes b = true) a).merge os' precedes := by
  induction os generalizing os' with
  | nil =>
    rw [List.nil_merge, List.orderedInsert_nil]
    induction os' with
    | nil => simp
    | cons c os' ih =>
      rw [List.orderedInsert_cons, List.cons_merge_cons]
      split
      · rw [List.nil_merge]
      · rw [ih]
  | cons b os ih =>
    induction os' with
    | nil => simp
    | cons c os' ih' =>
      rw [List.orderedInsert_cons] at ih'
      rw [List.cons_merge_cons, List.orderedInsert_cons]
      by_cases hbc : b.precedes c = true
      · rw [if_pos hbc, List.orderedInsert_cons]
        by_cases hab : a.precedes b = true
        · rw [if_pos hab, if_pos hab, List.cons_merge_cons, if_pos (precedes_trans a b c hab hbc),
            List.cons_merge_cons, if_pos hbc]
        · rw [if_neg hab, if_neg hab, List.cons_merge_cons, if_pos hbc, ih]
      · have hcb : c.precedes b = true := by simpa [hbc] using precedes_total b c
        rw [if_neg hbc, List.orderedInsert_cons]
        by_cases hac : a.precedes c = true
        · have hab := precedes_trans a c b hac hcb
          rw [if_pos hac, if_pos hab, List.cons_merge_cons, if_pos hac, List.cons_merge_cons,
            if_neg hbc]
        · rw [if_neg hac, ih']
          split
          · rw [List.cons_merge_cons, if_neg hac]
          · rw [List.cons_merge_cons, if_neg hbc]

theorem sort_append (os os' : List Occurrence) :
    sort (os ++ os') = (sort os).merge (sort os') precedes := by
  rw [sort_eq_insertionSort, sort_eq_insertionSort os]
  induction os with
  | nil => rw [List.nil_append, List.insertionSort_nil, List.nil_merge, sort_eq_insertionSort]
  | cons o os ih =>
    rw [List.cons_append, List.insertionSort_cons, ih, orderedInsert_merge, List.insertionSort_cons]

private theorem take_merge (os os' : List Occurrence) (n : Nat) :
    (os.merge os' precedes).take n = ((os.take n).merge (os'.take n) precedes).take n := by
  induction n generalizing os os' with
  | zero => rfl
  | succ n ih =>
    cases os with
    | nil => simp
    | cons a os =>
      cases os' with
      | nil => simp
      | cons b os' =>
        have hcut : ∀ (c : Occurrence) (rest : List Occurrence),
            (c :: rest.take n).take n = (c :: rest).take n := by
          intro c rest
          rw [← List.take_succ_cons, List.take_take, min_eq_left (Nat.le_succ n)]
        simp only [List.take_succ_cons, List.cons_merge_cons]
        split
        · rw [List.take_succ_cons, List.take_succ_cons, ih os, ih (os.take n) (b :: os'.take n),
            hcut, List.take_take, min_self]
        · rw [List.take_succ_cons, List.take_succ_cons, ih (a :: os),
            ih (a :: os.take n) (os'.take n), hcut, List.take_take, min_self]

/-- Cutting several sorted lists to a length, and then merging them, leaves that many first ones of
them all as they are. -/
theorem take_sort_flatten {oss : List (List Occurrence)} (n : Nat)
    (hin : ∀ os ∈ oss, os.Pairwise fun a b => a.precedes b = true) :
    (sort (oss.map (List.take n)).flatten).take n = (sort oss.flatten).take n := by
  induction oss with
  | nil => rfl
  | cons os oss ih =>
    obtain ⟨hos, hrest⟩ := List.forall_mem_cons.1 hin
    rw [List.map_cons, List.flatten_cons, List.flatten_cons, sort_append, sort_append,
      sort_of_pairwise hos, sort_of_pairwise hos.take, take_merge, ih hrest, List.take_take,
      min_self, ← take_merge]

end Recurrence.Occurrence

namespace Recurrence

open Occurrence

structure PlacedOccurrence where
  place : Nat
  occurrence : Occurrence
  deriving DecidableEq

namespace PlacedOccurrence

variable {p q : PlacedOccurrence}

/-- The strict order by start, then by candidate, then by the place of the segment. -/
def Before (p q : PlacedOccurrence) : Prop :=
  p.occurrence.Earlier q.occurrence ∨ (p.occurrence.start = q.occurrence.start ∧
    p.occurrence.candidate = q.occurrence.candidate ∧ p.place < q.place)

instance : IsStrictOrder PlacedOccurrence Before where
  irrefl p := by
    rintro (hlt | ⟨-, -, hlt⟩)
    · exact not_earlier_self _ hlt
    · exact lt_irrefl _ hlt
  trans p q r := by
    rintro (hpq | ⟨hpq, hpq', hplace⟩) (hqr | ⟨hqr, hqr', hplace'⟩)
    · exact Or.inl (hpq.trans hqr)
    · exact Or.inl ((earlier_congr rfl rfl hqr hqr').1 hpq)
    · exact Or.inl ((earlier_congr hpq hpq' rfl rfl).2 hqr)
    · exact Or.inr ⟨hpq.trans hqr, hpq'.trans hqr', hplace.trans hplace'⟩

def sort (ps : List PlacedOccurrence) : List PlacedOccurrence :=
  ps.mergeSort fun p q => p.occurrence.precedes q.occurrence

theorem mem_sort {ps : List PlacedOccurrence} : p ∈ sort ps ↔ p ∈ ps := List.mem_mergeSort

theorem map_sort (ps : List PlacedOccurrence) :
    (sort ps).map occurrence = Occurrence.sort (ps.map occurrence) :=
  List.map_mergeSort fun _ _ _ _ => rfl

/-- Stability: what holds of any two in their order, unless the later one is to come first, holds of
any two after sorting. -/
theorem sort_pairwise {R : PlacedOccurrence → PlacedOccurrence → Prop}
    (hearlier : ∀ p q, p.occurrence.Earlier q.occurrence → R p q) {ps : List PlacedOccurrence}
    (hps : ps.Pairwise fun p q => R p q ∨ q.occurrence.Earlier p.occurrence) :
    (sort ps).Pairwise R := by
  unfold sort
  rw [← List.mergeSort_zipIdx, List.pairwise_map]
  have hsorted := List.pairwise_mergeSort
    (List.zipIdxLE_trans fun p q r : PlacedOccurrence =>
      precedes_trans p.occurrence q.occurrence r.occurrence)
    (List.zipIdxLE_total fun p q : PlacedOccurrence =>
      precedes_total p.occurrence q.occurrence) ps.zipIdx
  have hnodup : (ps.zipIdx.mergeSort (List.zipIdxLE fun p q : PlacedOccurrence =>
      p.occurrence.precedes q.occurrence)).Nodup := by
    rw [(List.mergeSort_perm _ _).nodup_iff]
    refine List.Nodup.of_map Prod.snd ?_
    rw [List.zipIdx_map_snd]
    exact List.nodup_range'
  refine (hsorted.and hnodup).imp_of_mem ?_
  rintro ⟨p, i⟩ ⟨q, j⟩ hp hq ⟨hle, hne⟩
  rw [List.mem_mergeSort, List.mk_mem_zipIdx_iff_getElem?] at hp hq
  unfold List.zipIdxLE at hle
  by_cases hqp : q.occurrence.precedes p.occurrence = true
  · have hpq : p.occurrence.precedes q.occurrence = true := by
      by_contra hnot
      simp [hnot] at hle
    have hij : i ≤ j := by simpa [hpq, hqp] using hle
    have hlt : i < j := by
      refine lt_of_le_of_ne hij ?_
      rintro rfl
      rw [hp] at hq
      exact hne (by rw [Option.some.inj hq])
    obtain ⟨hi, rfl⟩ := List.getElem?_eq_some_iff.1 hp
    obtain ⟨hj, rfl⟩ := List.getElem?_eq_some_iff.1 hq
    refine (List.pairwise_iff_getElem.1 hps i j hi hj hlt).resolve_right ?_
    exact precedes_iff_not_earlier.1 hpq
  · rw [precedes_iff_not_earlier, not_not] at hqp
    exact hearlier p q hqp

private theorem sort_pairwise_before {ps : List PlacedOccurrence}
    (hps : ps.Pairwise fun p q => p.Before q ∨ q.occurrence.Earlier p.occurrence) :
    (sort ps).Pairwise Before :=
  sort_pairwise (fun _ _ => Or.inl) hps

def placeFrom (place : Nat) : List (List Occurrence) → List PlacedOccurrence
  | [] => []
  | os :: oss => os.map (mk place) ++ placeFrom (place + 1) oss

theorem map_placeFrom (place : Nat) (oss : List (List Occurrence)) :
    (placeFrom place oss).map occurrence = oss.flatten := by
  induction oss generalizing place with
  | nil => rfl
  | cons os oss ih =>
    rw [placeFrom, List.map_append, List.map_map, ih, List.flatten_cons]
    exact congrArg (· ++ oss.flatten) (List.map_id os)

private theorem mem_placeFrom {place : Nat} {oss : List (List Occurrence)} :
    p ∈ placeFrom place oss ↔
      ∃ i os, p.place = place + i ∧ oss[i]? = some os ∧ p.occurrence ∈ os := by
  induction oss generalizing place with
  | nil => simp [placeFrom]
  | cons os oss ih =>
    rw [placeFrom, List.mem_append, ih]
    constructor
    · rintro (hhead | ⟨i, os', hplace, hos', hmem⟩)
      · obtain ⟨o, ho, rfl⟩ := List.mem_map.1 hhead
        exact ⟨0, os, rfl, rfl, ho⟩
      · exact ⟨i + 1, os', by omega, hos', hmem⟩
    · rintro ⟨_ | i, os', hplace, hos', hmem⟩
      · obtain rfl := Option.some.inj hos'
        refine Or.inl (List.mem_map.2 ⟨p.occurrence, hmem, ?_⟩)
        obtain ⟨_, o⟩ := p
        exact congrArg (mk · o) hplace.symm
      · exact Or.inr ⟨i, os', by omega, hos', hmem⟩

private theorem mem_placeFrom_zero {oss : List (List Occurrence)} :
    p ∈ placeFrom 0 oss ↔ ∃ os, oss[p.place]? = some os ∧ p.occurrence ∈ os := by
  rw [mem_placeFrom]
  constructor
  · rintro ⟨i, os, hplace, hos, ho⟩
    obtain rfl : p.place = i := hplace.trans (Nat.zero_add i)
    exact ⟨os, hos, ho⟩
  · rintro ⟨os, hos, ho⟩
    exact ⟨p.place, os, (Nat.zero_add _).symm, hos, ho⟩

private theorem placeFrom_pairwise {place : Nat} {oss : List (List Occurrence)}
    (hin : ∀ os ∈ oss, os.Pairwise Earlier) :
    (placeFrom place oss).Pairwise
      fun p q => p.Before q ∨ q.occurrence.Earlier p.occurrence := by
  induction oss generalizing place with
  | nil => exact .nil
  | cons os oss ih =>
    refine List.pairwise_append.2
      ⟨?_, ih fun os' hos' => hin os' (List.mem_cons_of_mem os hos'), ?_⟩
    · rw [List.pairwise_map]
      exact (hin os List.mem_cons_self).imp fun hlt => Or.inl (Or.inl hlt)
    · intro p hp q hq
      obtain ⟨o, -, rfl⟩ := List.mem_map.1 hp
      obtain ⟨i, os', hplace, -, -⟩ := mem_placeFrom.1 hq
      rcases earlier_trichotomy o q.occurrence with hlt | hlt | ⟨hstart, hcandidate⟩
      · exact Or.inl (Or.inl hlt)
      · exact Or.inr hlt
      · exact Or.inl (Or.inr ⟨hstart, hcandidate, show place < q.place by omega⟩)

theorem sort_placeFrom_pairwise (place : Nat) (oss : List (List Occurrence)) :
    (sort (placeFrom place oss)).Pairwise fun p q => ¬ q.Before p := by
  have hplaces : (placeFrom place oss).Pairwise fun p q => p.place ≤ q.place := by
    induction oss generalizing place with
    | nil => exact .nil
    | cons os oss ih =>
      refine List.pairwise_append.2 ⟨?_, ih (place + 1), fun p hp q hq => ?_⟩
      · rw [List.pairwise_map]
        exact List.pairwise_of_forall fun _ _ => le_rfl
      · obtain ⟨o, -, rfl⟩ := List.mem_map.1 hp
        obtain ⟨i, os', hplace, -, -⟩ := mem_placeFrom.1 hq
        exact show place ≤ q.place by omega
  refine sort_pairwise (fun p q hpq => ?_) (hplaces.imp fun hle => ?_)
  · rintro (hqp | ⟨hstart, hcandidate, -⟩)
    · exact not_earlier_self _ (hpq.trans hqp)
    · exact not_earlier_self _ ((earlier_congr rfl rfl hstart hcandidate).1 hpq)
  · rw [or_iff_not_imp_right]
    rintro hearlier (hqp | ⟨-, -, hlt⟩)
    · exact hearlier hqp
    · exact absurd hle (not_le.2 hlt)

theorem take_filter_eq_take {α : Type} {xs : List α} {p : α → Bool} {n : Nat}
    (hxs : ∀ x ∈ xs.take n, p x = true) : (xs.filter p).take n = xs.take n := by
  conv_lhs => rw [← List.take_append_drop n xs]
  rw [List.filter_append, List.filter_eq_self.2 hxs, List.take_append, List.take_take, min_self]
  rcases Nat.lt_or_ge n xs.length with hlt | hge
  · rw [List.length_take, min_eq_left (Nat.le_of_lt hlt), Nat.sub_self, List.take_zero,
      List.append_nil]
  · rw [List.drop_eq_nil_of_le hge, List.filter_nil, List.take_nil, List.append_nil]

theorem exists_merged {oss : List (List Occurrence)} (hin : ∀ os ∈ oss, os.Pairwise Earlier) :
    ∃ all : List PlacedOccurrence, all.Pairwise Before ∧
      (∀ p, p ∈ all ↔ ∃ os, oss[p.place]? = some os ∧ p.occurrence ∈ os) ∧
      ∀ n, (Occurrence.sort (oss.map (List.take n)).flatten).take n =
        (all.take n).map occurrence := by
  refine ⟨sort (placeFrom 0 oss), sort_pairwise_before (placeFrom_pairwise hin), ?_, ?_⟩
  · intro p
    rw [mem_sort, mem_placeFrom_zero]
  · intro n
    have hsorted : ∀ os ∈ oss, os.Pairwise fun a b => a.precedes b = true := fun os hos =>
      (hin os hos).imp fun hab => precedes_iff_not_earlier.2 fun hba =>
        not_earlier_self _ (hab.trans hba)
    rw [take_sort_flatten n hsorted, List.map_take, map_sort, map_placeFrom]

end PlacedOccurrence

namespace Occurrence

variable {os : List Occurrence}

theorem sort_pairwise_of_candidates (hos : os.Pairwise fun a b => a.candidate ≠ b.candidate) :
    (sort os).Pairwise Earlier := by
  have hsorted := sort_pairwise os
  have hdistinct : (sort os).Pairwise fun a b => a.candidate ≠ b.candidate :=
    (List.mergeSort_perm os precedes).symm.pairwise hos fun hab => hab.symm
  refine (hsorted.and hdistinct).imp ?_
  rintro a b ⟨hle, hne⟩
  rcases earlier_trichotomy a b with hlt | hlt | ⟨-, heq⟩
  · exact hlt
  · exact absurd hlt (precedes_iff_not_earlier.1 hle)
  · exact absurd heq hne

end Occurrence

end Recurrence
