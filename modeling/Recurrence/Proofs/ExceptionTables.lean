import Recurrence.Exception
import Recurrence.Proofs.InnerInstants

set_option autoImplicit false
set_option relaxedAutoImplicit false

/-!
Tables and their entries, and the exception tables in which each entry stands under the second of
its own date.
-/

namespace Recurrence

namespace Table

universe u v

variable {κ : Type u} {α : Type v} [DecidableEq κ] {t : Table κ α} {key : κ} {value : α}

theorem mem_entries_iff : (key, value) ∈ t.entries ↔ t.find? key = some value := by
  unfold find?
  constructor
  · intro hmem
    obtain ⟨entry, hentry⟩ := Option.isSome_iff_exists.1
      (List.find?_isSome.2 ⟨(key, value), hmem, decide_eq_true rfl⟩ :
        (t.entries.find? fun e => e.1 = key).isSome = true)
    have hkey : entry.1 = key := by simpa using List.find?_some hentry
    have hsame : entry = (key, value) :=
      List.inj_on_of_nodup_map t.keys_nodup (List.mem_of_find?_eq_some hentry) hmem hkey
    rw [hentry, hsame]
    rfl
  · intro hfind
    obtain ⟨⟨other, found⟩, hentry, rfl⟩ := Option.map_eq_some_iff.1 hfind
    obtain rfl : other = key := by simpa using List.find?_some hentry
    exact List.mem_of_find?_eq_some hentry

theorem mem_values_iff : value ∈ t.values ↔ ∃ key, t.find? key = some value := by
  unfold values
  rw [List.mem_map]
  constructor
  · rintro ⟨⟨key, found⟩, hmem, rfl⟩
    exact ⟨key, mem_entries_iff.1 hmem⟩
  · rintro ⟨key, hfind⟩
    exact ⟨(key, value), mem_entries_iff.2 hfind, rfl⟩

theorem contains_eq_false_iff : t.contains key = false ↔ t.find? key = none := by
  unfold contains
  cases t.find? key <;> simp

theorem erase_insert_self (t : Table κ α) (key : κ) (value : α) :
    (t.insert key value).erase key = t.erase key := by
  unfold insert erase
  simp

theorem erase_eq_self (h : t.find? key = none) : t.erase key = t := by
  obtain ⟨entries, hnodup⟩ := t
  unfold erase
  congr 1
  apply List.filter_eq_self.2
  rintro ⟨other, value⟩ hmem
  rw [decide_eq_true_iff]
  rintro rfl
  cases h.symm.trans (mem_entries_iff.1 hmem)

end Table

namespace ExceptionTable

variable {t : ExceptionTable}

/-- Every entry stands under the second of its date. -/
def Keyed (t : ExceptionTable) : Prop :=
  ∀ second e, t.find? second = some e → e.date.truncate = second

theorem keyed_empty : Keyed ∅ := by
  intro second e he
  simp [EmptyCollection.emptyCollection] at he

theorem Keyed.record (ht : t.Keyed) (e : Exception) : (t.record e).Keyed := by
  intro second found hfound
  unfold ExceptionTable.record at hfound
  rw [Table.find?_insert] at hfound
  split at hfound
  · rename_i heq
    rw [heq, Option.some.inj hfound]
  · exact ht second found hfound

theorem Keyed.erase (ht : t.Keyed) (second : Instant) : Keyed (Table.erase t second) := by
  intro other found hfound
  rw [Table.find?_erase] at hfound
  split at hfound
  · simp at hfound
  · exact ht other found hfound

theorem Keyed.pairwise_values (ht : t.Keyed) :
    t.values.Pairwise fun a b => a.date.truncate ≠ b.date.truncate := by
  unfold Table.values
  rw [List.pairwise_map]
  have hkeys : t.entries.Pairwise fun a b => a.1 ≠ b.1 := List.pairwise_map.1 t.keys_nodup
  refine hkeys.imp_of_mem ?_
  rintro ⟨a, x⟩ ⟨b, y⟩ ha hb hne
  rw [ht a x (Table.mem_entries_iff.1 ha), ht b y (Table.mem_entries_iff.1 hb)]
  exact hne

theorem Keyed.filterMap_values_erase {α : Type} (ht : t.Keyed) (second : Instant)
    (f : Exception → Option α)
    (hf : ∀ e ∈ t.values, e.date.truncate = second → f e = none) :
    (Table.erase t second).values.filterMap f = t.values.filterMap f := by
  unfold Table.erase Table.values
  rw [List.filterMap_map, List.filterMap_map, List.filterMap_filter]
  refine List.filterMap_congr fun x hx => ?_
  split
  · rfl
  · rename_i hkey
    have hfind : t.find? x.1 = some x.2 := Table.mem_entries_iff.1 hx
    refine (hf x.2 (Table.mem_values_iff.2 ⟨x.1, hfind⟩) ?_).symm
    rw [ht x.1 x.2 hfind]
    simpa using hkey

theorem exceptionTo?_mem_values {c : Instant} {e : Exception} (he : t.exceptionTo? c = some e) :
    e ∈ t.values :=
  Table.mem_values_iff.2 ⟨c.truncate, he⟩

theorem Keyed.exceptionTo?_eq_some_iff (ht : t.Keyed) {c : Instant} {e : Exception}
    (he : e ∈ t.values) : t.exceptionTo? c = some e ↔ c.truncate = e.date.truncate := by
  obtain ⟨second, hfind⟩ := Table.mem_values_iff.1 he
  have hsecond := ht second e hfind
  unfold exceptionTo?
  constructor
  · intro hc
    exact (ht _ e hc).symm
  · intro hc
    rw [hc, hsecond, hfind]

end ExceptionTable

end Recurrence
