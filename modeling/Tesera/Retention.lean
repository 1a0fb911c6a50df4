import Mathlib

/-!
Keeping the newest of a list. The older ones are the front of the sorted list, and those
that so many others come after.
-/

namespace Tesera.Retention

variable {α : Type} [LinearOrder α] {keep : Nat} {items : List α} {item : α}

/-- All but the greatest items. -/
def oldest (keep : Nat) (items : List α) : List α :=
  (items.mergeSort (fun a b => decide (a ≤ b))).take (items.length - keep)

/-- The greatest items, as many as are to be kept. -/
def newest (keep : Nat) (items : List α) : List α :=
  (items.mergeSort (fun a b => decide (a ≤ b))).drop (items.length - keep)

/-- The items after one. -/
def after (items : List α) (item : α) : List α := items.filter (fun other => decide (item < other))

theorem mem_take_of_sorted (sorted : items.Pairwise (· < ·)) :
    item ∈ items.take (items.length - keep) ↔ item ∈ items ∧ keep ≤ (after items item).length := by
  induction items with
  | nil => simp
  | cons first items ih =>
    obtain ⟨least, sorted⟩ := List.pairwise_cons.mp sorted
    have bound : (after items item).length ≤ items.length := List.length_filter_le _ _
    by_cases kept : items.length < keep
    · have none : (first :: items).length - keep = 0 := by
        rw [List.length_cons]
        omega
      have few : ∀ found : item ∈ first :: items, ¬ keep ≤ (after (first :: items) item).length := by
        intro found
        rw [after, List.filter_cons]
        split_ifs with before
        · have inside : item ∈ items := (List.mem_cons.mp found).resolve_left (fun same =>
            absurd (of_decide_eq_true before) (same ▸ lt_irrefl item))
          exact absurd (least item inside) (lt_asymm (of_decide_eq_true before))
        · exact fun many => absurd (many.trans bound) (Nat.not_le.mpr kept)
      rw [none, List.take_zero]
      exact ⟨fun absent => absurd absent List.not_mem_nil, fun both => absurd both.2 (few both.1)⟩
    · have some : (first :: items).length - keep = items.length - keep + 1 := by
        rw [List.length_cons]
        omega
      rw [some, List.take_succ_cons, List.mem_cons, List.mem_cons, ih sorted]
      by_cases same : item = first
      · subst same
        have all : after (item :: items) item = items := by
          rw [after, List.filter_cons_of_neg (by simp), List.filter_eq_self]
          simpa using least
        rw [all]
        simp [Nat.not_lt.mp kept]
      · have rest : item ∈ items → after (first :: items) item = after items item := by
          intro inside
          rw [after, List.filter_cons_of_neg (by simpa using le_of_lt (least item inside))]
          rfl
        constructor
        · intro found
          have inside := found.resolve_left same
          exact ⟨.inr inside.1, rest inside.1 ▸ inside.2⟩
        · intro found
          have inside := found.1.resolve_left same
          exact .inr ⟨inside, rest inside ▸ found.2⟩

theorem sorted_le (items : List α) : (items.mergeSort (fun a b => decide (a ≤ b))).Pairwise (· ≤ ·) := by
  have transitive : ∀ a b c : α, decide (a ≤ b) = true → decide (b ≤ c) = true → decide (a ≤ c) = true :=
    fun a b c => by simpa using le_trans
  have total : ∀ a b : α, (decide (a ≤ b) || decide (b ≤ a)) = true := fun a b => by simpa using le_total a b
  have sorted := List.pairwise_mergeSort transitive total items
  simpa using sorted

theorem sorted_lt (distinct : items.Nodup) :
    (items.mergeSort (fun a b => decide (a ≤ b))).Pairwise (· < ·) := by
  have apart : (items.mergeSort (fun a b => decide (a ≤ b))).Nodup := (List.mergeSort_perm items _).nodup_iff.mpr distinct
  exact (sorted_le items).imp₂ (fun _ _ before different => lt_of_le_of_ne before different) apart

/-- An item is not kept exactly if at least as many come after it as are kept. -/
theorem mem_oldest_iff (distinct : items.Nodup) :
    item ∈ oldest keep items ↔ item ∈ items ∧ keep ≤ (after items item).length := by
  have same : (after (items.mergeSort (fun a b => decide (a ≤ b))) item).length = (after items item).length :=
    ((List.mergeSort_perm items _).filter _).length_eq
  have front := @mem_take_of_sorted _ _ keep _ item (sorted_lt distinct)
  rw [List.length_mergeSort, same, List.mem_mergeSort] at front
  exact front

theorem mem_oldest (member : item ∈ oldest keep items) : item ∈ items :=
  List.mem_mergeSort.mp (List.mem_of_mem_take member)

theorem mem_newest (member : item ∈ newest keep items) : item ∈ items :=
  List.mem_mergeSort.mp (List.mem_of_mem_drop member)

theorem mem_newest_of_not_oldest (member : item ∈ items) (kept : item ∉ oldest keep items) : item ∈ newest keep items := by
  have sorted : item ∈ items.mergeSort (fun a b => decide (a ≤ b)) := List.mem_mergeSort.mpr member
  rw [← List.take_append_drop (items.length - keep) (items.mergeSort _), List.mem_append] at sorted
  exact sorted.resolve_left kept

/-- What is kept is no older than what is not. -/
theorem oldest_le_newest {old new : α} (removed : old ∈ oldest keep items) (kept : new ∈ newest keep items) : old ≤ new := by
  have sorted := sorted_le items
  rw [← List.take_append_drop (items.length - keep) (items.mergeSort _), List.pairwise_append] at sorted
  exact sorted.2.2 old removed new kept

end Tesera.Retention
