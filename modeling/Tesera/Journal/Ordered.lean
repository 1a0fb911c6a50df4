import Tesera.Journal.Idempotency

/-!
A `dict` whose order of insertion is observed: what its `setdefault` leaves under each key,
and what an iteration over its items meets.
-/

namespace Tesera.Journal.Idempotency.Ordered
open Tesera.Text.Unicode

variable {ν α : Type} {m : Ordered ν} {key other : Str} {value : ν}

/-- `m.setdefault(key, value)`. -/
def setDefault (m : Ordered ν) (key : Str) (value : ν) : Ordered ν :=
  if m.has key then m else m ++ [(key, value)]

/-- `m.setdefault(key, []).append(value)`. -/
def push : Ordered (List α) → Str → α → Ordered (List α)
  | [], key, value => [(key, [value])]
  | (k, values) :: rest, key, value =>
      if k = key then (k, values ++ [value]) :: rest else (k, values) :: push rest key value

/-- `m.get(key, [])`. -/
def linked (m : Ordered (List α)) (key : Str) : List α := (m.find key).getD []

/-- No key stands twice. -/
def Distinct (m : Ordered ν) : Prop := (m.map Prod.fst).Nodup

theorem has_iff : m.has key = true ↔ key ∈ m.map Prod.fst := by
  simp [has]

theorem find_nil : find ([] : Ordered ν) key = none := rfl

theorem find_cons (p : Str × ν) (m : Ordered ν) : find (p :: m) key = if p.1 = key then some p.2 else find m key := by
  by_cases same : p.1 = key
  · simp [find, same]
  · simp [find, same]

theorem find_append (n : Ordered ν) : find (m ++ n) key = (m.find key).or (n.find key) := by
  induction m with
  | nil => rfl
  | cons p m ih =>
    rw [List.cons_append, find_cons, find_cons]
    split_ifs
    · rfl
    · exact ih

theorem find_eq_none : m.find key = none ↔ m.has key = false := by
  induction m with
  | nil => exact iff_of_true rfl rfl
  | cons p m ih =>
    have split : has (p :: m) key = (p.1 == key || has m key) := rfl
    rw [find_cons, split]
    by_cases same : p.1 = key
    · simp [same]
    · simp [same, ih]

theorem mem_of_find (found : m.find key = some value) : (key, value) ∈ m := by
  induction m with
  | nil => cases found
  | cons p m ih =>
    rw [find_cons] at found
    split_ifs at found with same
    · cases found
      rw [← same]
      exact List.mem_cons_self
    · exact List.mem_cons_of_mem p (ih found)

theorem find_of_mem (distinct : Distinct m) (member : (key, value) ∈ m) : m.find key = some value := by
  induction m with
  | nil => cases member
  | cons p m ih =>
    obtain ⟨fresh, rest⟩ := List.nodup_cons.mp distinct
    rw [find_cons]
    rcases List.mem_cons.mp member with here | there
    · rw [← here, if_pos rfl]
    · have different : p.1 ≠ key := by
        intro same
        exact fresh (List.mem_map.mpr ⟨_, there, same.symm⟩)
      rw [if_neg different]
      exact ih rest there

theorem find_map {β : Type} {f : Str → ν → β} :
    find (m.map (fun p => (p.1, f p.1 p.2))) key = (m.find key).map (f key) := by
  induction m with
  | nil => rfl
  | cons p m ih =>
    rw [List.map_cons, find_cons, find_cons]
    split_ifs with same
    · rw [← same]
      rfl
    · exact ih

/-! ## A key that is added -/

theorem distinct_append (distinct : Distinct m) (absent : m.has key = false) : Distinct (m ++ [(key, value)]) := by
  have fresh : key ∉ m.map Prod.fst := by
    intro member
    rw [has_iff.mpr member] at absent
    cases absent
  rw [Distinct, List.map_append]
  exact distinct.append (List.nodup_singleton key) (by simpa [List.disjoint_singleton] using fresh)

theorem distinct_setDefault (distinct : Distinct m) : Distinct (m.setDefault key value) := by
  unfold setDefault
  by_cases present : m.has key = true
  · rwa [if_pos present]
  · rw [if_neg present]
    exact distinct_append distinct (Bool.eq_false_iff.mpr present)

theorem find_setDefault : (m.setDefault key value).find other =
    if key = other then some ((m.find key).getD value) else m.find other := by
  unfold setDefault
  by_cases present : m.has key = true
  · rw [if_pos present]
    split_ifs with same
    · subst same
      cases found : m.find key with
      | none =>
        rw [find_eq_none, present] at found
        cases found
      | some stored => rfl
    · rfl
  · rw [if_neg present, find_append, find_cons, find_nil]
    split_ifs with same
    · subst same
      rw [find_eq_none.mpr (Bool.eq_false_iff.mpr present)]
      rfl
    · exact Option.or_none

theorem has_setDefault : has (m.setDefault key value) other = true ↔ m.has other = true ∨ key = other := by
  unfold setDefault
  by_cases present : m.has key = true
  · rw [if_pos present]
    constructor
    · exact Or.inl
    · rintro (here | rfl)
      · exact here
      · exact present
  · rw [if_neg present, has, List.any_append, Bool.or_eq_true, ← has]
    simp

theorem mem_setDefault {p : Str × ν} (member : p ∈ m.setDefault key value) : p ∈ m ∨ p = (key, value) := by
  unfold setDefault at member
  split_ifs at member
  · exact .inl member
  · simpa using member

theorem keys_push {m : Ordered (List α)} {value : α} :
    (push m key value).map Prod.fst = if m.has key then m.map Prod.fst else m.map Prod.fst ++ [key] := by
  induction m with
  | nil => rfl
  | cons p m ih =>
    have split : has (p :: m) key = (p.1 == key || has m key) := rfl
    rw [push, split]
    by_cases same : p.1 = key
    · simp [same]
    · rw [if_neg same, List.map_cons, ih, beq_eq_false_iff_ne.mpr same, Bool.false_or]
      split_ifs <;> rfl

theorem distinct_push {m : Ordered (List α)} {value : α} (distinct : Distinct m) :
    Distinct (push m key value) := by
  rw [Distinct, keys_push]
  split_ifs with present
  · exact distinct
  · have added := @distinct_append _ m key [value] distinct (Bool.eq_false_iff.mpr present)
    rwa [Distinct, List.map_append] at added

theorem linked_push {m : Ordered (List α)} {value : α} : linked (push m key value) other =
    if key = other then m.linked other ++ [value] else m.linked other := by
  induction m with
  | nil =>
    simp only [push, linked, find_cons, find_nil]
    split_ifs <;> rfl
  | cons p m ih =>
    rw [push]
    by_cases same : p.1 = key
    · rw [if_pos same, linked, linked, find_cons, find_cons, ← same]
      split_ifs <;> rfl
    · rw [if_neg same, linked, linked, find_cons, find_cons]
      by_cases here : p.1 = other
      · have different : key ≠ other := fun eq => same (here.trans eq.symm)
        rw [if_pos here, if_pos here, if_neg different]
      · rw [if_neg here, if_neg here]
        exact ih

end Tesera.Journal.Idempotency.Ordered
