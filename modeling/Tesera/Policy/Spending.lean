import Tesera.Text.Members

/-!
What a budget has allowed: a log of amounts, each under the name of its action, and how
much it adds up to over all actions or over one.
-/

namespace Tesera.Policy.Spending
open Tesera.Text

variable {κ : Type}

def spent (allowed : List (κ × Nat)) : Nat := (allowed.map Prod.snd).sum

@[simp] theorem spent_nil : spent ([] : List (κ × Nat)) = 0 := rfl

theorem spent_cons (name : κ) (amount : Nat) (allowed : List (κ × Nat)) :
    spent ((name, amount) :: allowed) = spent allowed + amount := by
  rw [spent, List.map_cons, List.sum_cons, Nat.add_comm]
  rfl

variable [LinearOrder κ]

def spentOn (name : κ) (allowed : List (κ × Nat)) : Nat := spent (allowed.filter (fun entry => decide (entry.1 = name)))

/-- No more than the limit has been allowed, for each action where each has its own. -/
def Within (limit : Nat) (perAction : Bool) (allowed : List (κ × Nat)) : Prop :=
  (perAction = false → spent allowed ≤ limit) ∧ (perAction = true → ∀ name, spentOn name allowed ≤ limit)

/-- No more allowances than the limit, for each action where each has its own. -/
def CallsWithin (limit : Nat) (perAction : Bool) (allowed : List (κ × Nat)) : Prop :=
  (perAction = false → allowed.length ≤ limit) ∧
    (perAction = true → ∀ name, (allowed.filter (fun entry => decide (entry.1 = name))).length ≤ limit)

@[simp] theorem spentOn_nil (name : κ) : spentOn name [] = 0 := rfl

theorem spentOn_cons (name other : κ) (amount : Nat) (allowed : List (κ × Nat)) :
    spentOn other ((name, amount) :: allowed) = spentOn other allowed + if name = other then amount else 0 := by
  unfold spentOn
  rw [List.filter_cons]
  by_cases same : name = other
  · simp only [same, decide_true, if_true]
    exact spent_cons other amount _
  · simp only [same, decide_false, Bool.false_eq_true, if_false]
    rfl

/-- The entry of an action in a table, 0 where it has none. -/
def entryOf (counts : Members.Entries κ Nat) (name : κ) : Nat := (Members.get counts name).getD 0

theorem entryOf_put (counts : Members.Entries κ Nat) (name other : κ) (value : Nat) :
    entryOf (Members.put name value counts) other = if name = other then value else entryOf counts other := by
  unfold entryOf
  by_cases same : name = other
  · rw [if_pos same, ← same, Members.get_put_self]
    rfl
  · rw [if_neg same, Members.get_put_of_ne (Ne.symm same)]

/-- A table with what has been allowed for each action still has it when both grow. -/
theorem entries_grow {counts : Members.Entries κ Nat} {allowed : List (κ × Nat)}
    (same : ∀ name, entryOf counts name = spentOn name allowed) (name : κ) (amount : Nat) (other : κ) :
    entryOf (Members.put name (entryOf counts name + amount) counts) other = spentOn other ((name, amount) :: allowed) := by
  rw [entryOf_put, spentOn_cons]
  by_cases here : name = other
  · rw [if_pos here, if_pos here, ← here, same]
  · rw [if_neg here, if_neg here, same, Nat.add_zero]

omit [LinearOrder κ] in
theorem spent_of_ones {allowed : List (κ × Nat)} (ones : ∀ entry ∈ allowed, entry.2 = 1) :
    spent allowed = allowed.length := by
  induction allowed with
  | nil => rfl
  | cons entry allowed ih =>
    obtain ⟨name, amount⟩ := entry
    obtain ⟨one, rest⟩ := List.forall_mem_cons.mp ones
    have single : amount = 1 := one
    rw [spent_cons, ih rest, single, List.length_cons]

/-- Where each allowance is of one, a budget bounds their number. -/
theorem callsWithin_of_ones {limit : Nat} {perAction : Bool} {allowed : List (κ × Nat)}
    (ones : ∀ entry ∈ allowed, entry.2 = 1) (within : Within limit perAction allowed) :
    CallsWithin limit perAction allowed := by
  constructor
  · intro whole
    rw [← spent_of_ones ones]
    exact within.1 whole
  · intro each name
    rw [← spent_of_ones (fun entry member => ones entry (List.mem_filter.mp member).1)]
    exact within.2 each name

end Tesera.Policy.Spending
