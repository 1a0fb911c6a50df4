import Tesera.Effects

/-!
Calls that keep a log of what they do. The log only grows, so that what a call does is a
condition on the acts it adds, by its result; the acts of a sequence are those of its parts.
-/

namespace Tesera.Logs
open Tesera.Effects

/-- A state, and what has been done so far. -/
structure Logged (σ act : Type) where
  outside : σ
  log : List act

variable {σ act ε α β : Type}

/-- Write down an act. -/
def note (done : act) : Effect (Logged σ act) ε Unit :=
  Effect.change (fun state => { state with log := state.log ++ [done] })

/-- A call on the state that the log says nothing of. -/
def outside (call : Effect σ ε α) : Effect (Logged σ act) ε α := fun state =>
  ((call state.outside).1, { state with outside := (call state.outside).2 })

/-- The result of a call, raised or not. -/
def attempt (call : Effect σ ε α) : Effect σ ε (Except ε α) := fun state => (.ok (call state).1, (call state).2)

/-- What a call adds to the log, by its result. -/
def Adds (call : Effect (Logged σ act) ε α) (Q : Except ε α → List act → Prop) : Prop :=
  ∀ state, ∃ acts, (call state).2.log = state.log ++ acts ∧ Q (call state).1 acts

section Rules

variable {call : Effect (Logged σ act) ε α} {next : α → Effect (Logged σ act) ε β} {Q R : Except ε α → List act → Prop}
  {S : Except ε β → List act → Prop}

theorem adds_none (keeps : ∀ state, (call state).2.log = state.log) (post : ∀ result, Q result []) : Adds call Q := by
  intro state
  exact ⟨[], by rw [keeps, List.append_nil], post _⟩

theorem adds_pure {value : α} (post : Q (.ok value) []) : Adds (pure value : Effect (Logged σ act) ε α) Q := by
  intro state
  exact ⟨[], (List.append_nil _).symm, post⟩

theorem adds_raise {error : ε} (post : Q (.error error) []) :
    Adds (Effect.raise error : Effect (Logged σ act) ε α) Q := by
  intro state
  exact ⟨[], (List.append_nil _).symm, post⟩

theorem adds_lift {result : Except ε α} (post : Q result []) :
    Adds (Effect.lift result : Effect (Logged σ act) ε α) Q := by
  intro state
  exact ⟨[], (List.append_nil _).symm, post⟩

theorem adds_outside {inner : Effect σ ε α} (post : ∀ result, Q result []) :
    Adds (outside inner : Effect (Logged σ act) ε α) Q := adds_none (fun _ => rfl) post

/-- The acts of the second call come after those of the first. -/
theorem adds_bind (first : Adds call Q)
    (second : ∀ value before, Q (.ok value) before → Adds (next value) (fun result after => S result (before ++ after)))
    (failed : ∀ error acts, Q (.error error) acts → S (.error error) acts) : Adds (call >>= next) S := by
  intro state
  obtain ⟨before, logged, holds⟩ := first state
  rw [run_bind, Effect.andThen]
  rcases ran : call state with ⟨error | value, middle⟩
  · rw [ran] at logged holds
    exact ⟨before, logged, failed error before holds⟩
  · rw [ran] at logged holds
    obtain ⟨after, continued, ends⟩ := second value before holds middle
    refine ⟨before ++ after, ?_, ends⟩
    rw [continued, logged, List.append_assoc]

theorem adds_attempt {Q : Except ε (Except ε α) → List act → Prop} (tried : Adds call (fun result acts => Q (.ok result) acts)) :
    Adds (attempt call) Q := by
  intro state
  obtain ⟨acts, logged, holds⟩ := tried state
  exact ⟨acts, logged, holds⟩

theorem Adds.weaken (adds : Adds call Q) (weaker : ∀ result acts, Q result acts → R result acts) : Adds call R := by
  intro state
  obtain ⟨acts, logged, holds⟩ := adds state
  exact ⟨acts, logged, weaker _ _ holds⟩

theorem adds_ite {condition : Prop} [Decidable condition] {other : Effect (Logged σ act) ε α}
    (holds : condition → Adds call Q) (fails : ¬ condition → Adds other Q) :
    Adds (if condition then call else other) Q := by
  by_cases decided : condition
  · rw [if_pos decided]
    exact holds decided
  · rw [if_neg decided]
    exact fails decided

end Rules

/-! ## Calls that add nothing -/

def Silent (call : Effect (Logged σ act) ε α) : Prop := Adds call (fun _ acts => acts = [])

section Silence

variable {call : Effect (Logged σ act) ε α} {next : α → Effect (Logged σ act) ε β} {S : Except ε β → List act → Prop}

theorem silent_pure {value : α} : Silent (pure value : Effect (Logged σ act) ε α) := adds_pure rfl

theorem silent_raise {error : ε} : Silent (Effect.raise error : Effect (Logged σ act) ε α) := adds_raise rfl

theorem silent_lift {result : Except ε α} : Silent (Effect.lift result : Effect (Logged σ act) ε α) := adds_lift rfl

theorem silent_outside {inner : Effect σ ε α} : Silent (outside inner : Effect (Logged σ act) ε α) :=
  adds_outside (fun _ => rfl)

theorem silent_attempt (tried : Silent call) : Silent (attempt call) := adds_attempt tried

theorem silent_bind (first : Silent call) (second : ∀ value, Silent (next value)) : Silent (call >>= next) := by
  apply adds_bind first
  · intro value before none
    rw [none]
    exact second value
  · intro error acts none
    exact none

theorem silent_ite {condition : Prop} [Decidable condition] {other : Effect (Logged σ act) ε α}
    (holds : condition → Silent call) (fails : ¬ condition → Silent other) :
    Silent (if condition then call else other) := adds_ite holds fails

end Silence

end Tesera.Logs
