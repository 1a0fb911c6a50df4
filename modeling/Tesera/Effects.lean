import Mathlib

/-!
Calls on a state that return a value or raise an error, and leave the state changed
either way. A condition on a call has a precondition, a postcondition of the value
returned, and one of the state an error leaves; the conditions of a sequence are those of
its parts.
-/

namespace Tesera.Effects

/-- A call on a state. -/
def Effect (σ ε α : Type) : Type := σ → Except ε α × σ

variable {σ ε α β : Type}

namespace Effect

def ret (value : α) : Effect σ ε α := fun state => (.ok value, state)

def raise (error : ε) : Effect σ ε α := fun state => (.error error, state)

/-- The second call runs where the first one returns. -/
def andThen (call : Effect σ ε α) (next : α → Effect σ ε β) : Effect σ ε β := fun state =>
  match call state with
  | (.ok value, after) => next value after
  | (.error error, after) => (.error error, after)

/-- A handler runs where the call raises, on the state it has left. -/
def rescue (call : Effect σ ε α) (handler : ε → Effect σ ε α) : Effect σ ε α := fun state =>
  match call state with
  | (.ok value, after) => (.ok value, after)
  | (.error error, after) => handler error after

def inspect (read : σ → Except ε α) : Effect σ ε α := fun state => (read state, state)

def lift (result : Except ε α) : Effect σ ε α := inspect (fun _ => result)

def change (update : σ → σ) : Effect σ ε Unit := fun state => (.ok (), update state)

/-- Raise another error in the place of one raised. -/
def mapError (convert : ε → ε) (call : Effect σ ε α) : Effect σ ε α :=
  call.rescue (fun error => raise (convert error))

end Effect

instance : Monad (Effect σ ε) where
  pure := Effect.ret
  bind := Effect.andThen

theorem run_bind (call : Effect σ ε α) (next : α → Effect σ ε β) (state : σ) :
    (call >>= next) state = Effect.andThen call next state := rfl

theorem run_pure (value : α) (state : σ) : (pure value : Effect σ ε α) state = (.ok value, state) := rfl

/-- From a state with `P` the call returns with `Q`, or raises and leaves a state
with `E`. -/
def Ensures (P : σ → Prop) (call : Effect σ ε α) (Q : α → σ → Prop) (E : σ → Prop) : Prop :=
  ∀ state, P state →
    (∀ value after, call state = (.ok value, after) → Q value after) ∧
      (∀ error after, call state = (.error error, after) → E after)

section Rules

variable {P : σ → Prop} {Q : α → σ → Prop} {R : β → σ → Prop} {E F : σ → Prop}

theorem ensures_ret {value : α} (post : ∀ state, P state → Q value state) :
    Ensures P (pure value : Effect σ ε α) Q E := by
  intro state pre
  constructor
  · rintro _ _ ⟨⟩
    exact post state pre
  · rintro _ _ ⟨⟩

theorem ensures_raise {error : ε} (post : ∀ state, P state → E state) :
    Ensures P (Effect.raise error : Effect σ ε α) Q E := by
  intro state pre
  constructor
  · rintro _ _ ⟨⟩
  · rintro _ _ ⟨⟩
    exact post state pre

/-- Nothing is asked, nothing is known. -/
theorem ensures_true {call : Effect σ ε α} :
    Ensures (fun _ => True) call (fun _ _ => True) (fun _ => True) :=
  fun _ _ => ⟨fun _ _ _ => trivial, fun _ _ _ => trivial⟩

theorem ensures_bind {call : Effect σ ε α} {next : α → Effect σ ε β} (first : Ensures P call Q E)
    (second : ∀ value, Ensures (Q value) (next value) R E) : Ensures P (call >>= next) R E := by
  intro state pre
  obtain ⟨returns, raises⟩ := first state pre
  have unfolded : (call >>= next) state = Effect.andThen call next state := rfl
  rw [unfolded, Effect.andThen]
  rcases result : call state with ⟨value | value, after⟩
  · constructor
    · rintro _ _ ⟨⟩
    · rintro _ _ ⟨⟩
      exact raises _ _ result
  · exact second value after (returns _ _ result)

theorem ensures_rescue {call : Effect σ ε α} {handler : ε → Effect σ ε α} (tried : Ensures P call Q F)
    (handled : ∀ error, Ensures F (handler error) Q E) : Ensures P (call.rescue handler) Q E := by
  intro state pre
  obtain ⟨returns, raises⟩ := tried state pre
  unfold Effect.rescue
  rcases result : call state with ⟨error | value, after⟩
  · exact handled error after (raises _ _ result)
  · constructor
    · rintro _ _ ⟨⟩
      exact returns _ _ result
    · rintro _ _ ⟨⟩

theorem ensures_inspect {read : σ → Except ε α}
    (found : ∀ state value, P state → read state = .ok value → Q value state)
    (failed : ∀ state, P state → E state) : Ensures P (Effect.inspect read) Q E := by
  intro state pre
  constructor
  · intro value after same
    obtain ⟨result, rfl⟩ := Prod.mk.inj same
    exact found _ _ pre result
  · intro error after same
    obtain ⟨-, rfl⟩ := Prod.mk.inj same
    exact failed _ pre

theorem ensures_lift {result : Except ε α}
    (found : ∀ state value, P state → result = .ok value → Q value state)
    (failed : ∀ state, P state → E state) : Ensures P (Effect.lift result) Q E :=
  ensures_inspect found failed

theorem ensures_change {update : σ → σ} {Q : Unit → σ → Prop} (post : ∀ state, P state → Q () (update state)) :
    Ensures P (Effect.change update : Effect σ ε Unit) Q E := by
  intro state pre
  constructor
  · rintro _ _ ⟨⟩
    exact post state pre
  · rintro _ _ ⟨⟩

theorem ensures_mapError {call : Effect σ ε α} {convert : ε → ε} (tried : Ensures P call Q E) :
    Ensures P (call.mapError convert) Q E :=
  ensures_rescue tried (fun _ => ensures_raise (fun _ left => left))

theorem ensures_ite {condition : Prop} [Decidable condition] {yes no : Effect σ ε α}
    (holds : condition → Ensures P yes Q E) (fails : ¬ condition → Ensures P no Q E) :
    Ensures P (if condition then yes else no) Q E := by
  split_ifs with decided
  · exact holds decided
  · exact fails decided

theorem Ensures.weaken {call : Effect σ ε α} {Q' : α → σ → Prop} {E' : σ → Prop} (ensured : Ensures P call Q E)
    (returns : ∀ value state, Q value state → Q' value state) (raises : ∀ state, E state → E' state) :
    Ensures P call Q' E' := by
  intro state pre
  obtain ⟨ret, exc⟩ := ensured state pre
  exact ⟨fun value after same => returns _ _ (ret value after same),
    fun error after same => raises _ (exc error after same)⟩

theorem Ensures.strengthen {call : Effect σ ε α} {P' : σ → Prop} (ensured : Ensures P call Q E)
    (stronger : ∀ state, P' state → P state) : Ensures P' call Q E :=
  fun state pre => ensured state (stronger state pre)

/-- A condition that does not depend on the state. -/
theorem ensures_pure {call : Effect σ ε α} {fact : Prop} (ensured : fact → Ensures P call Q E) :
    Ensures (fun state => fact ∧ P state) call Q E :=
  fun state pre => ensured pre.1 state pre.2

theorem ensures_exists {ι : Sort*} {call : Effect σ ε α} {P : ι → σ → Prop}
    (ensured : ∀ i, Ensures (P i) call Q E) : Ensures (fun state => ∃ i, P i state) call Q E := by
  rintro state ⟨i, pre⟩
  exact ensured i state pre

end Rules

end Tesera.Effects
