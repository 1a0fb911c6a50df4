import Mathlib

/-!
Runs of a system that takes one step after another. A guard says which steps are allowed
in which states; a run is guarded where each of its steps is. What holds at the start and
is kept by every guarded step holds in every state of a guarded run.
-/

namespace Tesera.Transition

variable {σ α : Type}

/-- The actions lead from the first state to the last, each allowed by the guard where it
is taken. -/
inductive Run (step : σ → α → Option σ) (guard : σ → α → Prop) : σ → List α → σ → Prop
  | nil (state : σ) : Run step guard state [] state
  | cons {state next last : σ} {action : α} {actions : List α} (allowed : guard state action)
      (taken : step state action = some next) (rest : Run step guard next actions last) :
      Run step guard state (action :: actions) last

/-- Take the actions one after another. -/
def play (step : σ → α → Option σ) : σ → List α → Option σ
  | state, [] => some state
  | state, action :: actions => (step state action).bind (fun next => play step next actions)

theorem play_append (step : σ → α → Option σ) (state : σ) (actions more : List α) :
    play step state (actions ++ more) = (play step state actions).bind (fun next => play step next more) := by
  induction actions generalizing state with
  | nil => rfl
  | cons action actions ih =>
    rw [List.cons_append, play, play, Option.bind_assoc]
    congr 1
    funext next
    exact ih next

namespace Run

variable {step : σ → α → Option σ} {guard weaker : σ → α → Prop} {state middle last : σ}
  {actions more : List α}

/-- What every guarded step keeps, a guarded run keeps. -/
theorem keeps {P : σ → Prop}
    (kept : ∀ before action after, guard before action → P before →
      step before action = some after → P after)
    (run : Run step guard state actions last) (start : P state) : P last := by
  induction run with
  | nil => exact start
  | cons allowed taken rest ih => exact ih (kept _ _ _ allowed start taken)

theorem mono (weaken : ∀ before action, guard before action → weaker before action)
    (run : Run step guard state actions last) : Run step weaker state actions last := by
  induction run with
  | nil => exact .nil _
  | cons allowed taken rest ih => exact .cons (weaken _ _ allowed) taken ih

theorem append (first : Run step guard state actions middle) (second : Run step guard middle more last) :
    Run step guard state (actions ++ more) last := by
  induction first with
  | nil => exact second
  | cons allowed taken rest ih => exact .cons allowed taken (ih second)

theorem snoc {action : α} (run : Run step guard state actions middle) (allowed : guard middle action)
    (taken : step middle action = some last) : Run step guard state (actions ++ [action]) last :=
  run.append (.cons allowed taken (.nil _))

theorem played (run : Run step guard state actions last) : play step state actions = some last := by
  induction run with
  | nil => rfl
  | cons allowed taken rest ih => rw [play, taken, Option.bind_some, ih]

/-- Actions that can be taken, and that the guard allows in every state, are a run. -/
theorem of_play (played : play step state actions = some last)
    (allowed : ∀ action ∈ actions, ∀ before, guard before action) : Run step guard state actions last := by
  induction actions generalizing state with
  | nil =>
    have same : state = last := by simpa [play] using played
    exact same ▸ .nil _
  | cons action actions ih =>
    obtain ⟨next, taken, rest⟩ := Option.bind_eq_some_iff.mp played
    apply Run.cons (allowed action List.mem_cons_self state) taken
    exact ih rest (fun later found => allowed later (List.mem_cons_of_mem action found))

/-- Actions that pass a check where they are taken are a guarded run, if what the check asks
of the states is kept. -/
theorem of_check {check : σ → α → Bool} {P : σ → Prop}
    (sound : ∀ before action, P before → check before action = true → guard before action)
    (kept : ∀ before action after, P before → check before action = true →
      step before action = some after → P after) (start : P state)
    (played : play (fun before action => if check before action then step before action else none)
      state actions = some last) : Run step guard state actions last := by
  induction actions generalizing state with
  | nil =>
    have same : state = last := by simpa [play] using played
    exact same ▸ .nil _
  | cons action actions ih =>
    obtain ⟨next, checked, rest⟩ := Option.bind_eq_some_iff.mp played
    by_cases passes : check state action = true
    · have taken : step state action = some next := by simpa [passes] using checked
      exact .cons (sound state action start passes) taken (ih (kept state action next start passes taken) rest)
    · simp [passes] at checked

end Run

end Tesera.Transition
