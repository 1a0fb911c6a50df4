import Tesera.TypeScript.Lock

/-!
The fibers of one process under `withJournalLock`. The `reentryDepth` entry does not say
whose calls it counts: a call of another fiber finds it positive, takes itself for a nested
one and runs beside the first. Calls exclude each other only where no fiber starts one while
another fiber has one in progress.
-/

namespace Tesera.TypeScript.Fibers
open Tesera.Transition Tesera.TypeScript.Lock

/-- Whether the call is inside its `use`. -/
def active : Phase → Bool
  | .inUse _ _ => true
  | _ => false

/-- Whether the call is inside the section of `appendEvent`. -/
def appends : Phase → Bool
  | .inUse _ .other => false
  | .inUse _ _ => true
  | _ => false

def InUse (process : Process) (fiber : Nat) : Prop :=
  ∃ frame ∈ process.fibers fiber, active frame.phase = true

def Appending (process : Process) (fiber : Nat) : Prop :=
  ∃ frame ∈ process.fibers fiber, appends frame.phase = true

/-- The `use` sections of two fibers are not both active, and while a fiber is in the section
of `appendEvent` no step of another fiber appends or enters such a section. Calls of one
fiber are nested inside one another. -/
structure Excludes (system : System) (pid : Nat) : Prop where
  use : ∀ fiber other, fiber ≠ other → InUse (system.processes pid) fiber →
    ¬ InUse (system.processes pid) other
  append : ∀ fiber other move after, fiber ≠ other → Appending (system.processes pid) fiber →
    step system (.act pid other move) = some after →
    after.journal = system.journal ∧ ¬ Appending (after.processes pid) other

/-- A call that is not nested starts only where no fiber of its process has a call in
progress. -/
def StartsAlone (pid : Nat) (system : System) (action : Action) : Prop :=
  ∀ fiber use options, action = .act pid fiber (.withJournalLock use options) →
    (system.processes pid).fibers fiber = [] → ∀ other, (system.processes pid).fibers other = []

/-- At most one fiber has calls in progress. -/
def Alone (process : Process) : Prop :=
  ∀ fiber other, process.fibers fiber ≠ [] → process.fibers other ≠ [] → fiber = other

/-- An append of one fiber, up to the build of its event. -/
def aloneRun : List Action :=
  [.act 0 0 (.withJournalLock .appendEvent {}), .act 0 0 .proceed, .act 0 0 .proceed, .act 0 0 .proceed,
    .act 0 0 .proceed, .act 0 0 .proceed, .act 0 0 .proceed]

section Runs

variable {system after : System} {pid : Nat}

/-- A fiber without a call in progress gets one only by making it. -/
theorem respond_idle {move : Move} {below : List Frame} {outcome : Outcome}
    (responds : respond system pid [] move = some (below, outcome)) :
    ∃ use options, move = .withJournalLock use options := by
  cases move with
  | withJournalLock use options => exact ⟨use, options, rfl⟩
  | proceed | fail | build => simp [respond] at responds

theorem alone_step {action : Action} (guarded : StartsAlone pid system action)
    (alone : Alone (system.processes pid)) (taken : step system action = some after) :
    Alone (after.processes pid) := by
  obtain ⟨actor, stepping, move, below, outcome, rfl, _, responds, rfl⟩ | ⟨_, rfl, rfl⟩ | ⟨crashed, rfl, rfl⟩ :=
    step_cases taken
  · by_cases same : actor = pid
    · subst same
      -- the calls of the other fibers are untouched; if there are any, the one that steps has some
      have others : ∀ other, other ≠ stepping → (system.processes actor).fibers other ≠ [] → False := by
        intro other differ busy
        by_cases idle : (system.processes actor).fibers stepping = []
        · rw [idle] at responds
          obtain ⟨use, options, rfl⟩ := respond_idle responds
          exact busy (guarded stepping use options rfl idle other)
        · exact differ (alone other stepping busy idle)
      have only : ∀ other, ((system.commit actor stepping below outcome).processes actor).fibers other ≠ [] →
          other = stepping := by
        intro other busy
        by_contra differ
        rw [commit_fibers_other differ] at busy
        exact others other differ busy
      intro fiber other busy busyOther
      exact (only fiber busy).trans (only other busyOther).symm
    · rw [commit_processes_other (Ne.symm same)]
      exact alone
  · exact alone
  · by_cases same : crashed = pid
    · subst same
      simpa [Alone] using alone
    · simpa [Function.update_of_ne (Ne.symm same)] using alone

theorem InUse.busy {process : Process} {fiber : Nat} (uses : InUse process fiber) :
    process.fibers fiber ≠ [] := by
  obtain ⟨frame, found, _⟩ := uses
  exact List.ne_nil_of_mem found

theorem Appending.busy {process : Process} {fiber : Nat} (appending : Appending process fiber) :
    process.fibers fiber ≠ [] := by
  obtain ⟨frame, found, _⟩ := appending
  exact List.ne_nil_of_mem found

theorem withJournalLock_journal (process : Process) (use : Use) (options : LockOptions) :
    (withJournalLock system process use options).journal = system.journal := by
  unfold withJournalLock
  simp only []
  split <;> rfl

/-- A call that has just started is not yet in its `use`. -/
theorem withJournalLock_outside (process : Process) (use : Use) (options : LockOptions) :
    ∀ frame ∈ (withJournalLock system process use options).frame.toList, active frame.phase = false := by
  unfold withJournalLock
  simp only []
  split <;> simp [active]

theorem active_of_appends {phase : Phase} (appending : appends phase = true) : active phase = true := by
  cases phase <;> simp_all [appends, active]

theorem excludes_of_alone (alone : Alone (system.processes pid)) : Excludes system pid where
  use fiber other differ uses usesOther := differ (alone fiber other uses.busy usesOther.busy)
  append fiber other move after differ appending taken := by
    have idle : (system.processes pid).fibers other = [] := by
      by_contra busy
      exact differ (alone fiber other appending.busy busy)
    obtain ⟨actor, stepping, made, below, outcome, acts, _, responds, rfl⟩ | ⟨_, acts, _⟩ | ⟨_, acts, _⟩ :=
      step_cases taken
    · obtain ⟨rfl, rfl, rfl⟩ : pid = actor ∧ other = stepping ∧ move = made := by simpa using acts
      rw [idle] at responds
      obtain ⟨use, options, rfl⟩ := respond_idle responds
      have started : [] = below ∧ withJournalLock system (system.processes pid) use options = outcome := by
        simpa [respond] using responds
      obtain ⟨rfl, rfl⟩ := started
      refine ⟨withJournalLock_journal _ use options, ?_⟩
      rintro ⟨frame, found, appendsFrame⟩
      rw [commit_fibers_self, List.append_nil] at found
      have outside := withJournalLock_outside (system.processes pid) use options frame found
      rw [active_of_appends appendsFrame] at outside
      cases outside
    · cases acts
    · cases acts

/-- In every run in which no call starts beside one of another fiber, calls that are not
nested exclude each other. -/
theorem fibers_exclude {start : System} {actions : List Action} (initial : start.Initial)
    (run : Run step (StartsAlone pid) start actions system) : Excludes system pid := by
  apply excludes_of_alone
  apply run.keeps (P := fun reached => Alone (reached.processes pid))
  · intro before action next guarded alone taken
    exact alone_step guarded alone taken
  · intro fiber other busy
    exact absurd (initial.idle pid fiber) busy

/-- A fiber makes its call where no other has one, and goes on into its section. -/
theorem fibers_exclude_sample : ∃ system, Excludes system 0 ∧
    ((system.processes 0).fibers 0).map (fun frame => appends frame.phase) = [true] := by
  have played : (play step System.quiet aloneRun).isSome = true := by decide
  have shown : (play step System.quiet aloneRun).map (fun system =>
      ((system.processes 0).fibers 0).map (fun frame => appends frame.phase)) = some [true] := by decide
  obtain ⟨system, found⟩ := Option.isSome_iff_exists.mp played
  rw [found] at shown
  have run : Run step (StartsAlone 0) System.quiet aloneRun system := by
    obtain ⟨next, taken, rest⟩ := Option.bind_eq_some_iff.mp found
    apply Run.cons (fun _ _ _ _ _ _ => rfl) taken
    apply Run.of_play rest
    intro action later before fiber use options call
    subst call
    simp at later
  exact ⟨system, fibers_exclude System.initial_quiet run, Option.some.inj shown⟩

end Runs

/-! ## A call beside another -/

section Beside

variable {system : System} {pid : Nat}

/-- Where the depth is positive, a call of a fiber with none in progress is in its `use` two
steps later, whatever call the depth counts. -/
theorem enters_beside {fiber depth : Nat} (use : Use) (options : LockOptions)
    (schedules : (system.processes pid).schedules fiber = true)
    (idle : (system.processes pid).fibers fiber = [])
    (counted : (system.processes pid).reentryDepth = some depth) (positive : 0 < depth) :
    ∃ after, Run step (fun _ _ => True) system
        [.act pid fiber (.withJournalLock use options), .act pid fiber .proceed] after ∧
      InUse (after.processes pid) fiber ∧
      ∀ other, other ≠ fiber → (after.processes pid).fibers other = (system.processes pid).fibers other := by
  have alive : (system.processes pid).alive = true := by
    simp only [Process.schedules, Bool.and_eq_true] at schedules
    exact schedules.1
  let outcome := withJournalLock system (system.processes pid) use options
  have entering : outcome = ⟨system.lockfile, system.journal, some (depth + 1),
      some ⟨system.fresh, system.now + options.timeoutMs, options, use, .entering⟩⟩ := by
    simp [outcome, withJournalLock, counted, positive]
  have first : step system (.act pid fiber (.withJournalLock use options)) =
      some (system.commit pid fiber [] outcome) := by
    simp [step, schedules, idle, respond, outcome]
  obtain ⟨after, second, uses⟩ : ∃ after,
      step (system.commit pid fiber [] outcome) (.act pid fiber .proceed) = some after ∧
        after.processes pid = { (system.commit pid fiber [] outcome).processes pid with
          running := none
          fibers := Function.update ((system.commit pid fiber [] outcome).processes pid).fibers fiber
            [⟨system.fresh, system.now + options.timeoutMs, options, use, .inUse none use.start⟩] } := by
    simp [step, Process.schedules, alive, respond, entering, advance, System.commit, Phase.blocks]
  refine ⟨after, .cons trivial first (.cons trivial second (.nil _)), ?_, ?_⟩
  · rw [uses]
    simp [InUse, active]
  · intro other differ
    rw [uses]
    simp [System.commit, differ]

theorem inUse_of_map {process : Process} {fiber : Nat}
    (shown : true ∈ (process.fibers fiber).map (fun frame => active frame.phase)) : InUse process fiber := by
  obtain ⟨frame, found, value⟩ := List.mem_map.mp shown
  exact ⟨frame, found, value⟩

/-- One fiber claims the lock; another makes its call, reads the same tail, and both append. -/
def besideRun : List Action :=
  [.act 0 0 (.withJournalLock .appendEvent {}), .act 0 0 .proceed, .act 0 0 .proceed, .act 0 0 .proceed,
    .act 0 0 .proceed, .act 0 0 .proceed, .act 0 0 .proceed,
    .act 0 1 (.withJournalLock .appendEvent {}), .act 0 1 .proceed, .act 0 1 .proceed, .act 0 1 .proceed,
    .act 0 0 (.build ⟨none, "first"⟩), .act 0 0 .proceed,
    .act 0 1 (.build ⟨none, "second"⟩), .act 0 1 .proceed]

/-- Two fibers of a process are in their sections at once, and leave two events that both
follow the same tail. -/
theorem fibers_overlap : ∃ start actions system, start.Initial ∧
    Run step (fun _ _ => True) start actions system ∧ ¬ Excludes system 0 ∧
    system.journal.map (fun event => event.previousHash) = [none, none] := by
  have played : (play step System.quiet besideRun).isSome = true := by decide
  have shown : (play step System.quiet besideRun).map (fun system =>
      (((system.processes 0).fibers 0).map (fun frame => active frame.phase),
        ((system.processes 0).fibers 1).map (fun frame => active frame.phase),
        system.journal.map (fun event => event.previousHash))) = some ([true], [true], [none, none]) := by
    decide
  obtain ⟨system, found⟩ := Option.isSome_iff_exists.mp played
  rw [found] at shown
  simp only [Option.map_some, Option.some.injEq, Prod.mk.injEq] at shown
  obtain ⟨first, second, events⟩ := shown
  refine ⟨System.quiet, besideRun, system, System.initial_quiet, .of_play found (by simp), ?_, events⟩
  intro excludes
  apply excludes.use 0 1 (by decide)
  · exact inUse_of_map (by rw [first]; exact List.mem_cons_self)
  · exact inUse_of_map (by rw [second]; exact List.mem_cons_self)

end Beside

end Tesera.TypeScript.Fibers
