import Tesera.TypeScript.Processes

/-!
What the calls of a process leave of its `reentryDepth`. A call sets the entry before its
acquire, and the release clears it; where the acquire fails, no release runs, and the entry
lets the next call in without the lock file.
-/

namespace Tesera.TypeScript.Reentry
open Tesera.Transition Tesera.TypeScript.Lock Tesera.TypeScript.Processes

def Idle (process : Process) : Prop := ∀ fiber, process.fibers fiber = []

/-- The next step of a call is the failure of its acquire: the claim or its record raises, or
the deadline has passed. -/
def acquireFails (system : System) (frame : Frame) (move : Move) : Bool :=
  match frame.phase, move with
  | .claiming, .fail | .stamped _ _, .fail => true
  | .polled, .proceed => decide (frame.deadline ≤ system.now)
  | _, _ => false

/-- No acquire of the process fails. -/
def Acquires (pid : Nat) (system : System) (action : Action) : Prop :=
  ∀ fiber move top below, action = .act pid fiber move → (system.processes pid).fibers fiber = top :: below →
    acquireFails system top move = false

/-- Whatever follows, the call with this token is in its `use` only with the lock file that
it has created open. -/
def MustClaim (system : System) (pid token : Nat) : Prop :=
  ∀ actions later, Run step (fun _ _ => True) system actions later →
    ∀ frame stage, Calls (later.processes pid) frame → frame.ownerToken = token → frame.phase ≠ .inUse none stage

/-- A process without calls has no entry, and its next call must claim the lock file. -/
structure Cleared (system : System) (pid : Nat) : Prop where
  depth : Idle (system.processes pid) → (system.processes pid).reentryDepth = none
  claims : Idle (system.processes pid) → ∀ fiber use options after,
    step system (.act pid fiber (.withJournalLock use options)) = some after → MustClaim after pid system.fresh

/-! ## What the entry counts -/

/-- A call counts until its release has deleted the entry. -/
def weight (frame : Frame) : Nat :=
  match frame.phase with
  | .disowning _ => 0
  | _ => 1

def weigh (frames : List Frame) : Nat := (frames.map weight).sum

/-- The entry is at most the number of calls that count, and never a zero. -/
structure Counted (process : Process) : Prop where
  bounded : ∃ fibers : Finset Nat, (∀ fiber, fiber ∉ fibers → process.fibers fiber = []) ∧
    process.reentryDepth.getD 0 ≤ ∑ fiber ∈ fibers, weigh (process.fibers fiber)
  positive : process.reentryDepth ≠ some 0

section Steps

variable {system after : System} {pid fiber : Nat} {process : Process} {frame : Frame} {move : Move}
  {outcome : Outcome}

theorem weigh_append (frames below : List Frame) : weigh (frames ++ below) = weigh frames + weigh below := by
  simp [weigh]

theorem leave_bounds (depth : Option Nat) : (leave depth).getD 0 ≤ depth.getD 0 - 1 ∧ leave depth ≠ some 0 := by
  unfold leave
  cases depth with
  | none => simp
  | some depth =>
    by_cases last : depth - 1 = 0
    · simp [last]
    · simp [last]

/-- A step of a call lowers the entry with the weight of the call, unless its acquire fails. -/
theorem advance_bounds (advanced : advance system pid process frame move = some outcome)
    (acquires : acquireFails system frame move = false) (positive : process.reentryDepth ≠ some 0) :
    outcome.reentryDepth.getD 0 ≤ (process.reentryDepth.getD 0 - weight frame) + weigh outcome.frame.toList ∧
      outcome.reentryDepth ≠ some 0 := by
  have left := leave_bounds process.reentryDepth
  unfold advance at advanced
  simp only [] at advanced
  split at advanced
  all_goals try split at advanced
  all_goals cases advanced
  all_goals simp_all [acquireFails, weight, weigh]
  all_goals omega

theorem withJournalLock_bounds {use : Use} {options : LockOptions} (positive : process.reentryDepth ≠ some 0) :
    (withJournalLock system process use options).reentryDepth.getD 0 ≤
        process.reentryDepth.getD 0 + weigh (withJournalLock system process use options).frame.toList ∧
      (withJournalLock system process use options).reentryDepth ≠ some 0 := by
  unfold withJournalLock
  simp only []
  split
  · simp [weigh, weight]
  · simp [weigh, weight]

/-- The calls of one fiber change, and the entry with their weight. -/
theorem Counted.update (counted : Counted process) {frames : List Frame} {depth running : Option Nat} {gone new : Nat}
    (part : gone ≤ weigh (process.fibers fiber)) (weighs : weigh frames + gone = weigh (process.fibers fiber) + new)
    (bounds : depth.getD 0 ≤ (process.reentryDepth.getD 0 - gone) + new) (positive : depth ≠ some 0) :
    Counted { process with
      reentryDepth := depth
      running := running
      fibers := Function.update process.fibers fiber frames } := by
  obtain ⟨⟨fibers, outside, bounded⟩, -⟩ := counted
  refine ⟨⟨insert fiber fibers, ?_, ?_⟩, positive⟩
  · intro other outsideBoth
    rw [Finset.mem_insert, not_or] at outsideBoth
    change Function.update process.fibers fiber frames other = []
    rw [Function.update_of_ne outsideBoth.1]
    exact outside other outsideBoth.2
  · have here : fiber ∈ insert fiber fibers := Finset.mem_insert_self fiber fibers
    have same : ∑ other ∈ insert fiber fibers, weigh (process.fibers other) =
        ∑ other ∈ fibers, weigh (process.fibers other) := by
      apply Finset.sum_insert_of_eq_zero_if_notMem
      intro absent
      rw [outside fiber absent]
      rfl
    have rest : ∑ other ∈ (insert fiber fibers).erase fiber,
          weigh (Function.update process.fibers fiber frames other) =
        ∑ other ∈ (insert fiber fibers).erase fiber, weigh (process.fibers other) := by
      apply Finset.sum_congr rfl
      intro other member
      rw [Function.update_of_ne (Finset.ne_of_mem_erase member)]
    have before := Finset.add_sum_erase _ (fun other => weigh (process.fibers other)) here
    have after := Finset.add_sum_erase _ (fun other => weigh (Function.update process.fibers fiber frames other)) here
    simp only [Function.update_self, rest] at before after
    change depth.getD 0 ≤ ∑ other ∈ insert fiber fibers, weigh (Function.update process.fibers fiber frames other)
    omega

theorem Counted.commit (counted : Counted (system.processes pid)) {below : List Frame}
    (responds : respond system pid ((system.processes pid).fibers fiber) move = some (below, outcome))
    (acquires : ∀ top rest, (system.processes pid).fibers fiber = top :: rest →
      acquireFails system top move = false) :
    Counted ((system.commit pid fiber below outcome).processes pid) := by
  simp only [System.commit, Function.update_self]
  obtain ⟨use, options, rfl, rfl, rfl⟩ | ⟨top, frames, advanced⟩ := respond_cases responds
  · obtain ⟨bounds, positive⟩ := @withJournalLock_bounds system _ use options counted.positive
    apply counted.update (Nat.zero_le _) _ bounds positive
    rw [weigh_append, Nat.add_zero, Nat.add_comm]
  · obtain ⟨bounds, positive⟩ := advance_bounds advanced (acquires top below frames) counted.positive
    have together : weigh ((system.processes pid).fibers fiber) = weight top + weigh below := by
      rw [frames]
      simp [weigh]
    apply counted.update _ _ bounds positive
    · omega
    · rw [weigh_append, together]
      omega

theorem counted_step {action : Action} (acquires : Acquires pid system action)
    (counted : Counted (system.processes pid)) (taken : step system action = some after) :
    Counted (after.processes pid) := by
  obtain ⟨actor, stepping, move, below, outcome, rfl, _, responds, rfl⟩ | ⟨_, rfl, rfl⟩ | ⟨crashed, rfl, rfl⟩ :=
    step_cases taken
  · by_cases same : actor = pid
    · subst same
      apply counted.commit responds
      exact fun top rest frames => acquires stepping move top rest rfl frames
    · rw [commit_processes_other (Ne.symm same)]
      exact counted
  · exact counted
  · by_cases same : crashed = pid
    · subst same
      simpa using ⟨counted.bounded, counted.positive⟩
    · simpa [Function.update_of_ne (Ne.symm same)] using counted

theorem Counted.clear (counted : Counted process) (idle : Idle process) : process.reentryDepth = none := by
  obtain ⟨⟨fibers, -, bounded⟩, positive⟩ := counted
  have nothing : ∑ fiber ∈ fibers, weigh (process.fibers fiber) = 0 := by
    apply Finset.sum_eq_zero
    intro fiber _
    rw [idle fiber]
    rfl
  rw [nothing] at bounded
  cases depth : process.reentryDepth with
  | none => rfl
  | some depth_ =>
    rw [depth, Option.getD_some] at bounded
    rw [depth, Nat.le_zero.mp bounded] at positive
    exact absurd rfl positive

end Steps

/-! ## The next call -/

section Next

variable {system after : System} {pid token : Nat}

/-- The call with a token is in no phase of a re-entered one, and later calls have others. -/
structure Claiming (system : System) (pid token : Nat) : Prop where
  issued : token < system.fresh
  entered : ∀ frame, Calls (system.processes pid) frame → frame.ownerToken = token → reentered frame.phase = false

theorem advance_token {process : Process} {frame later : Frame} {move : Move} {outcome : Outcome}
    (advanced : advance system pid process frame move = some outcome) (left : outcome.frame = some later) :
    later.ownerToken = frame.ownerToken := by
  unfold advance at advanced
  simp only [] at advanced
  split at advanced
  all_goals try split at advanced
  all_goals cases advanced
  all_goals cases left
  all_goals rfl

theorem withJournalLock_token {process : Process} {use : Use} {options : LockOptions} :
    ∀ frame ∈ (withJournalLock system process use options).frame, frame.ownerToken = system.fresh := by
  unfold withJournalLock
  simp only []
  split <;> simp

theorem Claiming.step {action : Action} (claiming : Claiming system pid token)
    (taken : step system action = some after) : Claiming after pid token := by
  obtain ⟨actor, stepping, move, below, outcome, rfl, _, responds, rfl⟩ | ⟨_, rfl, rfl⟩ | ⟨crashed, rfl, rfl⟩ :=
    step_cases taken
  · refine ⟨Nat.lt_succ_of_lt claiming.issued, ?_⟩
    by_cases same : actor = pid
    · subst same
      rintro frame ⟨fiber, found⟩ isToken
      by_cases steps : fiber = stepping
      · subst steps
        rw [commit_fibers_self, List.mem_append, Option.mem_toList] at found
        obtain ⟨use, options, rfl, rfl, rfl⟩ | ⟨top, frames, advanced⟩ := respond_cases responds
        · obtain new | old := found
          · have fresh := withJournalLock_token frame new
            have issued := claiming.issued
            omega
          · exact claiming.entered frame ⟨fiber, old⟩ isToken
        · obtain new | old := found
          · apply advance_reentered advanced new
            apply claiming.entered top ⟨fiber, frames ▸ List.mem_cons_self⟩
            rw [← advance_token advanced new, isToken]
          · exact claiming.entered frame ⟨fiber, frames ▸ List.mem_cons_of_mem top old⟩ isToken
      · rw [commit_fibers_other steps] at found
        exact claiming.entered frame ⟨fiber, found⟩ isToken
    · rw [commit_processes_other (Ne.symm same)]
      exact claiming.entered
  · exact ⟨claiming.issued, claiming.entered⟩
  · refine ⟨claiming.issued, ?_⟩
    by_cases same : crashed = pid
    · subst same
      simpa [Calls] using claiming.entered
    · simpa [Function.update_of_ne (Ne.symm same)] using claiming.entered

theorem Claiming.mustClaim (claiming : Claiming system pid token) : MustClaim system pid token := by
  intro actions later run frame stage calls isToken entered
  have still := run.keeps (P := fun reached => Claiming reached pid token)
    (fun _ _ _ _ claiming taken => claiming.step taken) claiming
  have claims := still.entered frame calls isToken
  rw [entered] at claims
  cases claims

/-- A call made where no call is in progress and nothing is counted must claim the file. -/
theorem mustClaim_of_clear (clear : (system.processes pid).reentryDepth = none) (idle : Idle (system.processes pid))
    {fiber : Nat} {use : Use} {options : LockOptions}
    (taken : step system (.act pid fiber (.withJournalLock use options)) = some after) :
    MustClaim after pid system.fresh := by
  obtain ⟨actor, stepping, move, below, outcome, acts, _, responds, rfl⟩ | ⟨_, acts, _⟩ | ⟨_, acts, _⟩ :=
    step_cases taken
  · obtain ⟨rfl, rfl, rfl⟩ : pid = actor ∧ fiber = stepping ∧ .withJournalLock use options = move := by
      simpa using acts
    rw [idle fiber] at responds
    have started : [] = below ∧ withJournalLock system (system.processes pid) use options = outcome := by
      simpa [respond] using responds
    obtain ⟨rfl, rfl⟩ := started
    apply Claiming.mustClaim
    refine ⟨Nat.lt_succ_self _, ?_⟩
    rintro frame ⟨other, found⟩ -
    by_cases same : other = fiber
    · subst same
      rw [commit_fibers_self, List.append_nil, Option.mem_toList] at found
      rw [(withJournalLock_claims clear).2 frame found]
      rfl
    · rw [commit_fibers_other same, idle other] at found
      cases found
  · cases acts
  · cases acts

end Next

/-! ## Runs -/

theorem cleared_of_counted {system : System} {pid : Nat} (counted : Counted (system.processes pid)) :
    Cleared system pid where
  depth idle := counted.clear idle
  claims idle _ _ _ _ taken := mustClaim_of_clear (counted.clear idle) idle taken

theorem counted_initial {system : System} (initial : system.Initial) (pid : Nat) :
    Counted (system.processes pid) where
  bounded := ⟨∅, fun fiber _ => initial.idle pid fiber, by simp [initial.depth]⟩
  positive := by simp [initial.depth]

/-- In every run in which no acquire of a process fails, its calls leave no entry behind when
all have ended, and the next one must claim the lock file. -/
theorem entry_cleared {start system : System} {actions : List Action} {pid : Nat} (initial : start.Initial)
    (run : Run step (Acquires pid) start actions system) : Cleared system pid := by
  apply cleared_of_counted
  apply run.keeps (P := fun reached => Counted (reached.processes pid))
  · intro before action after acquires counted taken
    exact counted_step acquires counted taken
  · exact counted_initial initial pid

/-- Whether the next step of a fiber is not the failure of an acquire. -/
def passes (system : System) : Action → Bool
  | .act pid fiber move =>
      ((system.processes pid).fibers fiber).head?.elim true (fun top => !acquireFails system top move)
  | _ => true

theorem acquires_of_passes {system : System} {pid : Nat} {action : Action} (passed : passes system action = true) :
    Acquires pid system action := by
  rintro fiber move top below rfl frames
  simpa [passes, frames] using passed

/-- A call from its claim to its release. -/
def oneCall : List Action :=
  .act 0 0 (.withJournalLock .other {}) :: List.replicate 7 (.act 0 0 .proceed)

/-- After one call has taken the lock and released it, the next must take it too. -/
theorem entry_cleared_sample : ∃ system, Cleared system 0 ∧ (system.processes 0).fibers 0 = [] ∧
    system.lockfile.isNone = true := by
  have played : (play (fun before action => if passes before action then step before action else none)
      System.quiet oneCall).isSome = true := by decide
  have shown : (play (fun before action => if passes before action then step before action else none)
      System.quiet oneCall).map (fun system =>
        (((system.processes 0).fibers 0).length, system.lockfile.isNone)) = some (0, true) := by decide
  obtain ⟨system, found⟩ := Option.isSome_iff_exists.mp played
  rw [found, Option.map_some, Option.some.injEq, Prod.mk.injEq] at shown
  have run : Run step (Acquires 0) System.quiet oneCall system :=
    .of_check (P := fun _ => True) (fun _ _ _ passed => acquires_of_passes passed) (fun _ _ _ _ _ _ => trivial)
      trivial found
  exact ⟨system, entry_cleared System.initial_quiet run, List.length_eq_zero_iff.mp shown.1, shown.2⟩

/-! ## A call that times out -/

/-- Another process holds the lock file. -/
def System.contended : System :=
  { System.quiet with lockfile := some ⟨0, 0, ⟨some ⟨1, "host", 0⟩, some 0⟩⟩, fresh := 1 }

theorem System.initial_contended : System.contended.Initial where
  idle _ _ := rfl
  depth _ := rfl
  running _ := rfl
  inode file found := by
    cases found
    decide
  token file token found isToken := by
    cases found
    cases isToken
    decide

/-- A call meets the file of another process and times out, and the next is in its `use`
two steps later. -/
def timedOut : List Action :=
  .act 0 0 (.withJournalLock .other ⟨0, 30000⟩) :: List.replicate 5 (.act 0 0 .proceed)

def nextCall : List Action := [.act 0 0 (.withJournalLock .other {}), .act 0 0 .proceed]

/-- The fibers that take no step keep their calls. -/
theorem fibers_untouched {guard : System → Action → Prop} {start system : System} {actions : List Action}
    {pid fiber other : Nat} (run : Run step guard start actions system)
    (only : ∀ action ∈ actions, ∃ move, action = .act pid fiber move) (differ : other ≠ fiber) :
    (system.processes pid).fibers other = (start.processes pid).fibers other := by
  induction run with
  | nil => rfl
  | cons allowed taken rest ih =>
    rw [ih (fun action later => only action (List.mem_cons_of_mem _ later))]
    obtain ⟨move, rfl⟩ := only _ List.mem_cons_self
    obtain ⟨actor, stepping, made, below, outcome, acts, _, _, rfl⟩ | ⟨_, acts, _⟩ | ⟨_, acts, _⟩ := step_cases taken
    · obtain ⟨rfl, rfl, rfl⟩ : pid = actor ∧ fiber = stepping ∧ move = made := by simpa using acts
      exact commit_fibers_other differ
    · cases acts
    · cases acts

/-- After a call that timed out, the process has no call, its entry is a one, and the next
call is in its `use` while another process holds the lock file. -/
theorem timeout_leaves_entry : ∃ start system, start.Initial ∧
    Run step (fun _ _ => True) start timedOut system ∧ ¬ Cleared system 0 ∧
    ∃ after, Run step (fun _ _ => True) system nextCall after ∧ Fibers.InUse (after.processes 0) 0 ∧
      after.lockfile.map (fun file => file.contents.token) = some (some 0) := by
  have played : (play step System.contended timedOut).isSome = true := by decide
  have shown : (play step System.contended timedOut).map (fun system =>
      (((system.processes 0).fibers 0).length, (system.processes 0).reentryDepth)) = some (0, some 1) := by decide
  have others : (play step System.contended (timedOut ++ nextCall)).map (fun system =>
      (((system.processes 0).fibers 0).map (fun frame => Fibers.active frame.phase),
        system.lockfile.map (fun file => file.contents.token))) = some ([true], some (some 0)) := by decide
  obtain ⟨system, found⟩ := Option.isSome_iff_exists.mp played
  have run : Run step (fun _ _ => True) System.contended timedOut system := .of_play found (by simp)
  rw [found, Option.map_some, Option.some.injEq, Prod.mk.injEq] at shown
  refine ⟨System.contended, system, System.initial_contended, run, ?_, ?_⟩
  · intro cleared
    have idle : Idle (system.processes 0) := by
      intro fiber
      by_cases first : fiber = 0
      · rw [first]
        exact List.length_eq_zero_iff.mp shown.1
      · have only : ∀ action ∈ timedOut, ∃ move, action = .act 0 0 move := by simp [timedOut]
        exact fibers_untouched run only first
    rw [cleared.depth idle] at shown
    cases shown.2
  · rw [play_append, found, Option.bind_some] at others
    obtain ⟨after, later, seen⟩ := Option.map_eq_some_iff.mp others
    rw [Prod.mk.injEq] at seen
    refine ⟨after, .of_play later (by simp), ?_, seen.2⟩
    apply Fibers.inUse_of_map
    rw [seen.1]
    exact List.mem_cons_self

end Tesera.TypeScript.Reentry
