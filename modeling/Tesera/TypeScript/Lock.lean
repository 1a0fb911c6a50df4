import Tesera.Transition

/-!
`withJournalLock` and the lock file that its calls contend for: any number of processes,
each with any number of fibers, and in each fiber a stack of calls that are nested inside
one another. A step is one file-system call of the source, or the code between two places
where a fiber can be preempted. Time passes and processes crash between any two steps.
-/

namespace Tesera.TypeScript.Lock

/-! ## The lock file -/

structure LockOptions where
  timeoutMs : Int := 30000
  staleAfterMs : Int := 30000

structure LockRecord where
  pid : Nat
  hostname : String
  takenAt : Int

/-- What the text of a lock file parses to: the record that `readRecord` finds in it, and
the token that a release finds. -/
structure Contents where
  record : Option LockRecord
  token : Option Nat

structure LockFile where
  inode : Nat
  mtimeMs : Int
  contents : Contents

/-- What `readRecord` returns; no `mtimeMs` stands for `NaN`. -/
structure Seen where
  record : Option LockRecord
  mtimeMs : Option Int

/-- From the file that the path names at the `statSync` and the one it names at the
`readFileSync`. -/
def readRecord (statted read : Option LockFile) : Seen :=
  match statted with
  | none => ⟨none, none⟩
  | some file => ⟨read.bind (fun found => found.contents.record), some file.mtimeMs⟩

def isStale (pidAlive : Nat → Bool) (now : Int) (seen : Seen) (staleAfterMs : Int) : Bool :=
  match seen.record with
  | none => seen.mtimeMs.elim false (fun mtime => decide (staleAfterMs < now - mtime))
  | some record => !pidAlive record.pid || decide (staleAfterMs < now - record.takenAt)

/-! ## What runs under the lock -/

structure Event where
  previousHash : Option String
  eventHash : String

def readLastEventHash (journal : List Event) : Option String :=
  journal.getLast?.map (fun event => event.eventHash)

/-- Where the `use` of a call stands: that of `appendEvent` with its read of the tail, its
build and its write, or that of another caller. -/
inductive Stage where
  | other
  | mkdir
  | reading
  | building (previousHash : Option String)
  | writing (event : Event)
  | done

inductive Use where
  | appendEvent
  | other

def Use.start : Use → Stage
  | .appendEvent => .mkdir
  | .other => .other

/-! ## Calls -/

/-- The open lock file of a call, with the time it was created. -/
structure Fd where
  inode : Nat
  openedAt : Int

/-- Where a call stands. A call that did not re-enter holds the descriptor of the file it
created until the release closes it. -/
inductive Phase where
  /-- Re-entered; `use` has not begun. -/
  | entering
  /-- At the `openSync` of the claim. -/
  | claiming
  /-- The file is created, its record not yet made. -/
  | created (fd : Fd)
  /-- The record is made, not yet written. -/
  | stamped (fd : Fd) (takenAt : Int)
  /-- The claim is made; `use` has not begun. -/
  | claimed (fd : Fd)
  /-- The claim met an existing file. -/
  | refused
  | statted (file : Option LockFile)
  | judging (file : Option LockFile) (seen : Seen)
  /-- Found stale, not yet removed. -/
  | reclaiming (file : Option LockFile)
  /-- At the check of the deadline. -/
  | polled
  | inUse (held : Option Fd) (stage : Stage)
  | releasing (held : Option Fd)
  /-- The token read is the call's own; the file is not yet removed. -/
  | disowning (inode : Nat)

structure Frame where
  ownerToken : Nat
  deadline : Int
  options : LockOptions
  use : Use
  phase : Phase

/-- No other fiber of the process runs between this phase and the next step: the code goes
on without a yield. -/
def Phase.blocks : Phase → Bool
  | .created _ | .stamped _ _ | .statted _ | .judging _ _ | .reclaiming _ | .polled | .disowning _ => true
  | _ => false

/-- The `use` of a call may itself call `withJournalLock`; that of `appendEvent` does so
only in the builder it is given. -/
def Phase.nests : Phase → Bool
  | .inUse _ .other | .inUse _ (.building _) => true
  | _ => false

/-- A process, with the entry of the module's `reentryDepth` for the lock file and the
fiber that runs without a yield. -/
structure Process where
  alive : Bool
  hostname : String
  reentryDepth : Option Nat
  running : Option Nat
  fibers : Nat → List Frame

structure System where
  now : Int
  lockfile : Option LockFile
  journal : List Event
  /-- The next unused inode and token. -/
  fresh : Nat
  processes : Nat → Process

def System.pidAlive (system : System) (pid : Nat) : Bool := (system.processes pid).alive

/-- What a step of a call leaves; no frame where the call has ended. -/
structure Outcome where
  lockfile : Option LockFile
  journal : List Event
  reentryDepth : Option Nat
  frame : Option Frame

inductive Move where
  | withJournalLock (use : Use) (options : LockOptions)
  /-- The next step of the code. -/
  | proceed
  /-- The next step raises, or the fiber is interrupted. -/
  | fail
  /-- The builder given to `appendEvent` returns. -/
  | build (event : Event)

/-- The code up to the first yield: the depth is read and set in one go. -/
def withJournalLock (system : System) (process : Process) (use : Use) (options : LockOptions) : Outcome :=
  let depth := process.reentryDepth.getD 0
  let call := fun phase => some (Frame.mk system.fresh (system.now + options.timeoutMs) options use phase)
  if 0 < depth then ⟨system.lockfile, system.journal, some (depth + 1), call .entering⟩
  else ⟨system.lockfile, system.journal, some 1, call .claiming⟩

/-- The record written through a descriptor, where the path still names its file. -/
def writeRecord (lockfile : Option LockFile) (fd : Fd) (now : Int) (record : LockRecord) (token : Nat) :
    Option LockFile :=
  lockfile.map (fun file =>
    if file.inode = fd.inode then ⟨file.inode, now, ⟨some record, some token⟩⟩ else file)

/-- The release of a call that re-entered. -/
def leave (reentryDepth : Option Nat) : Option Nat :=
  let current := reentryDepth.getD 1 - 1
  if current = 0 then none else some current

/-- The next step of the call on top of a fiber. -/
def advance (system : System) (pid : Nat) (process : Process) (frame : Frame) (move : Move) : Option Outcome :=
  let same : Outcome := ⟨system.lockfile, system.journal, process.reentryDepth, some frame⟩
  let goto := fun phase => some { same with frame := some { frame with phase := phase } }
  match frame.phase, move with
  | .entering, .proceed => goto (.inUse none frame.use.start)
  | .entering, .fail => goto (.releasing none)
  | .claiming, .proceed =>
      match system.lockfile with
      | none =>
          some { same with
            lockfile := some ⟨system.fresh, system.now, ⟨none, none⟩⟩
            frame := some { frame with phase := .created ⟨system.fresh, system.now⟩ } }
      | some _ => goto .refused
  | .claiming, .fail => some { same with frame := none }
  | .created fd, .proceed => goto (.stamped fd system.now)
  | .stamped fd takenAt, .proceed =>
      some { same with
        lockfile := writeRecord system.lockfile fd system.now ⟨pid, process.hostname, takenAt⟩ frame.ownerToken
        frame := some { frame with phase := .claimed fd } }
  -- a write that raises is a `LockError`; the file stays
  | .stamped _ _, .fail => some { same with frame := none }
  | .claimed fd, .proceed => goto (.inUse (some fd) frame.use.start)
  | .claimed fd, .fail => goto (.releasing (some fd))
  | .refused, .proceed => goto (.statted system.lockfile)
  | .statted file, .proceed => goto (.judging file (readRecord file system.lockfile))
  | .judging file seen, .proceed =>
      if isStale system.pidAlive system.now seen frame.options.staleAfterMs then goto (.reclaiming file)
      else goto .polled
  | .reclaiming _, .proceed =>
      some { same with lockfile := none, frame := some { frame with phase := .polled } }
  | .reclaiming _, .fail => goto .polled
  -- past the deadline the acquire fails, and the release does not run
  | .polled, .proceed => if frame.deadline ≤ system.now then some { same with frame := none } else goto .claiming
  | .inUse held .mkdir, .proceed => goto (.inUse held .reading)
  | .inUse held .reading, .proceed => goto (.inUse held (.building (readLastEventHash system.journal)))
  | .inUse held (.building _), .build event => goto (.inUse held (.writing event))
  | .inUse held (.writing event), .proceed =>
      some { same with
        journal := system.journal ++ [event]
        frame := some { frame with phase := .inUse held .done } }
  | .inUse held .done, .proceed => goto (.releasing held)
  | .inUse held .other, .proceed => goto (.releasing held)
  | .inUse held _, .fail => goto (.releasing held)
  | .releasing none, .proceed => some { same with reentryDepth := leave process.reentryDepth, frame := none }
  | .releasing (some _), .proceed =>
      let token := system.lockfile.bind (fun file => file.contents.token)
      let examined := system.lockfile.elim 0 (fun file => file.inode)
      if token = some frame.ownerToken then
        some { same with reentryDepth := none, frame := some { frame with phase := .disowning examined } }
      else some { same with reentryDepth := none, frame := none }
  | .disowning _, .proceed => some { same with lockfile := none, frame := none }
  | .disowning _, .fail => some { same with frame := none }
  | _, _ => none

/-! ## The system -/

inductive Action where
  | act (pid fiber : Nat) (move : Move)
  | tick (elapsed : Nat)
  | crash (pid : Nat)

/-- The system after a step of a fiber, over the calls below the one that stepped. -/
def System.commit (system : System) (pid fiber : Nat) (below : List Frame) (outcome : Outcome) : System :=
  let process := system.processes pid
  { system with
    lockfile := outcome.lockfile
    journal := outcome.journal
    fresh := system.fresh + 1
    processes := Function.update system.processes pid
      { process with
        reentryDepth := outcome.reentryDepth
        running := if outcome.frame.any (fun frame => frame.phase.blocks) then some fiber else none
        fibers := Function.update process.fibers fiber (outcome.frame.toList ++ below) } }

/-- A step of a fiber with the given calls, and the calls below the one that steps. -/
def respond (system : System) (pid : Nat) : List Frame → Move → Option (List Frame × Outcome)
  | [], .withJournalLock use options =>
      some ([], Lock.withJournalLock system (system.processes pid) use options)
  | [], _ => none
  | top :: rest, .withJournalLock use options =>
      if top.phase.nests then
        some (top :: rest, Lock.withJournalLock system (system.processes pid) use options)
      else none
  | top :: rest, move => (advance system pid (system.processes pid) top move).map (fun outcome => (rest, outcome))

/-- No other fiber of the process is between two steps without a yield. -/
def Process.schedules (process : Process) (fiber : Nat) : Bool :=
  process.alive && process.running.all (fun running => running == fiber)

def step (system : System) : Action → Option System
  | .act pid fiber move =>
      if (system.processes pid).schedules fiber then
        (respond system pid ((system.processes pid).fibers fiber) move).map
          (fun answer => system.commit pid fiber answer.1 answer.2)
      else none
  | .tick elapsed => some { system with now := system.now + elapsed }
  | .crash pid =>
      some { system with
        processes := Function.update system.processes pid { system.processes pid with alive := false } }

/-- No call is in progress, and no process has an entry in its `reentryDepth`. The lock
file may be one that a crash left. -/
structure System.Initial (system : System) : Prop where
  idle : ∀ pid fiber, (system.processes pid).fibers fiber = []
  depth : ∀ pid, (system.processes pid).reentryDepth = none
  running : ∀ pid, (system.processes pid).running = none
  inode : ∀ file, system.lockfile = some file → file.inode < system.fresh
  token : ∀ file token, system.lockfile = some file → file.contents.token = some token →
    token < system.fresh

/-- A process with nothing in progress, and a system of such processes. -/
def Process.quiet : Process := ⟨true, "host", none, none, fun _ => []⟩

def System.quiet : System := ⟨0, none, [], 0, fun _ => Process.quiet⟩

theorem System.initial_quiet : System.quiet.Initial where
  idle _ _ := rfl
  depth _ := rfl
  running _ := rfl
  inode _ found := by cases found
  token _ _ found := by cases found

/-! ## What a step does -/

section Steps

variable {system after : System} {pid fiber : Nat} {frames below : List Frame} {move : Move} {outcome : Outcome}

/-- A step is of a fiber that may run, or of the clock, or a crash. -/
theorem step_cases {action : Action} (taken : step system action = some after) :
    (∃ pid fiber move below outcome, action = .act pid fiber move ∧
      (system.processes pid).schedules fiber = true ∧
      respond system pid ((system.processes pid).fibers fiber) move = some (below, outcome) ∧
      after = system.commit pid fiber below outcome) ∨
    (∃ elapsed : Nat, action = .tick elapsed ∧ after = { system with now := system.now + elapsed }) ∨
    (∃ pid, action = .crash pid ∧
      after = { system with
        processes := Function.update system.processes pid { system.processes pid with alive := false } }) := by
  cases action with
  | tick elapsed => exact .inr (.inl ⟨elapsed, rfl, (Option.some.inj taken).symm⟩)
  | crash pid => exact .inr (.inr ⟨pid, rfl, (Option.some.inj taken).symm⟩)
  | act pid fiber move =>
    left
    by_cases runs : (system.processes pid).schedules fiber = true
    · simp only [step, runs, if_true] at taken
      obtain ⟨answer, responds, committed⟩ := Option.map_eq_some_iff.mp taken
      exact ⟨pid, fiber, move, answer.1, answer.2, rfl, runs, responds, committed.symm⟩
    · simp [step, runs] at taken

/-- A fiber makes a call, or takes the next step of its innermost one. -/
theorem respond_cases (responds : respond system pid frames move = some (below, outcome)) :
    (∃ use options, move = .withJournalLock use options ∧ below = frames ∧
      outcome = withJournalLock system (system.processes pid) use options) ∨
    (∃ top, frames = top :: below ∧ advance system pid (system.processes pid) top move = some outcome) := by
  cases frames with
  | nil =>
    cases move with
    | withJournalLock use options =>
      left
      have same : [] = below ∧ withJournalLock system (system.processes pid) use options = outcome := by
        simpa [respond] using responds
      exact ⟨use, options, rfl, same.1.symm, same.2.symm⟩
    | proceed | fail | build => simp [respond] at responds
  | cons top rest =>
    cases move with
    | withJournalLock use options =>
      left
      by_cases nests : top.phase.nests = true
      · have same : top :: rest = below ∧
            withJournalLock system (system.processes pid) use options = outcome := by
          simpa [respond, nests] using responds
        exact ⟨use, options, rfl, same.1.symm, same.2.symm⟩
      · simp [respond, nests] at responds
    | proceed | fail | build =>
      right
      simp only [respond, Option.map_eq_some_iff, Prod.mk.injEq] at responds
      obtain ⟨left_, advanced, rfl, rfl⟩ := responds
      exact ⟨top, rfl, advanced⟩

@[simp] theorem commit_fibers_self :
    ((system.commit pid fiber below outcome).processes pid).fibers fiber = outcome.frame.toList ++ below := by
  simp [System.commit]

@[simp] theorem commit_fibers_other {other : Nat} (differ : other ≠ fiber) :
    ((system.commit pid fiber below outcome).processes pid).fibers other =
      (system.processes pid).fibers other := by
  simp [System.commit, differ]

@[simp] theorem commit_processes_other {other : Nat} (differ : other ≠ pid) :
    (system.commit pid fiber below outcome).processes other = system.processes other := by
  simp [System.commit, differ]

@[simp] theorem commit_alive {other : Nat} :
    ((system.commit pid fiber below outcome).processes other).alive = (system.processes other).alive := by
  by_cases same : other = pid
  · subst same
    simp [System.commit]
  · simp [same]

end Steps

end Tesera.TypeScript.Lock
