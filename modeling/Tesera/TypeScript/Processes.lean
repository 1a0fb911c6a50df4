import Tesera.TypeScript.Fibers

/-!
Processes that contend for one lock file. A file is judged stale by what a `statSync` and a
`readFileSync` saw, and its own by what a release read; the `unlinkSync` that follows
removes whatever the path names by then. Where no unlink removes the file of a live holder
that it has not examined, and no call re-enters on a count that an earlier call left behind,
at most one live process is in its `use`.
-/

namespace Tesera.TypeScript.Processes
open Tesera.Transition Tesera.TypeScript.Lock Tesera.TypeScript.Fibers

/-- The descriptor that a call holds open. -/
def held : Phase → Option Fd
  | .created fd | .stamped fd _ | .claimed fd => some fd
  | .inUse fd _ | .releasing fd => fd
  | _ => none

/-- The inode that a call has looked at and may yet remove. -/
def evidence : Phase → Option Nat
  | .statted file | .judging file _ | .reclaiming file => file.map (fun found => found.inode)
  | .disowning inode => some inode
  | _ => none

def reentered : Phase → Bool
  | .entering | .inUse none _ | .releasing none => true
  | _ => false

/-- A call in progress in a process. -/
def Calls (process : Process) (frame : Frame) : Prop := ∃ fiber, frame ∈ process.fibers fiber

/-- A live process is in a critical section: it has the lock file that it created open. -/
def Holds (system : System) (pid : Nat) (fd : Fd) : Prop :=
  (system.processes pid).alive = true ∧
    ∃ frame, Calls (system.processes pid) frame ∧ held frame.phase = some fd

/-- A live process is in the `use` of a call. -/
def Inside (system : System) (pid : Nat) : Prop :=
  (system.processes pid).alive = true ∧ ∃ fiber, InUse (system.processes pid) fiber

/-- At most one live process is in its `use`. -/
def Excludes (system : System) : Prop :=
  ∀ pid other, Inside system pid → Inside system other → pid = other

/-- Each process runs one call at a time, and every live critical section ends within the
`staleAfterMs` of every live contender. -/
structure Assumed (system : System) (action : Action) : Prop where
  oneCall : ∀ pid fiber use options, action = .act pid fiber (.withJournalLock use options) →
    ∀ other, (system.processes pid).fibers other = []
  timely : ∀ pid fd, Holds system pid fd → ∀ other frame, (system.processes other).alive = true →
    Calls (system.processes other) frame → system.now ≤ fd.openedAt + frame.options.staleAfterMs

def removes : Phase → Bool
  | .reclaiming _ | .disowning _ => true
  | _ => false

/-- No call starts on a count that an earlier call left behind, and no unlink removes the
file of a live critical section unless it is the file examined. -/
structure Careful (system : System) (action : Action) : Prop where
  counted : ∀ pid fiber use options, action = .act pid fiber (.withJournalLock use options) →
    (system.processes pid).reentryDepth = none
  examined : ∀ pid fiber top below file, action = .act pid fiber .proceed →
    (system.processes pid).fibers fiber = top :: below → removes top.phase = true →
    system.lockfile = some file → evidence top.phase ≠ some file.inode →
    ∀ holder fd, Holds system holder fd → fd.inode ≠ file.inode

/-! ## What a step of a call does -/

/-- The file is the one a live holder created, written since by no one else. -/
structure Guards (pid : Nat) (fd : Fd) (file : LockFile) : Prop where
  inode : file.inode = fd.inode
  mtime : fd.openedAt ≤ file.mtimeMs
  record : ∀ record, file.contents.record = some record → record.pid = pid ∧ fd.openedAt ≤ record.takenAt

/-- What a call has seen of the file of a live holder does not show it stale, and it is not
about to remove that file. -/
def Spares (pid : Nat) (fd : Fd) : Phase → Prop
  | .statted file => ∀ found, file = some found → found.inode = fd.inode → fd.openedAt ≤ found.mtimeMs
  | .judging file seen => ∀ found, file = some found → found.inode = fd.inode →
      (∀ mtime, seen.mtimeMs = some mtime → fd.openedAt ≤ mtime) ∧
      (∀ record, seen.record = some record → record.pid = pid ∧ fd.openedAt ≤ record.takenAt)
  | .reclaiming file => file.map (fun found => found.inode) ≠ some fd.inode
  | .disowning inode => inode ≠ fd.inode
  | _ => True

/-- A call that has not looked at the file of a holder spares it. -/
theorem spares_of_evidence {pid : Nat} {fd : Fd} {phase : Phase} (unseen : evidence phase ≠ some fd.inode) :
    Spares pid fd phase := by
  cases phase <;> simp_all [Spares, evidence]

/-- What a live holder's file shows within the time is not stale. -/
theorem not_stale {pidAlive : Nat → Bool} {now : Int} {seen : Seen} {staleAfterMs : Int} {pid : Nat} {fd : Fd}
    (alive : pidAlive pid = true) (timely : now ≤ fd.openedAt + staleAfterMs)
    (mtime : ∀ mtime, seen.mtimeMs = some mtime → fd.openedAt ≤ mtime)
    (record : ∀ record, seen.record = some record → record.pid = pid ∧ fd.openedAt ≤ record.takenAt) :
    isStale pidAlive now seen staleAfterMs = false := by
  unfold isStale
  cases found : seen.record with
  | none =>
    cases stamp : seen.mtimeMs with
    | none => rfl
    | some shown =>
      have since := mtime shown stamp
      simp only [Option.elim_some, decide_eq_false_iff_not]
      omega
  | some shown =>
    obtain ⟨same, since⟩ := record shown found
    simp only [same, alive, Bool.not_true, Bool.false_or, decide_eq_false_iff_not]
    omega

section Advance

variable {system : System} {pid : Nat} {process : Process} {frame after : Frame} {move : Move}
  {outcome : Outcome}

/-- A call comes to hold a descriptor by creating the file, where the path named none. -/
theorem advance_held {fd : Fd} (advanced : advance system pid process frame move = some outcome)
    (left : outcome.frame = some after) (holds : held after.phase = some fd) :
    held frame.phase = some fd ∨
      (system.lockfile = none ∧ fd = ⟨system.fresh, system.now⟩ ∧ after.phase = .created fd ∧
        outcome.lockfile = some ⟨system.fresh, system.now, ⟨none, none⟩⟩) := by
  unfold advance at advanced
  simp only [] at advanced
  split at advanced
  all_goals try split at advanced
  all_goals cases advanced
  all_goals cases left
  all_goals simp_all [held]

/-- A call looks at no file but the one that the path names. -/
theorem advance_evidence {inode : Nat} (advanced : advance system pid process frame move = some outcome)
    (left : outcome.frame = some after) (seen : evidence after.phase = some inode) :
    evidence frame.phase = some inode ∨ ∃ file, system.lockfile = some file ∧ file.inode = inode := by
  unfold advance at advanced
  simp only [] at advanced
  split at advanced
  all_goals try split at advanced
  all_goals cases advanced
  all_goals cases left
  all_goals simp_all [evidence]
  cases found : system.lockfile <;> simp_all

theorem advance_reentered (advanced : advance system pid process frame move = some outcome)
    (left : outcome.frame = some after) (entered : reentered frame.phase = false) :
    reentered after.phase = false := by
  unfold advance at advanced
  simp only [] at advanced
  split at advanced
  all_goals try split at advanced
  all_goals cases advanced
  all_goals cases left
  all_goals simp_all [reentered]
  all_goals split <;> simp_all

/-- The lock file stays, or is created, or gets its record, or is removed. -/
theorem advance_lockfile (advanced : advance system pid process frame move = some outcome) :
    outcome.lockfile = system.lockfile ∨
    (system.lockfile = none ∧ outcome.lockfile = some ⟨system.fresh, system.now, ⟨none, none⟩⟩) ∨
    (∃ fd takenAt, frame.phase = .stamped fd takenAt ∧
      outcome.lockfile = writeRecord system.lockfile fd system.now ⟨pid, process.hostname, takenAt⟩
        frame.ownerToken) ∨
    (removes frame.phase = true ∧ move = .proceed ∧ outcome.lockfile = none) := by
  unfold advance at advanced
  simp only [] at advanced
  split at advanced
  all_goals try split at advanced
  all_goals cases advanced
  all_goals simp_all [removes]

/-- A record is made no earlier than its file. -/
theorem advance_stamped {fd : Fd} {takenAt : Int} (advanced : advance system pid process frame move = some outcome)
    (left : outcome.frame = some after) (stamped : after.phase = .stamped fd takenAt) :
    held frame.phase = some fd ∧ takenAt = system.now := by
  unfold advance at advanced
  simp only [] at advanced
  split at advanced
  all_goals try split at advanced
  all_goals cases advanced
  all_goals cases left
  all_goals simp_all [held]

/-- A call goes on sparing the file of a live holder, unless it is itself releasing. -/
theorem advance_spares {holder : Nat} {fd : Fd} {file : LockFile}
    (advanced : advance system pid process frame move = some outcome)
    (left : outcome.frame = some after) (spares : Spares holder fd frame.phase)
    (found : system.lockfile = some file) (guards : Guards holder fd file)
    (alive : system.pidAlive holder = true)
    (timely : system.now ≤ fd.openedAt + frame.options.staleAfterMs) :
    Spares holder fd after.phase ∨
      ∃ own inode, frame.phase = .releasing (some own) ∧ after.phase = .disowning inode := by
  unfold advance at advanced
  simp only [] at advanced
  split at advanced
  all_goals try split at advanced
  all_goals cases advanced
  all_goals cases left
  all_goals try exact .inl trivial
  all_goals simp_all only [Spares]
  case h_10.refl.refl =>
    left
    intro shown same _
    exact Option.some.inj same ▸ guards.mtime
  case h_11.refl.refl statted _ =>
    left
    intro shown same inode
    subst same
    constructor
    · intro mtime seen
      exact Option.some.inj seen ▸ spares shown rfl inode
    · intro record seen
      exact guards.record record seen
  case h_12.isTrue.refl.refl statted seen _ stale =>
    left
    intro same
    obtain ⟨shown, rfl, inode⟩ := Option.map_eq_some_iff.mp same
    obtain ⟨mtime, record⟩ := spares shown rfl inode
    rw [not_stale alive timely mtime record] at stale
    cases stale
  case h_24.isTrue.refl.refl own _ _ => exact .inr ⟨own, _, rfl, rfl⟩

end Advance

/-! ## The invariant -/

/-- Each process has at most one call in progress, none of them re-entered. The file of a live
holder is at the path, no other process holds one, and no call is about to remove it. -/
structure Inv (system : System) : Prop where
  single : ∀ pid fiber, ((system.processes pid).fibers fiber).length ≤ 1
  alone : ∀ pid, Alone (system.processes pid)
  entered : ∀ pid frame, Calls (system.processes pid) frame → reentered frame.phase = false
  lockfile : ∀ file, system.lockfile = some file → file.inode < system.fresh
  evidence : ∀ pid frame inode, Calls (system.processes pid) frame → evidence frame.phase = some inode →
    inode < system.fresh
  opened : ∀ pid frame fd, Calls (system.processes pid) frame → held frame.phase = some fd →
    fd.openedAt ≤ system.now
  stamped : ∀ pid frame fd takenAt, Calls (system.processes pid) frame →
    frame.phase = .stamped fd takenAt → fd.openedAt ≤ takenAt
  guarded : ∀ pid fd, Holds system pid fd → ∃ file, system.lockfile = some file ∧ Guards pid fd file
  one : ∀ pid other fd otherFd, Holds system pid fd → Holds system other otherFd → pid = other
  spared : ∀ pid fd, Holds system pid fd → ∀ other frame, Calls (system.processes other) frame →
    Spares pid fd frame.phase

theorem inv_initial {system : System} (initial : system.Initial) : Inv system := by
  have none : ∀ pid frame, ¬ Calls (system.processes pid) frame := by
    rintro pid frame ⟨fiber, found⟩
    rw [initial.idle] at found
    cases found
  have free : ∀ pid fd, ¬ Holds system pid fd := by
    rintro pid fd ⟨_, frame, calls, _⟩
    exact none pid frame calls
  constructor
  · intro pid fiber
    simp [initial.idle]
  · intro pid fiber other busy
    exact absurd (initial.idle pid fiber) busy
  · intro pid frame calls
    exact absurd calls (none pid frame)
  · exact initial.inode
  · intro pid frame inode calls
    exact absurd calls (none pid frame)
  · intro pid frame fd calls
    exact absurd calls (none pid frame)
  · intro pid frame fd takenAt calls
    exact absurd calls (none pid frame)
  · intro pid fd holds
    exact absurd holds (free pid fd)
  · intro pid other fd otherFd holds
    exact absurd holds (free pid fd)
  · intro pid fd holds
    exact absurd holds (free pid fd)

/-- A step of the one call of a process, or its start. -/
structure Turn (system after : System) (pid : Nat) (before : Option Frame) (outcome : Outcome) : Prop where
  alive : (system.processes pid).alive = true
  calls : ∀ frame, Calls (system.processes pid) frame ↔ before = some frame
  callsAfter : ∀ frame, Calls (after.processes pid) frame ↔ outcome.frame = some frame
  others : ∀ other, other ≠ pid → after.processes other = system.processes other
  aliveAfter : ∀ other, (after.processes other).alive = (system.processes other).alive
  now : after.now = system.now
  fresh : after.fresh = system.fresh + 1
  lockfile : after.lockfile = outcome.lockfile
  step : (before = none ∧ outcome.lockfile = system.lockfile ∧
      ∀ frame, outcome.frame = some frame → frame.phase = .claiming) ∨
    ∃ top move, before = some top ∧
      advance system pid (system.processes pid) top move = some outcome ∧
      (removes top.phase = true → move = .proceed → ∀ file, system.lockfile = some file →
        evidence top.phase ≠ some file.inode → ∀ holder fd, Holds system holder fd → fd.inode ≠ file.inode)

section Step

variable {system after : System} {action : Action} {pid : Nat} {before : Option Frame} {outcome : Outcome}

/-- A call that starts where nothing is counted is going to claim the file. -/
theorem withJournalLock_claims {process : Process} {use : Use} {options : LockOptions}
    (clear : process.reentryDepth = none) :
    (withJournalLock system process use options).lockfile = system.lockfile ∧
      ∀ frame, (withJournalLock system process use options).frame = some frame → frame.phase = .claiming := by
  simp only [withJournalLock, clear, Option.getD_none, Nat.lt_irrefl, if_false, true_and]
  rintro frame same
  cases same
  rfl

/-- In a process whose only calls are those of one fiber, they are the ones of that fiber. -/
theorem calls_iff {process : Process} {fiber : Nat} {frames : List Frame}
    (here : process.fibers fiber = frames) (others : ∀ other, other ≠ fiber → process.fibers other = [])
    (frame : Frame) : Calls process frame ↔ frame ∈ frames := by
  constructor
  · rintro ⟨other, found⟩
    by_cases same : other = fiber
    · subst same
      exact here ▸ found
    · rw [others other same] at found
      cases found
  · intro found
    exact ⟨fiber, here ▸ found⟩

theorem turn_cases (single : ∀ pid fiber, ((system.processes pid).fibers fiber).length ≤ 1)
    (alone : ∀ pid, Alone (system.processes pid)) (assumed : Assumed system action)
    (careful : Careful system action) (taken : step system action = some after) :
    (∃ pid before outcome, Turn system after pid before outcome ∧
      (∀ pid fiber, ((after.processes pid).fibers fiber).length ≤ 1) ∧
      ∀ pid, Alone (after.processes pid)) ∨
    (∃ elapsed : Nat, after = { system with now := system.now + elapsed }) ∨
    (∃ pid, after = { system with
        processes := Function.update system.processes pid { system.processes pid with alive := false } }) := by
  have aloneAfter : ∀ pid, Alone (after.processes pid) := by
    intro pid
    apply alone_step _ (alone pid) taken
    intro fiber use options call _
    exact assumed.oneCall pid fiber use options call
  obtain ⟨pid, fiber, move, below, outcome, rfl, schedules, responds, rfl⟩ | ⟨elapsed, rfl, rfl⟩ | ⟨pid, rfl, rfl⟩ :=
    step_cases taken
  · left
    have others : ∀ other, other ≠ fiber → (system.processes pid).fibers other = [] := by
      intro other differ
      by_contra busy
      obtain ⟨use, options, rfl, _, _⟩ | ⟨top, frames, _⟩ := respond_cases responds
      · exact busy (assumed.oneCall pid fiber use options rfl other)
      · exact differ (alone pid other fiber busy (by simp [frames]))
    -- the process has no call but the one that steps
    obtain ⟨rest, before, calls, turn⟩ : below = [] ∧ ∃ before : Option Frame,
        (system.processes pid).fibers fiber = before.toList ∧
        ((before = none ∧ outcome.lockfile = system.lockfile ∧
          ∀ frame, outcome.frame = some frame → frame.phase = .claiming) ∨
        ∃ top made, before = some top ∧
          advance system pid (system.processes pid) top made = some outcome ∧
          (removes top.phase = true → made = .proceed → ∀ file, system.lockfile = some file →
            evidence top.phase ≠ some file.inode →
            ∀ holder fd, Holds system holder fd → fd.inode ≠ file.inode)) := by
      obtain ⟨use, options, rfl, rfl, rfl⟩ | ⟨top, frames, advanced⟩ := respond_cases responds
      · have idle := assumed.oneCall pid fiber use options rfl fiber
        have clear := careful.counted pid fiber use options rfl
        exact ⟨idle, none, idle, .inl ⟨rfl, withJournalLock_claims clear⟩⟩
      · have short := single pid fiber
        rw [frames, List.length_cons] at short
        have rest : below = [] := List.eq_nil_of_length_eq_zero (by omega)
        subst rest
        refine ⟨rfl, some top, frames, .inr ⟨top, move, rfl, advanced, ?_⟩⟩
        intro removing proceeds file
        subst proceeds
        exact careful.examined pid fiber top [] file rfl frames removing
    subst rest
    have here : ((system.commit pid fiber [] outcome).processes pid).fibers fiber = outcome.frame.toList := by
      simp
    have elsewhere : ∀ other, other ≠ fiber →
        ((system.commit pid fiber [] outcome).processes pid).fibers other = [] := by
      intro other differ
      rw [commit_fibers_other differ]
      exact others other differ
    refine ⟨pid, before, outcome, ?_, ?_, aloneAfter⟩
    · constructor
      · simp only [Process.schedules, Bool.and_eq_true] at schedules
        exact schedules.1
      · intro frame
        rw [calls_iff calls others, Option.mem_toList]
      · intro frame
        rw [calls_iff here elsewhere, Option.mem_toList]
      · intro other differ
        exact commit_processes_other differ
      · intro other
        exact commit_alive
      · rfl
      · rfl
      · rfl
      · exact turn
    · intro other slot
      by_cases same : other = pid
      · subst same
        by_cases acting : slot = fiber
        · subst acting
          rw [here]
          cases outcome.frame <;> simp
        · rw [elsewhere slot acting]
          simp
      · rw [commit_processes_other same]
        exact single other slot
  · exact .inr (.inl ⟨elapsed, rfl⟩)
  · exact .inr (.inr ⟨pid, rfl⟩)

/-- A live holder after a turn held before, or has just created the file. -/
theorem Turn.holds (turn : Turn system after pid before outcome) {holder : Nat} {fd : Fd}
    (holds : Holds after holder fd) :
    Holds system holder fd ∨
      (holder = pid ∧ system.lockfile = none ∧ fd = ⟨system.fresh, system.now⟩ ∧
        after.lockfile = some ⟨system.fresh, system.now, ⟨none, none⟩⟩ ∧
        ∀ frame, Calls (after.processes pid) frame → frame.phase = .created fd) := by
  obtain ⟨alive, frame, calls, holding⟩ := holds
  rw [turn.aliveAfter] at alive
  by_cases same : holder = pid
  · subst same
    have left := (turn.callsAfter frame).mp calls
    obtain ⟨_, _, claims⟩ | ⟨top, move, topmost, advanced, _⟩ := turn.step
    · rw [claims frame left] at holding
      cases holding
    · obtain old | ⟨free, new, phase, created⟩ := advance_held advanced left holding
      · exact .inl ⟨alive, top, (turn.calls top).mpr topmost, old⟩
      · right
        refine ⟨rfl, free, new, turn.lockfile.trans created, ?_⟩
        intro other callsOther
        have same := (turn.callsAfter other).mp callsOther
        rw [left] at same
        exact Option.some.inj same ▸ phase
  · rw [turn.others holder same] at calls
    exact .inl ⟨alive, frame, calls, holding⟩

/-- The file of a live holder stays at the path. -/
theorem Turn.guarded (turn : Turn system after pid before outcome) (inv : Inv system) {holder : Nat} {fd : Fd}
    (holds : Holds system holder fd) :
    ∃ file, after.lockfile = some file ∧ Guards holder fd file := by
  obtain ⟨file, found, guards⟩ := inv.guarded holder fd holds
  rw [turn.lockfile]
  obtain ⟨_, same, _⟩ | ⟨top, move, topmost, advanced, careful⟩ := turn.step
  · exact ⟨file, same.trans found, guards⟩
  have calls := (turn.calls top).mpr topmost
  obtain same | ⟨free, _⟩ | ⟨own, takenAt, phase, written⟩ | ⟨removing, proceeds, removed⟩ :=
    advance_lockfile advanced
  · exact ⟨file, same.trans found, guards⟩
  · rw [free] at found
    cases found
  · -- the record written is the holder's own
    have owner : held top.phase = some own := by rw [phase]; rfl
    have writer : Holds system pid own := ⟨turn.alive, top, calls, owner⟩
    obtain rfl := inv.one holder pid fd own holds writer
    obtain ⟨_, frame, callsFrame, holding⟩ := holds
    obtain rfl : frame = top := Option.some.inj (((turn.calls frame).mp callsFrame).symm.trans topmost)
    obtain rfl : fd = own := Option.some.inj (holding.symm.trans owner)
    refine ⟨⟨file.inode, system.now, ⟨some ⟨holder, (system.processes holder).hostname, takenAt⟩,
      some frame.ownerToken⟩⟩, ?_, guards.inode, inv.opened holder frame fd calls owner, ?_⟩
    · simp [written, writeRecord, found, guards.inode]
    · intro record same
      obtain rfl := Option.some.inj same
      exact ⟨rfl, inv.stamped holder frame fd takenAt calls phase⟩
  · -- the file removed is the one examined, or no live holder's
    exfalso
    by_cases seen : evidence top.phase = some file.inode
    · have spares := inv.spared holder fd holds pid top calls
      rw [guards.inode] at seen
      cases phase : top.phase <;> simp_all [removes, evidence, Spares]
    · exact careful removing proceeds file found seen holder fd holds guards.inode.symm

/-- No other live process holds a file. -/
theorem Turn.one (turn : Turn system after pid before outcome) (inv : Inv system) {holder other : Nat}
    {fd otherFd : Fd} (holds : Holds after holder fd) (holdsOther : Holds after other otherFd) :
    holder = other := by
  obtain old | ⟨rfl, free, _⟩ := turn.holds holds
  · obtain oldOther | ⟨rfl, free, _⟩ := turn.holds holdsOther
    · exact inv.one holder other fd otherFd old oldOther
    · obtain ⟨file, found, _⟩ := inv.guarded holder fd old
      rw [free] at found
      cases found
  · obtain oldOther | ⟨rfl, _⟩ := turn.holds holdsOther
    · obtain ⟨file, found, _⟩ := inv.guarded other otherFd oldOther
      rw [free] at found
      cases found
    · rfl

/-- No call has seen a file that has yet to be created. -/
theorem Turn.evidence (turn : Turn system after pid before outcome) (inv : Inv system) {other inode : Nat}
    {frame : Frame} (calls : Calls (after.processes other) frame)
    (seen : Processes.evidence frame.phase = some inode) : inode < system.fresh := by
  by_cases same : other = pid
  · subst same
    have left := (turn.callsAfter frame).mp calls
    obtain ⟨_, _, claims⟩ | ⟨top, move, topmost, advanced, _⟩ := turn.step
    · rw [claims frame left] at seen
      cases seen
    · obtain old | ⟨file, found, rfl⟩ := advance_evidence advanced left seen
      · exact inv.evidence other top inode ((turn.calls top).mpr topmost) old
      · exact inv.lockfile file found
  · rw [turn.others other same] at calls
    exact inv.evidence other frame inode calls seen

/-- No call comes to remove the file of a live holder. -/
theorem Turn.spared (turn : Turn system after pid before outcome) (inv : Inv system)
    (assumed : Assumed system action) {holder : Nat} {fd : Fd} (holds : Holds after holder fd) {other : Nat}
    {frame : Frame} (calls : Calls (after.processes other) frame) : Spares holder fd frame.phase := by
  obtain old | ⟨rfl, _, rfl, _⟩ := turn.holds holds
  · by_cases same : other = pid
    · subst same
      have left := (turn.callsAfter frame).mp calls
      obtain ⟨_, _, claims⟩ | ⟨top, move, topmost, advanced, _⟩ := turn.step
      · rw [claims frame left]
        trivial
      · have callsTop := (turn.calls top).mpr topmost
        obtain ⟨file, found, guards⟩ := inv.guarded holder fd old
        obtain spares | ⟨own, inode, releasing, disowning⟩ := advance_spares advanced left
          (inv.spared holder fd old other top callsTop) found guards old.1
          (assumed.timely holder fd old other top turn.alive callsTop)
        · exact spares
        · -- a call that releases is the holder's own, and holds nothing afterwards
          have owner : Holds system other own := ⟨turn.alive, top, callsTop, by rw [releasing]; rfl⟩
          obtain rfl := inv.one holder other fd own old owner
          obtain ⟨_, still, callsStill, holding⟩ := holds
          have same := ((turn.callsAfter still).mp callsStill).symm.trans left
          rw [Option.some.inj same, disowning] at holding
          cases holding
    · rw [turn.others other same] at calls
      exact inv.spared holder fd old other frame calls
  · apply spares_of_evidence
    intro seen
    exact Nat.lt_irrefl _ (turn.evidence inv calls seen)

theorem Turn.inv (turn : Turn system after pid before outcome) (inv : Inv system)
    (assumed : Assumed system action)
    (single : ∀ pid fiber, ((after.processes pid).fibers fiber).length ≤ 1)
    (alone : ∀ pid, Alone (after.processes pid)) : Inv after := by
  -- a call of another process, or the one that stepped
  have split : ∀ {other frame}, Calls (after.processes other) frame →
      Calls (system.processes other) frame ∨ frame.phase = .claiming ∨
        ∃ top move, Calls (system.processes other) top ∧
          advance system other (system.processes other) top move = some outcome ∧
          outcome.frame = some frame := by
    intro other frame calls
    by_cases same : other = pid
    · subst same
      have left := (turn.callsAfter frame).mp calls
      obtain ⟨_, _, claims⟩ | ⟨top, move, topmost, advanced, _⟩ := turn.step
      · exact .inr (.inl (claims frame left))
      · exact .inr (.inr ⟨top, move, (turn.calls top).mpr topmost, advanced, left⟩)
    · rw [turn.others other same] at calls
      exact .inl calls
  constructor
  · exact single
  · exact alone
  · intro other frame calls
    obtain old | claiming | ⟨top, move, callsTop, advanced, left⟩ := split calls
    · exact inv.entered other frame old
    · rw [claiming]
      rfl
    · exact advance_reentered advanced left (inv.entered other top callsTop)
  · intro file found
    rw [turn.lockfile] at found
    rw [turn.fresh]
    obtain ⟨_, same, _⟩ | ⟨top, move, _, advanced, _⟩ := turn.step
    · exact Nat.lt_succ_of_lt (inv.lockfile file (same ▸ found))
    · obtain same | ⟨_, created⟩ | ⟨own, takenAt, _, written⟩ | ⟨_, _, removed⟩ := advance_lockfile advanced
      · exact Nat.lt_succ_of_lt (inv.lockfile file (same ▸ found))
      · rw [created] at found
        exact Option.some.inj found ▸ Nat.lt_succ_self _
      · rw [written] at found
        obtain ⟨old, at_, rfl⟩ := Option.map_eq_some_iff.mp found
        have below := inv.lockfile old at_
        split_ifs <;> exact Nat.lt_succ_of_lt below
      · rw [removed] at found
        cases found
  · intro other frame inode calls seen
    rw [turn.fresh]
    exact Nat.lt_succ_of_lt (turn.evidence inv calls seen)
  · intro other frame fd calls holding
    rw [turn.now]
    obtain old | claiming | ⟨top, move, callsTop, advanced, left⟩ := split calls
    · exact inv.opened other frame fd old holding
    · rw [claiming] at holding
      cases holding
    · obtain old | ⟨_, rfl, _⟩ := advance_held advanced left holding
      · exact inv.opened other top fd callsTop old
      · exact le_rfl
  · intro other frame fd takenAt calls phase
    obtain old | claiming | ⟨top, move, callsTop, advanced, left⟩ := split calls
    · exact inv.stamped other frame fd takenAt old phase
    · rw [claiming] at phase
      cases phase
    · obtain ⟨old, rfl⟩ := advance_stamped advanced left phase
      exact inv.opened other top fd callsTop old
  · intro holder fd holds
    obtain old | ⟨rfl, _, rfl, created, _⟩ := turn.holds holds
    · exact turn.guarded inv old
    · refine ⟨_, created, rfl, le_rfl, ?_⟩
      intro record same
      cases same
  · intro holder other fd otherFd holds holdsOther
    exact turn.one inv holds holdsOther
  · intro holder fd holds other frame calls
    exact turn.spared inv assumed holds calls

/-- The clock and the crashes keep the invariant. -/
theorem inv_tick (inv : Inv system) (elapsed : Nat) : Inv { system with now := system.now + elapsed } where
  single := inv.single
  alone := inv.alone
  entered := inv.entered
  lockfile := inv.lockfile
  evidence := inv.evidence
  opened pid frame fd calls holding := by
    have before := inv.opened pid frame fd calls holding
    change fd.openedAt ≤ system.now + elapsed
    omega
  stamped := inv.stamped
  guarded := inv.guarded
  one := inv.one
  spared := inv.spared

theorem inv_crash (inv : Inv system) (pid : Nat) :
    Inv { system with
      processes := Function.update system.processes pid { system.processes pid with alive := false } } := by
  let after : System := { system with
      processes := Function.update system.processes pid { system.processes pid with alive := false } }
  have fibers : ∀ other, (after.processes other).fibers = (system.processes other).fibers := by
    intro other
    by_cases same : other = pid
    · subst same
      simp [after]
    · simp [after, same]
  have calls : ∀ other frame, Calls (after.processes other) frame ↔ Calls (system.processes other) frame := by
    intro other frame
    unfold Calls
    rw [fibers]
  have holds : ∀ other fd, Holds after other fd → Holds system other fd := by
    rintro other fd ⟨alive, frame, callsFrame, holding⟩
    refine ⟨?_, frame, (calls other frame).mp callsFrame, holding⟩
    by_cases same : other = pid
    · subst same
      simp [after] at alive
    · simpa [after, same] using alive
  change Inv after
  constructor
  · intro other fiber
    rw [fibers]
    exact inv.single other fiber
  · intro other
    unfold Alone
    rw [fibers]
    exact inv.alone other
  · intro other frame callsFrame
    exact inv.entered other frame ((calls other frame).mp callsFrame)
  · exact inv.lockfile
  · intro other frame inode callsFrame
    exact inv.evidence other frame inode ((calls other frame).mp callsFrame)
  · intro other frame fd callsFrame
    exact inv.opened other frame fd ((calls other frame).mp callsFrame)
  · intro other frame fd takenAt callsFrame
    exact inv.stamped other frame fd takenAt ((calls other frame).mp callsFrame)
  · intro other fd holding
    exact inv.guarded other fd (holds other fd holding)
  · intro first second fd otherFd holdsFirst holdsSecond
    exact inv.one first second fd otherFd (holds first fd holdsFirst) (holds second otherFd holdsSecond)
  · intro holder fd holding other frame callsFrame
    exact inv.spared holder fd (holds holder fd holding) other frame ((calls other frame).mp callsFrame)

theorem inv_step (inv : Inv system) (assumed : Assumed system action) (careful : Careful system action)
    (taken : step system action = some after) : Inv after := by
  obtain ⟨pid, before, outcome, turn, single, alone⟩ | ⟨elapsed, rfl⟩ | ⟨pid, rfl⟩ :=
    turn_cases inv.single inv.alone assumed careful taken
  · exact turn.inv inv assumed single alone
  · exact inv_tick inv elapsed
  · exact inv_crash inv pid

end Step

/-! ## Runs in which no time passes -/

/-- Each process calls from its first fiber only, one call at a time. -/
def calmly (system : System) : Action → Bool
  | .act pid fiber (.withJournalLock _ options) =>
      fiber == 0 && ((system.processes pid).fibers 0).isEmpty && decide (0 ≤ options.staleAfterMs)
  | .act _ fiber _ => fiber == 0
  | .tick _ => false
  | .crash _ => true

/-- Each unlink removes the file examined, and no call starts on a count left behind. -/
def carefully (system : System) : Action → Bool
  | .act pid _ (.withJournalLock _ _) => (system.processes pid).reentryDepth.isNone
  | .act pid fiber .proceed => ((system.processes pid).fibers fiber).all (fun frame =>
      !removes frame.phase || evidence frame.phase == system.lockfile.map (fun file => file.inode))
  | _ => true

structure Calm (system : System) : Prop where
  now : system.now = 0
  first : ∀ pid fiber, fiber ≠ 0 → (system.processes pid).fibers fiber = []
  frame : ∀ pid frame, Calls (system.processes pid) frame → 0 ≤ frame.options.staleAfterMs ∧
    ∀ fd, held frame.phase = some fd → fd.openedAt = 0

section Calm

variable {system after : System} {action : Action}

theorem assumed_of_calm (calm : Calm system) (checked : calmly system action = true) :
    Assumed system action where
  oneCall pid fiber use options call other := by
    subst call
    simp only [calmly, Bool.and_eq_true, List.isEmpty_iff] at checked
    by_cases first : other = 0
    · exact first ▸ checked.1.2
    · exact calm.first pid other first
  timely pid fd holds other frame _ calls := by
    obtain ⟨_, holder, callsHolder, holding⟩ := holds
    rw [calm.now, (calm.frame pid holder callsHolder).2 fd holding, zero_add]
    exact (calm.frame other frame calls).1

theorem careful_of_check (checked : carefully system action = true) : Careful system action where
  counted pid fiber use options call := by
    subst call
    simpa [carefully] using checked
  examined pid fiber top below file call frames removing found seen := by
    subst call
    simp [carefully, frames, removing, found, seen] at checked

/-- A call that has just started has the options given, and holds nothing. -/
theorem withJournalLock_starts (process : Process) (use : Use) (options : LockOptions) (frame : Frame)
    (started : (withJournalLock system process use options).frame = some frame) :
    frame.options = options ∧ held frame.phase = none := by
  unfold withJournalLock at started
  simp only [] at started
  split at started
  all_goals cases started
  all_goals exact ⟨rfl, rfl⟩

theorem advance_options {pid : Nat} {process : Process} {frame next : Frame} {move : Move} {outcome : Outcome}
    (advanced : advance system pid process frame move = some outcome) (left : outcome.frame = some next) :
    next.options = frame.options := by
  unfold advance at advanced
  simp only [] at advanced
  split at advanced
  all_goals try split at advanced
  all_goals cases advanced
  all_goals cases left
  all_goals rfl

theorem calm_step (calm : Calm system) (checked : calmly system action = true)
    (taken : step system action = some after) : Calm after := by
  obtain ⟨pid, fiber, move, below, outcome, rfl, _, responds, rfl⟩ | ⟨elapsed, rfl, _⟩ | ⟨pid, rfl, rfl⟩ :=
    step_cases taken
  · obtain rfl : fiber = 0 := by
      cases move <;> simp_all [calmly]
    have frame : ∀ frame ∈ outcome.frame.toList ++ below, 0 ≤ frame.options.staleAfterMs ∧
        ∀ fd, held frame.phase = some fd → fd.openedAt = 0 := by
      intro frame found
      obtain ⟨use, options, rfl, rfl, rfl⟩ | ⟨top, frames, advanced⟩ := respond_cases responds
      · obtain new | old := List.mem_append.mp found
        · have started := withJournalLock_starts _ use options frame (Option.mem_toList.mp new)
          rw [started.1]
          refine ⟨by simp_all [calmly], ?_⟩
          intro fd holding
          rw [started.2] at holding
          cases holding
        · exact calm.frame pid frame ⟨0, old⟩
      · have callsTop : Calls (system.processes pid) top := ⟨0, frames ▸ List.mem_cons_self⟩
        obtain new | old := List.mem_append.mp found
        · have left := Option.mem_toList.mp new
          rw [advance_options advanced left]
          refine ⟨(calm.frame pid top callsTop).1, ?_⟩
          intro fd holding
          obtain was | ⟨_, rfl, _⟩ := advance_held advanced left holding
          · exact (calm.frame pid top callsTop).2 fd was
          · exact calm.now
        · exact calm.frame pid frame ⟨0, frames ▸ List.mem_cons_of_mem top old⟩
    constructor
    · exact calm.now
    · intro other slot later
      by_cases same : other = pid
      · subst same
        rw [commit_fibers_other later]
        exact calm.first other slot later
      · rw [commit_processes_other same]
        exact calm.first other slot later
    · rintro other new ⟨slot, found⟩
      by_cases same : other = pid
      · subst same
        by_cases first : slot = 0
        · subst first
          rw [commit_fibers_self] at found
          exact frame new found
        · rw [commit_fibers_other first] at found
          exact calm.frame other new ⟨slot, found⟩
      · rw [commit_processes_other same] at found
        exact calm.frame other new ⟨slot, found⟩
  · simp [calmly] at checked
  · have fibers : ∀ other, ((Function.update system.processes pid
        { system.processes pid with alive := false }) other).fibers = (system.processes other).fibers := by
      intro other
      by_cases same : other = pid
      · subst same
        simp
      · simp [same]
    constructor
    · exact calm.now
    · intro other slot later
      exact (congrFun (fibers other) slot).trans (calm.first other slot later)
    · rintro other new ⟨slot, found⟩
      exact calm.frame other new ⟨slot, fibers other ▸ found⟩

theorem calm_quiet : Calm System.quiet where
  now := rfl
  first _ _ _ := rfl
  frame := by
    rintro _ _ ⟨_, found⟩
    cases found

/-- The first process claims the lock and crashes; the second finds the file stale. -/
def crashRun : List Action :=
  [.act 0 0 (.withJournalLock .appendEvent {}), .act 0 0 .proceed, .act 0 0 .proceed, .act 0 0 .proceed,
    .crash 0,
    .act 1 0 (.withJournalLock .appendEvent {}), .act 1 0 .proceed, .act 1 0 .proceed, .act 1 0 .proceed,
    .act 1 0 .proceed]

/-- A process goes on from the unlink of a stale file to its own claim and its `use`. -/
def reclaim (pid : Nat) : List Action := List.replicate 6 (.act pid 0 .proceed)

/-- A third process finds the same file stale and takes the lock. The second then removes
the file of the third. -/
def replacedRun : List Action :=
  crashRun ++
    [.act 2 0 (.withJournalLock .appendEvent {}), .act 2 0 .proceed, .act 2 0 .proceed, .act 2 0 .proceed,
      .act 2 0 .proceed] ++ reclaim 2 ++ reclaim 1

theorem inside_of_map {system : System} {pid : Nat}
    (shown : ((system.processes pid).alive,
      ((system.processes pid).fibers 0).map (fun frame => active frame.phase)) = (true, [true])) :
    Inside system pid := by
  simp only [Prod.mk.injEq] at shown
  exact ⟨shown.1, 0, inUse_of_map (by rw [shown.2]; exact List.mem_cons_self)⟩

end Calm

/-! ## Mutual exclusion -/

section Runs

variable {system : System}

theorem excludes_of_inv (inv : Inv system) : Excludes system := by
  have holds : ∀ pid, Inside system pid → ∃ fd, Holds system pid fd := by
    rintro pid ⟨alive, fiber, frame, found, inUse⟩
    have entered := inv.entered pid frame ⟨fiber, found⟩
    cases phase : frame.phase with
    | inUse fd stage =>
      cases fd with
      | none => simp [phase, reentered] at entered
      | some fd => exact ⟨fd, alive, frame, ⟨fiber, found⟩, by rw [phase]; rfl⟩
    | _ => simp [phase, active] at inUse
  intro pid other inside insideOther
  obtain ⟨fd, holding⟩ := holds pid inside
  obtain ⟨otherFd, holdingOther⟩ := holds other insideOther
  exact inv.one pid other fd otherFd holding holdingOther

/-- In every run whose steps are careful, at most one live process is in its `use`. -/
theorem processes_exclude {start : System} {actions : List Action} (initial : start.Initial)
    (run : Run step (fun system action => Assumed system action ∧ Careful system action) start actions system) :
    Excludes system := by
  apply excludes_of_inv
  apply run.keeps (P := Inv)
  · intro before action after guarded inv taken
    exact inv_step inv guarded.1 guarded.2 taken
  · exact inv_initial initial

/-- A process that removes the file it found stale is then the one in its `use`. -/
theorem processes_exclude_sample : ∃ system, Excludes system ∧ Inside system 1 := by
  have shown : (play (fun before action =>
      if calmly before action && carefully before action then step before action else none)
      System.quiet (crashRun ++ reclaim 1)).map (fun system =>
        ((system.processes 1).alive,
          ((system.processes 1).fibers 0).map (fun frame => active frame.phase))) = some (true, [true]) := by
    decide
  obtain ⟨system, played, inside⟩ := Option.map_eq_some_iff.mp shown
  suffices run : Run step (fun before action => Assumed before action ∧ Careful before action) System.quiet
      (crashRun ++ reclaim 1) system from
    ⟨system, processes_exclude System.initial_quiet run, inside_of_map inside⟩
  apply Run.of_check (P := Calm) _ _ calm_quiet played
  · intro before action calm checked
    rw [Bool.and_eq_true] at checked
    exact ⟨assumed_of_calm calm checked.1, careful_of_check checked.2⟩
  · intro before action after calm checked taken
    rw [Bool.and_eq_true] at checked
    exact calm_step calm checked.1 taken

/-- Two live processes are in their `use` at once, in a run in which each makes one call and
no time passes. -/
theorem reclaim_overlaps : ∃ start actions system, start.Initial ∧
    Run step Assumed start actions system ∧ ¬ Excludes system := by
  have shown : (play (fun before action => if calmly before action then step before action else none)
      System.quiet replacedRun).map (fun system => [1, 2].map (fun pid =>
        ((system.processes pid).alive,
          ((system.processes pid).fibers 0).map (fun frame => active frame.phase)))) =
      some [(true, [true]), (true, [true])] := by
    decide
  obtain ⟨system, played, inside⟩ := Option.map_eq_some_iff.mp shown
  have run : Run step Assumed System.quiet replacedRun system :=
    Run.of_check (fun _ _ calm checked => assumed_of_calm calm checked)
      (fun _ _ _ calm checked taken => calm_step calm checked taken) calm_quiet played
  simp only [List.map_cons, List.map_nil, List.cons.injEq, and_true] at inside
  refine ⟨System.quiet, replacedRun, system, System.initial_quiet, run, ?_⟩
  intro excludes
  have same : 1 = 2 := excludes 1 2 (inside_of_map inside.1) (inside_of_map inside.2)
  cases same

end Runs

end Tesera.TypeScript.Processes
