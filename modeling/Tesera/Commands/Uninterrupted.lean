import Tesera.Commands.Rotation

/-!
An append that nothing interrupts takes its steps to the end and writes what `append_event`
does, and so does an archive of a journal that can be counted.
-/

namespace Tesera.Commands.Uninterrupted
open Tesera.Transition Tesera.Text Tesera.Text.Unicode Tesera.Text.Lines Tesera.Python.Value Tesera.Canonical
open Tesera.Journal.Record Tesera.Journal.Tail Tesera.Journal.Payloads Tesera.Journal.Append
open Tesera.Journal.Store Tesera.Commands.Archive Tesera.Commands.Rotation

/-- A guard that allows each step but a write and a rollback. -/
def Lenient (guard : State → Action → Prop) : Prop :=
  ∀ state action, (∀ inode line, ¬ Writing state action inode line) →
    (∀ archived reason, state.archive ≠ .restoring archived reason) → guard state action

section Disk

variable {disk : Disk} {inode : Nat}

theorem unlock_lock (free : disk.locks inode = none) (actor : Actor) :
    (disk.lock actor inode).unlock inode = disk := by
  have same : Function.update (Function.update disk.locks inode (some actor)) inode none = disk.locks := by
    rw [Function.update_idem, ← free, Function.update_eq_self]
  unfold Disk.unlock Disk.lock
  rw [same]

theorem unlock_write_lock (free : disk.locks inode = none) (actor : Actor) (bytes : Bytes) :
    ((disk.lock actor inode).write inode bytes).unlock inode = disk.write inode bytes := by
  have same := congrArg (fun after : Disk => after.write inode bytes) (unlock_lock free actor)
  exact same

end Disk

section Appender

variable {setup : Setup} {guard : State → Action → Prop} {disk after : Disk} {archive : Archive}
  {appends : Nat → Append} {n inode : Nat} {previous : Option Str} {event : Dict} {line : Bytes}

/-- A step of an appender that writes nothing. -/
theorem append_quiet (lenient : Lenient guard) (calm : ∀ archived reason, archive ≠ .restoring archived reason)
    {call next : Append} (quiet : ∀ inode event line, call ≠ .built inode event line)
    (taken : appendStep setup.host setup.journal (setup.builds n) (.appender n) none disk call = some (after, next)) :
    Run (step setup) guard ⟨disk, archive, Function.update appends n call⟩ [.append n none]
      ⟨after, archive, Function.update appends n next⟩ := by
  apply Run.cons _ _ (.nil _)
  · apply lenient _ _ _ calm
    intro inode line writing
    cases writing with
    | append built => exact quiet _ _ _ (by simpa using built)
  · simp [step, taken]

/-- An append that has opened its file locks it, reads its end and writes the line built. -/
theorem append_finishes (lenient : Lenient guard) (calm : ∀ archived reason, archive ≠ .restoring archived reason)
    (free : disk.locks inode = none)
    (tail : readLastEventHash setup.host (shown setup.journal) (disk.inodes inode) = .ok previous)
    (built : buildLine setup.host (setup.builds n) previous = .ok (event, line))
    (writes : guard ⟨disk.lock (.appender n) inode, archive, Function.update appends n (.built inode event line)⟩
      (.append n none)) :
    Run (step setup) guard ⟨disk, archive, Function.update appends n (.opened inode)⟩
      (List.replicate 5 (.append n none))
      ⟨disk.write inode (line ++ [10]), archive, Function.update appends n (.returned event line)⟩ := by
  have locks : Run (step setup) guard ⟨disk, archive, Function.update appends n (.opened inode)⟩ [.append n none]
      ⟨disk.lock (.appender n) inode, archive, Function.update appends n (.locked inode)⟩ :=
    append_quiet lenient calm (by simp) (by simp [appendStep, free])
  have reads : Run (step setup) guard
      ⟨disk.lock (.appender n) inode, archive, Function.update appends n (.locked inode)⟩ [.append n none]
      ⟨disk.lock (.appender n) inode, archive, Function.update appends n (.read inode previous)⟩ := by
    apply append_quiet lenient calm (by simp)
    have same : (disk.lock (.appender n) inode).inodes = disk.inodes := rfl
    simp only [appendStep, same, tail]
  have builds : Run (step setup) guard
      ⟨disk.lock (.appender n) inode, archive, Function.update appends n (.read inode previous)⟩ [.append n none]
      ⟨disk.lock (.appender n) inode, archive, Function.update appends n (.built inode event line)⟩ :=
    append_quiet lenient calm (by simp) (by simp only [appendStep, built])
  have written : Run (step setup) guard
      ⟨disk.lock (.appender n) inode, archive, Function.update appends n (.built inode event line)⟩ [.append n none]
      ⟨(disk.lock (.appender n) inode).write inode (line ++ [10]), archive,
        Function.update appends n (.written inode event line)⟩ :=
    .cons writes (by simp [step, appendStep]) (.nil _)
  have returns : Run (step setup) guard
      ⟨(disk.lock (.appender n) inode).write inode (line ++ [10]), archive,
        Function.update appends n (.written inode event line)⟩ [.append n none]
      ⟨disk.write inode (line ++ [10]), archive, Function.update appends n (.returned event line)⟩ := by
    apply append_quiet lenient calm (by simp)
    rw [appendStep, unlock_write_lock free]
  exact locks.append (reads.append (builds.append (written.append returns)))

end Appender

section Archiver

variable {setup : Setup} {guard : State → Action → Prop} {disk after : Disk} {appends : Nat → Append}
  {inode : Nat} {stats : Nat × Option Str} {archived : Str} {event : Dict} {line : Bytes}

/-- The archive is not about to write, nor to move the file back. -/
def Quiet (phase : Archive) : Prop :=
  (∀ stats archived inode event line, phase ≠ .appending stats archived (.built inode event line)) ∧
    ∀ archived reason, phase ≠ .restoring archived reason

theorem archive_quiet (lenient : Lenient guard) {phase next : Archive} (quiet : Quiet phase)
    (taken : setup.archiveStep none disk phase = some (after, next)) :
    Run (step setup) guard ⟨disk, phase, appends⟩ [.archive none] ⟨after, next, appends⟩ := by
  apply Run.cons _ _ (.nil _)
  · apply lenient _ _ _ quiet.2
    intro inode line writing
    cases writing with
    | archive built => exact quiet.1 _ _ _ _ _ built
  · simp [step, taken]

/-- A count opens and locks a file that is there, reads it and unlocks it. -/
theorem count_runs (lenient : Lenient guard) {wrap : Stats → Archive} {name : Str} (quiet : ∀ call, Quiet (wrap call))
    (steps : ∀ disk call, (∀ result, call ≠ .done result) → setup.archiveStep none disk (wrap call) =
      (statsStep setup.host name none disk call).map (fun taken => (taken.1, wrap taken.2)))
    (there : disk.inode name = some inode) (free : disk.locks inode = none)
    (counted : archiveStats setup.host (shown name) (disk.inodes inode) = .ok stats) :
    Run (step setup) guard ⟨disk, wrap .ready, appends⟩ (List.replicate 3 (.archive none))
      ⟨disk, wrap (.done (.ok stats)), appends⟩ := by
  have opens : Run (step setup) guard ⟨disk, wrap .ready, appends⟩ [.archive none]
      ⟨disk, wrap (.opened inode), appends⟩ := by
    apply archive_quiet lenient (quiet _)
    rw [steps disk .ready (by simp)]
    simp [statsStep, Disk.openAppend, there]
  have locks : Run (step setup) guard ⟨disk, wrap (.opened inode), appends⟩ [.archive none]
      ⟨disk.lock .archive inode, wrap (.locked inode), appends⟩ := by
    apply archive_quiet lenient (quiet _)
    rw [steps disk (.opened inode) (by simp)]
    simp [statsStep, free]
  have reads : Run (step setup) guard ⟨disk.lock .archive inode, wrap (.locked inode), appends⟩ [.archive none]
      ⟨disk, wrap (.done (.ok stats)), appends⟩ := by
    apply archive_quiet lenient (quiet _)
    have same : (disk.lock .archive inode).inodes = disk.inodes := rfl
    rw [steps _ (.locked inode) (by simp), statsStep, unlock_lock free, same, counted]
    rfl
  exact opens.append (locks.append reads)

/-- The files after an archive: the old one under its new name, and a new one for the record. -/
def rotated (disk : Disk) (journal archived : Str) (inode : Nat) : Disk :=
  ((disk.create archived).replace journal archived inode).create journal

/-- The archive up to the rename. -/
theorem archive_renames (lenient : Lenient guard) (there : disk.inode setup.journal = some inode)
    (free : disk.locks inode = none)
    (counted : archiveStats setup.host (shown setup.journal) (disk.inodes inode) = .ok stats)
    (positive : stats.1 ≠ 0)
    (chosen : archived = archiveName setup.journal setup.time
      (freeIndex disk.world.files setup.journal setup.time))
    (apart : archived ≠ setup.journal) :
    Run (step setup) guard ⟨disk, .counting .ready, appends⟩ (List.replicate 6 (.archive none))
      ⟨(disk.create archived).replace setup.journal archived inode, .settling stats archived .ready, appends⟩ := by
  have counts : Run (step setup) guard ⟨disk, .counting .ready, appends⟩ (List.replicate 3 (.archive none))
      ⟨disk, .counting (.done (.ok stats)), appends⟩ := by
    apply count_runs lenient _ _ there free counted
    · exact fun call => ⟨by simp, by simp⟩
    · intro disk call unfinished
      cases call with
      | done result => exact absurd rfl (unfinished result)
      | ready | opened | locked => rfl
  have claims : Run (step setup) guard ⟨disk, .counting (.done (.ok stats)), appends⟩ [.archive none]
      ⟨disk, .claiming stats, appends⟩ := by
    apply archive_quiet lenient ⟨by simp, by simp⟩
    simp [Setup.archiveStep, Setup.counted, positive]
  have creates : Run (step setup) guard ⟨disk, .claiming stats, appends⟩ [.archive none]
      ⟨disk.create archived, .moving stats archived, appends⟩ := by
    apply archive_quiet lenient ⟨by simp, by simp⟩
    rw [chosen]
    rfl
  have moves : Run (step setup) guard ⟨disk.create archived, .moving stats archived, appends⟩ [.archive none]
      ⟨(disk.create archived).replace setup.journal archived inode, .settling stats archived .ready, appends⟩ := by
    apply archive_quiet lenient ⟨by simp, by simp⟩
    have live : (disk.create archived).inode setup.journal = some inode := by
      rw [Disk.inode_create, if_neg (Ne.symm apart)]
      exact there
    simp only [Setup.archiveStep, live]
  exact counts.append (claims.append (creates.append moves))

/-- The record of the archive on a new journal. -/
theorem archive_links (lenient : Lenient guard) (missing : disk.inode setup.journal = none)
    (built : buildLine setup.host (setup.build stats archived) none = .ok (event, line))
    (writes : guard ⟨(disk.create setup.journal).lock .archive disk.next,
      .appending stats archived (.built disk.next event line), appends⟩ (.archive none)) :
    Run (step setup) guard ⟨disk, .appending stats archived .ready, appends⟩ (List.replicate 6 (.archive none))
      ⟨(disk.create setup.journal).write disk.next (line ++ [10]), .returned archived event line, appends⟩ := by
  have free : (disk.create setup.journal).locks disk.next = none := by simp [Disk.create]
  have opened : disk.openAppend setup.journal = (disk.create setup.journal, disk.next) := by
    simp [Disk.openAppend, missing]
  have opens : Run (step setup) guard ⟨disk, .appending stats archived .ready, appends⟩ [.archive none]
      ⟨disk.create setup.journal, .appending stats archived (.opened disk.next), appends⟩ := by
    apply archive_quiet lenient ⟨by simp, by simp⟩
    simp [Setup.archiveStep, appendStep, opened, Setup.appended]
  have locks : Run (step setup) guard
      ⟨disk.create setup.journal, .appending stats archived (.opened disk.next), appends⟩ [.archive none]
      ⟨(disk.create setup.journal).lock .archive disk.next, .appending stats archived (.locked disk.next), appends⟩ := by
    apply archive_quiet lenient ⟨by simp, by simp⟩
    simp [Setup.archiveStep, appendStep, free, Setup.appended]
  have reads : Run (step setup) guard
      ⟨(disk.create setup.journal).lock .archive disk.next, .appending stats archived (.locked disk.next), appends⟩
      [.archive none]
      ⟨(disk.create setup.journal).lock .archive disk.next, .appending stats archived (.read disk.next none),
        appends⟩ := by
    apply archive_quiet lenient ⟨by simp, by simp⟩
    have empty : ((disk.create setup.journal).lock .archive disk.next).inodes disk.next = [] := by
      simp [Disk.create, Disk.lock]
    have tail : readLastEventHash setup.host (shown setup.journal) [] = .ok none := rfl
    simp only [Setup.archiveStep, appendStep, empty, tail, Option.map_some, Setup.appended]
  have builds : Run (step setup) guard
      ⟨(disk.create setup.journal).lock .archive disk.next, .appending stats archived (.read disk.next none),
        appends⟩ [.archive none]
      ⟨(disk.create setup.journal).lock .archive disk.next, .appending stats archived (.built disk.next event line),
        appends⟩ := by
    apply archive_quiet lenient ⟨by simp, by simp⟩
    simp only [Setup.archiveStep, appendStep, built, Option.map_some, Setup.appended]
  have written : Run (step setup) guard
      ⟨(disk.create setup.journal).lock .archive disk.next, .appending stats archived (.built disk.next event line),
        appends⟩ [.archive none]
      ⟨((disk.create setup.journal).lock .archive disk.next).write disk.next (line ++ [10]),
        .appending stats archived (.written disk.next event line), appends⟩ :=
    .cons writes (by simp [step, Setup.archiveStep, appendStep, Setup.appended]) (.nil _)
  have returns : Run (step setup) guard
      ⟨((disk.create setup.journal).lock .archive disk.next).write disk.next (line ++ [10]),
        .appending stats archived (.written disk.next event line), appends⟩ [.archive none]
      ⟨(disk.create setup.journal).write disk.next (line ++ [10]), .returned archived event line, appends⟩ := by
    apply archive_quiet lenient ⟨by simp, by simp⟩
    simp only [Setup.archiveStep, appendStep, unlock_write_lock free, Option.map_some, Setup.appended]
  exact opens.append (locks.append (reads.append (builds.append (written.append returns))))

/-- An archive of a journal that can be counted, on its own. -/
theorem archive_runs (lenient : Lenient guard) (loads : setup.unloadable = none)
    (there : disk.inode setup.journal = some inode) (bound : inode < disk.next) (free : disk.locks inode = none)
    (chosen : archived = archiveName setup.journal setup.time
      (freeIndex disk.world.files setup.journal setup.time))
    (apart : archived ≠ setup.journal)
    (counted : ∀ name, archiveStats setup.host name (disk.inodes inode) = .ok stats) (positive : stats.1 ≠ 0)
    (built : buildLine setup.host (setup.build stats archived) none = .ok (event, line))
    (writes : guard ⟨(rotated disk setup.journal archived inode).lock .archive (disk.next + 1),
      .appending stats archived (.built (disk.next + 1) event line), appends⟩ (.archive none)) :
    Run (step setup) guard ⟨disk, .counting .ready, appends⟩ (List.replicate 16 (.archive none))
      ⟨(rotated disk setup.journal archived inode).write (disk.next + 1) (line ++ [10]),
        .returned archived event line, appends⟩ := by
  have renames := @archive_renames setup guard disk appends inode stats archived lenient there free (counted _)
    positive chosen apart
  let moved := (disk.create archived).replace setup.journal archived inode
  have differ : inode ≠ disk.next := Nat.ne_of_lt bound
  have settles : Run (step setup) guard ⟨moved, .settling stats archived .ready, appends⟩
      (List.replicate 3 (.archive none)) ⟨moved, .settling stats archived (.done (.ok stats)), appends⟩ := by
    have there : moved.inode archived = some inode := by
      rw [Disk.inode_replace, if_neg apart, if_pos rfl]
    apply count_runs lenient (fun call => ⟨by simp, by simp⟩) _ there
    · simpa [moved, Disk.create, Disk.replace, differ] using free
    · simpa [moved, Disk.create, Disk.replace, differ] using counted (shown archived)
    · intro disk call unfinished
      cases call with
      | done result => exact absurd rfl (unfinished result)
      | ready | opened | locked => rfl
  have goesOn : Run (step setup) guard ⟨moved, .settling stats archived (.done (.ok stats)), appends⟩ [.archive none]
      ⟨moved, .appending stats archived .ready, appends⟩ := by
    apply archive_quiet lenient ⟨by simp, by simp⟩
    simp [Setup.archiveStep, Setup.settled, loads]
  have missing : moved.inode setup.journal = none := by
    rw [Disk.inode_replace, if_pos rfl]
  have links := @archive_links setup guard moved appends stats archived event line lenient missing built writes
  exact renames.append (settles.append (goesOn.append links))

end Archiver

end Tesera.Commands.Uninterrupted
