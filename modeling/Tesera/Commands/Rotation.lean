import Tesera.Commands.Archive
import Tesera.Transition

/-!
`archive_journal` beside appenders, one system call at a time. A name of the directory
stands for a file; a call that has opened a file keeps it when the name goes to another
one, and locks are on the file. The system can fail a call at each step but a `write`, which
puts a whole line at the end of the file or nothing.
-/

namespace Tesera.Commands.Rotation
open Tesera.Text Tesera.Text.Unicode Tesera.Text.Lines Tesera.Python.Value Tesera.Canonical
open Tesera.Journal.Record Tesera.Journal.Tail Tesera.Journal.Payloads Tesera.Journal.Append
open Tesera.Journal.Store Tesera.Commands.Archive

/-! ## The directory -/

inductive Actor where
  | archive
  | appender (n : Nat)
  deriving DecidableEq

/-- The files of a directory: the names, the content and the lock of each file. -/
structure Disk where
  names : Members.Entries Str Nat
  inodes : Nat → Bytes
  locks : Nat → Option Actor
  next : Nat

namespace Disk

def inode (disk : Disk) (name : Str) : Option Nat := Members.get disk.names name

/-- The directory as a reader meets it. -/
def world (disk : Disk) : World := ⟨disk.names.map (fun entry => (entry.1, disk.inodes entry.2)), []⟩

/-- A new empty file under a name. -/
def create (disk : Disk) (name : Str) : Disk where
  names := Members.put name disk.next disk.names
  inodes := Function.update disk.inodes disk.next []
  locks := Function.update disk.locks disk.next none
  next := disk.next + 1

/-- `open(path, "a+b")`. -/
def openAppend (disk : Disk) (name : Str) : Disk × Nat :=
  match disk.inode name with
  | some inode => (disk, inode)
  | none => (disk.create name, disk.next)

def lock (disk : Disk) (actor : Actor) (inode : Nat) : Disk :=
  { disk with locks := Function.update disk.locks inode (some actor) }

def unlock (disk : Disk) (inode : Nat) : Disk :=
  { disk with locks := Function.update disk.locks inode none }

def write (disk : Disk) (inode : Nat) (bytes : Bytes) : Disk :=
  { disk with inodes := Function.update disk.inodes inode (disk.inodes inode ++ bytes) }

/-- `os.replace` of a file that is there. -/
def replace (disk : Disk) (source target : Str) (inode : Nat) : Disk :=
  { disk with names := (Members.put target inode disk.names).filter (fun entry => entry.1 != source) }

end Disk

/-! ## `append_event` -/

inductive Append where
  | ready
  | opened (inode : Nat)
  | locked (inode : Nat)
  | read (inode : Nat) (previous : Option Str)
  | built (inode : Nat) (event : Dict) (line : Bytes)
  | written (inode : Nat) (event : Dict) (line : Bytes)
  /-- An error raised under the lock. -/
  | failing (inode : Nat) (error : PyError)
  | returned (event : Dict) (line : Bytes)
  | raised (error : PyError)

/-- Build an event and its line. -/
def buildLine (host : Host) (build : Option Str → Except PyError Dict) (previous : Option Str) :
    Except PyError (Dict × Bytes) := do
  let event ← build previous
  let line ← encodeEvent host event
  return (event, line)

/-- The next step of a call on the file of a name; `error` is the one the system has for
it. A call waits for a lock that another holds. -/
def appendStep (host : Host) (name : Str) (build : Option Str → Except PyError Dict) (actor : Actor)
    (error : Option String) (disk : Disk) : Append → Option (Disk × Append)
  | .ready =>
      match error with
      | some text => some (disk, .raised (cannotAppend name (.osError text)))
      | none => some ((disk.openAppend name).1, .opened (disk.openAppend name).2)
  | .opened inode =>
      match error with
      | some text => some (disk, .raised (cannotAppend name (.osError text)))
      | none => if disk.locks inode = none then some (disk.lock actor inode, .locked inode) else none
  | .locked inode =>
      match error with
      | some text => some (disk, .failing inode (.osError text))
      | none =>
          match readLastEventHash host (shown name) (disk.inodes inode) with
          | .ok previous => some (disk, .read inode previous)
          | .error raised => some (disk, .failing inode raised)
  | .read inode previous =>
      match buildLine host build previous with
      | .ok built => some (disk, .built inode built.1 built.2)
      | .error raised => some (disk, .failing inode raised)
  | .built inode event line =>
      match error with
      | some text => some (disk, .failing inode (.osError text))
      | none => some (disk.write inode (line ++ [10]), .written inode event line)
  | .written inode event line =>
      match error with
      | some text => some (disk, .failing inode (.osError text))
      | none => some (disk.unlock inode, .returned event line)
  | .failing inode raised => some (disk.unlock inode, .raised (cannotAppend name raised))
  | .returned _ _ => none
  | .raised _ => none

/-! ## `archive_stats` -/

inductive Stats where
  | ready
  | opened (inode : Nat)
  | locked (inode : Nat)
  | done (result : Except PyError (Nat × Option Str))

def statsStep (host : Host) (name : Str) (error : Option String) (disk : Disk) : Stats → Option (Disk × Stats)
  | .ready =>
      match error with
      | some text => some (disk, .done (.error (cannotRead name (.osError text))))
      | none => some ((disk.openAppend name).1, .opened (disk.openAppend name).2)
  | .opened inode =>
      match error with
      | some text => some (disk, .done (.error (cannotRead name (.osError text))))
      | none => if disk.locks inode = none then some (disk.lock .archive inode, .locked inode) else none
  | .locked inode =>
      match error with
      | some text => some (disk.unlock inode, .done (.error (cannotRead name (.osError text))))
      | none => some (disk.unlock inode,
          .done ((archiveStats host (shown name) (disk.inodes inode)).mapError (cannotRead name)))
  | .done _ => none

/-! ## `archive_journal` -/

/-- The journal of a directory, the archive's key and clock, the error for which the key
cannot be loaded, and the builders of the appenders. -/
structure Setup where
  host : Host
  journal : Str
  signer : Signer
  unloadable : Option PyError
  stamp : Stamp
  time : Time
  builds : Nat → Option Str → Except PyError Dict

/-- Where the archive stands. A rollback has a reason if the second count failed. -/
inductive Archive where
  | counting (call : Stats)
  | claiming (stats : Nat × Option Str)
  | moving (stats : Nat × Option Str) (archived : Str)
  | settling (stats : Nat × Option Str) (archived : Str) (call : Stats)
  | checking (archived : Str) (reason : Option PyError)
  | restoring (archived : Str) (reason : Option PyError)
  | appending (stats : Nat × Option Str) (archived : Str) (call : Append)
  | returned (archived : Str) (event : Dict) (line : Bytes)
  | raised (error : PyError)

namespace Setup

variable (setup : Setup)

def build (stats : Nat × Option Str) (archived : Str) : Option Str → Except PyError Dict :=
  buildArchive setup.host setup.signer setup.stamp setup.journal archived stats

/-- What the archive raises after a rollback, done or refused. -/
def rolledBack (archived : Str) (reason : Option PyError) (restored : Bool) : PyError :=
  let path := shown setup.journal
  let kept := shown archived
  match reason with
  | some error =>
      let text := error.text
      .archiveError s!"cannot archive {path}: {text}"
  | none =>
      if restored then .archiveError s!"concurrent write to {path} during archive; rerun the archive"
      else .archiveError s!"concurrent write to {path} during archive, and a new file now exists at the live path; old evidence is intact at {kept} — reconcile manually instead of rerunning blindly"

/-- What the archive makes of the first count. -/
def counted : Except PyError (Nat × Option Str) → Archive
  | .error error => .raised (if isJournalError error then .archiveError error.text else error)
  | .ok stats =>
      let path := shown setup.journal
      if stats.1 = 0 then .raised (.archiveError s!"nothing to archive in {path}") else .claiming stats

/-- What the archive makes of the count of the renamed file. Its key is loaded then. -/
def settled (stats : Nat × Option Str) (archived : Str) : Except PyError (Nat × Option Str) → Archive
  | .error error => if isJournalError error then .checking archived (some error) else .raised error
  | .ok again =>
      if again = stats then
        match setup.unloadable with
        | none => .appending stats archived .ready
        | some error => .raised error
      else .checking archived none

/-- The archive after a step of its append. -/
def appended (stats : Nat × Option Str) (archived : Str) : Append → Archive
  | .returned event line => .returned archived event line
  | .raised error => .raised (cannotStart setup.journal error)
  | call => .appending stats archived call

def archiveStep (error : Option String) (disk : Disk) : Archive → Option (Disk × Archive)
  | .counting (.done result) => some (disk, setup.counted result)
  | .counting call =>
      (statsStep setup.host setup.journal error disk call).map (fun taken => (taken.1, .counting taken.2))
  | .claiming stats =>
      let archived := archiveName setup.journal setup.time
        (freeIndex disk.world.files setup.journal setup.time)
      let path := shown archived
      match error with
      | some text => some (disk, .raised (.archiveError s!"cannot reserve archive path {path}: {text}"))
      | none => some (disk.create archived, .moving stats archived)
  | .moving stats archived =>
      let path := shown setup.journal
      match error, disk.inode setup.journal with
      | none, some inode => some (disk.replace setup.journal archived inode, .settling stats archived .ready)
      | some text, _ => some (disk, .raised (.archiveError s!"cannot archive {path}: {text}"))
      | none, none => some (disk, .raised (.archiveError s!"cannot archive {path}: not found"))
  | .settling stats archived (.done result) => some (disk, setup.settled stats archived result)
  | .settling stats archived call =>
      (statsStep setup.host archived error disk call).map
        (fun taken => (taken.1, .settling stats archived taken.2))
  -- `_rollback_archive` looks whether the live path exists, and only then moves the file back
  | .checking archived reason =>
      if (disk.inode setup.journal).isSome then some (disk, .raised (setup.rolledBack archived reason false))
      else some (disk, .restoring archived reason)
  | .restoring archived reason =>
      match error, disk.inode archived with
      | none, some inode =>
          some (disk.replace archived setup.journal inode, .raised (setup.rolledBack archived reason true))
      | _, _ => some (disk, .raised (setup.rolledBack archived reason false))
  | .appending stats archived call =>
      (appendStep setup.host setup.journal (setup.build stats archived) .archive error disk call).map
        (fun taken => (taken.1, setup.appended stats archived taken.2))
  | .returned _ _ _ => none
  | .raised _ => none

end Setup

/-! ## The system -/

structure State where
  disk : Disk
  archive : Archive
  appends : Nat → Append

/-- A step of the archive or of an appender, with the error the system has for it. -/
inductive Action where
  | archive (error : Option String)
  | append (n : Nat) (error : Option String)

def step (setup : Setup) (state : State) : Action → Option State
  | .archive error =>
      (setup.archiveStep error state.disk state.archive).map
        (fun taken => { state with disk := taken.1, archive := taken.2 })
  | .append n error =>
      (appendStep setup.host setup.journal (setup.builds n) (.appender n) error state.disk
        (state.appends n)).map
        (fun taken => { state with disk := taken.1, appends := Function.update state.appends n taken.2 })

/-- An action writes a line to a file. -/
inductive Writing (state : State) : Action → Nat → Bytes → Prop
  | archive {stats : Nat × Option Str} {archived : Str} {inode : Nat} {event : Dict} {line : Bytes}
      (built : state.archive = .appending stats archived (.built inode event line)) :
      Writing state (.archive none) inode line
  | append {n inode : Nat} {event : Dict} {line : Bytes} (built : state.appends n = .built inode event line) :
      Writing state (.append n none) inode line

/-! ## The directory after a step -/

namespace Disk

variable {disk : Disk} {name other : Str} {inode : Nat}

theorem file_world (disk : Disk) (name : Str) : disk.world.file name = (disk.inode name).map disk.inodes :=
  Members.get_map disk.inodes disk.names name

theorem inode_create (disk : Disk) (name other : Str) :
    (disk.create name).inode other = if other = name then some disk.next else disk.inode other := by
  unfold inode create
  split_ifs with same
  · rw [same, Members.get_put_self]
  · exact Members.get_put_of_ne same disk.next disk.names

theorem inode_replace (disk : Disk) (source target other : Str) (inode : Nat) :
    (disk.replace source target inode).inode other =
      if other = source then none else if other = target then some inode else disk.inode other := by
  unfold Disk.inode replace
  rw [Members.get_filter (fun key => key != source)]
  by_cases gone : other = source
  · simp [gone]
  · by_cases moved : other = target
    · subst moved
      simp [gone, Members.get_put_self]
    · simp [gone, moved, Members.get_put_of_ne]

end Disk

end Tesera.Commands.Rotation
