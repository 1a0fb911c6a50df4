import Tesera.Effects
import Tesera.Journal.Append

/-!
A journal as a file of a directory. Each call opens the file by its name, which creates
it, and the system can fail a call at several points: before anything is written, or
after the line is on the disk.
-/

namespace Tesera.Journal.Store
open Tesera.Effects Tesera.Text Tesera.Text.Unicode Tesera.Text.Lines Tesera.Python.Value
open Tesera.Journal.Append

/-- The files of a directory, by name. -/
abbrev Files := Members.Entries Str Bytes

/-- The directory a journal lies in, and the names the journal was archived under. -/
structure World where
  files : Files
  archived : List Str

namespace World

def file (world : World) (name : Str) : Option Bytes := Members.get world.files name

def write (world : World) (name : Str) (content : Bytes) : World :=
  { world with files := Members.put name content world.files }

def remove (world : World) (name : Str) : World :=
  { world with files := world.files.filter (fun p => p.1 != name) }

/-- Opening for an append creates the file. -/
def touch (world : World) (name : Str) : World :=
  match world.file name with
  | some _ => world
  | none => world.write name []

end World

/-- Where the system can fail a command. -/
inductive Point where
  | opening
  | writing
  | flushing
  | lookup
  | relookup
  | witnessOpening
  | witnessWriting
  | stats
  | claim
  | rename
  | settle
  | restore
  deriving DecidableEq

/-- The error the system has for a command at each point, if any. -/
abbrev Io := Point → Option String

abbrev Command (α : Type) := Effect World PyError α

def attempt (io : Io) (point : Point) : Command Unit :=
  Effect.lift (match io point with
    | none => .ok ()
    | some error => .error (.osError error))

/-- A name in a message. -/
def shown (name : Str) : String := String.ofList (name.map Char.ofNat)

/-- `except OSError` around an append. -/
def cannotAppend (name : Str) : PyError → PyError
  | .osError error =>
      let path := shown name
      .journalError s!"cannot append to journal {path}: {error}"
  | error => error

/-- One of the appends of `FileJournal`, on the file of this name. -/
def appendAt (io : Io) (name : Str) (append : Option Bytes → Except PyError Appended) : Command Dict :=
  Effect.mapError (cannotAppend name) do
    attempt io .opening
    Effect.change (fun world => world.touch name)
    let appended ← Effect.inspect (fun world => append (world.file name))
    attempt io .writing
    Effect.change (fun world => world.write name appended.content)
    attempt io .flushing
    return appended.event

/-- `except OSError` around `archive_stats`. -/
def cannotRead (name : Str) : PyError → PyError
  | .osError error =>
      let path := shown name
      .journalError s!"cannot read journal {path}: {error}"
  | error => error

/-- `archive_stats` of the file of this name. -/
def archiveStatsAt (host : Host) (io : Io) (point : Point) (name : Str) : Command (Nat × Option Str) :=
  Effect.mapError (cannotRead name) do
    attempt io point
    Effect.change (fun world => world.touch name)
    Effect.inspect (fun world => archiveStats host (shown name) ((world.file name).getD []))

/-! ## The files after a step -/

namespace World

@[simp] theorem archived_write (world : World) (name : Str) (content : Bytes) :
    (world.write name content).archived = world.archived := rfl

@[simp] theorem archived_remove (world : World) (name : Str) :
    (world.remove name).archived = world.archived := rfl

@[simp] theorem archived_touch (world : World) (name : Str) :
    (world.touch name).archived = world.archived := by
  unfold touch
  cases world.file name <;> rfl

theorem file_write (world : World) (name other : Str) (content : Bytes) :
    (world.write name content).file other = if other = name then some content else world.file other := by
  unfold file write
  split_ifs with same
  · rw [same, Members.get_put_self]
  · exact Members.get_put_of_ne same content world.files

theorem file_remove (world : World) (name other : Str) :
    (world.remove name).file other = if other = name then none else world.file other := by
  unfold file remove
  rw [Members.get_filter (fun key => key != name)]
  split_ifs with kept same same <;> simp_all

theorem file_touch (world : World) (name other : Str) :
    (world.touch name).file other =
      if other = name then some ((world.file name).getD []) else world.file other := by
  unfold touch
  cases found : world.file name with
  | some content =>
    split_ifs with same
    · rw [same, found, Option.getD_some]
    · rfl
  | none =>
    rw [file_write]
    rfl

end World

/-! ## Conditions on the calls -/

section Rules

variable {io : Io} {name : Str} {P P' E : World → Prop}

theorem ensures_attempt {point : Point} {Q : Unit → World → Prop} (passed : ∀ world, P world → Q () world)
    (failed : ∀ world, P world → E world) : Ensures P (attempt io point) Q E :=
  ensures_lift (fun world _ pre _ => passed world pre) failed

/-- An append keeps what a created file keeps, and its line leads to the postcondition,
whether it is flushed or not. -/
theorem ensures_appendAt {append : Option Bytes → Except PyError Appended} {Q : Dict → World → Prop}
    (touched : ∀ world, P world → P (world.touch name))
    (written : ∀ world appended, P world → append (world.file name) = .ok appended →
      Q appended.event (world.write name appended.content))
    (failed : ∀ world, P world → E world) (unflushed : ∀ event world, Q event world → E world) :
    Ensures P (appendAt io name append) Q E := by
  apply ensures_mapError
  apply ensures_bind (ensures_attempt (Q := fun _ => P) (fun _ pre => pre) failed)
  intro _
  apply ensures_bind (ensures_change (Q := fun _ => P) touched)
  intro _
  apply ensures_bind
    (ensures_inspect (Q := fun appended world => Q appended.event (world.write name appended.content) ∧ P world)
      (fun world appended pre found => ⟨written world appended pre found, pre⟩) failed)
  intro appended
  apply ensures_bind
    (ensures_attempt (Q := fun _ world => Q appended.event (world.write name appended.content))
      (fun _ pre => pre.1) (fun world pre => failed world pre.2))
  intro _
  apply ensures_bind (ensures_change (Q := fun _ world => Q appended.event world) (fun _ pre => pre))
  intro _
  apply ensures_bind (ensures_attempt (Q := fun _ world => Q appended.event world) (fun _ pre => pre)
    (unflushed appended.event))
  intro _
  exact ensures_ret (fun _ pre => pre)

theorem ensures_archiveStatsAt {host : Host} {point : Point} (touched : ∀ world, P world → P' (world.touch name))
    (failed : ∀ world, P world → E world) (unread : ∀ world, P' world → E world) :
    Ensures P (archiveStatsAt host io point name)
      (fun stats world => archiveStats host (shown name) ((world.file name).getD []) = .ok stats ∧ P' world) E := by
  apply ensures_mapError
  apply ensures_bind (ensures_attempt (Q := fun _ => P) (fun _ pre => pre) failed)
  intro _
  apply ensures_bind (ensures_change (Q := fun _ => P') touched)
  intro _
  exact ensures_inspect (fun world stats pre found => ⟨found, pre⟩) unread

end Rules

end Tesera.Journal.Store
