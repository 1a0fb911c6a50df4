import Tesera.Commands.Archive
import Tesera.Python.Fnmatch
import Tesera.Retention

/-!
`archive_journal` with `keep`: once the new live file has begun, of all files whose names
match the pattern for archives the newest are kept, and the others are deleted.
-/

namespace Tesera.Commands.Pruning
open Tesera.Effects Tesera.Text Tesera.Text.Unicode Tesera.Python.Value
open Tesera.Journal.Payloads Tesera.Journal.Append Tesera.Journal.Store Tesera.Commands.Archive
open Tesera.Python.Fnmatch Tesera.Retention

/-- What the system says of a name: when it was last modified, or why it cannot tell, and
whether it lets the name be removed. -/
structure Stat where
  mtime : Except String Int
  removable : Bool

/-- A directory with the status of its names. -/
structure Directory where
  world : World
  stat : Str → Stat

/-- The directory lists every name once. -/
def Directory.names (directory : Directory) : List Str := (directory.world.files.map Prod.fst).dedup

/-- `_archive_glob_root`. -/
def archivePattern (journal : Str) : Str := stem journal ++ lit "-*.jsonl"

/-- `parent.glob(pattern)`. -/
def archivesOf (journal : Str) (directory : Directory) : List Str :=
  directory.names.filter (fun name => fnmatchcase name (archivePattern journal))

/-- The key `(p.stat().st_mtime_ns, p.name)` of each. -/
def sortKeys (directory : Directory) (names : List Str) : Except PyError (List (Int ×ₗ Str)) :=
  names.mapM (fun name => match (directory.stat name).mtime with
    | .ok mtime => .ok (toLex (mtime, name))
    | .error error => .error (.osError error))

/-- Unlink one after another; what cannot be removed is passed over. -/
def unlinkAll (stat : Str → Stat) : List Str → World → List Str × World
  | [], world => ([], world)
  | name :: names, world =>
      if (stat name).removable then
        let (pruned, after) := unlinkAll stat names (world.remove name)
        (name :: pruned, after)
      else unlinkAll stat names world

/-- `_prune_archives`. -/
def pruneArchives (journal : Str) (keep : Nat) (directory : Directory) : Except PyError (List Str) × Directory :=
  match sortKeys directory (archivesOf journal directory) with
  | .error error => (.error error, directory)
  | .ok keys =>
      let doomed := (oldest keep keys).map (fun key => (ofLex key).2)
      let (pruned, world) := unlinkAll directory.stat doomed directory.world
      (.ok pruned, { directory with world := world })

/-- The archive has the times of the live file that it was; the new live file has its own. -/
def renamedStat (stat : Str → Stat) (journal archived : Str) (fresh : Stat) : Str → Stat := fun name =>
  if name = archived then stat journal else if name = journal then fresh else stat name

/-- `archive_journal` with `keep`. -/
def archiveKeeping (host : Host) (io : Io) (journal : Str) (identity : Except PyError Signer) (stamp : Stamp)
    (time : Time) (fresh : Stat) (keep : Int) (directory : Directory) :
    Except PyError (ArchiveReport × List Str) × Directory :=
  if keep < 1 then
    (.error (.archiveError s!"keep must be positive, got {keep}"), directory)
  else
    match archiveJournal host io journal identity stamp time directory.world with
    | (.error error, world) => (.error error, { directory with world := world })
    | (.ok report, world) =>
        let renamed := ⟨world, renamedStat directory.stat journal report.archivedPath fresh⟩
        match pruneArchives journal keep.toNat renamed with
        | (.error error, after) => (.error error, after)
        | (.ok pruned, after) => (.ok (report, pruned), after)

end Tesera.Commands.Pruning
