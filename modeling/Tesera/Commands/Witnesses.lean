import Tesera.Commands.Archive
import Tesera.Commands.Checkpoint
import Tesera.Commands.Operator
import Tesera.Python.Fnmatch
import Tesera.Retention
import Tesera.Text.FreeName

/-!
`witness_journal` and `prune_witnesses`: a checkpoint's witness is copied to a directory
under a name with the time, and of the copies there the newest are kept.
-/

namespace Tesera.Commands.Witnesses
open Tesera.Effects Tesera.Text Tesera.Text.Unicode Tesera.Text.Number Tesera.Text.FreeName Tesera.Python.Value
open Tesera.Journal.Payloads Tesera.Journal.Append Tesera.Journal.Store
open Tesera.Commands.Archive Tesera.Commands.Checkpoint Tesera.Commands.Operator
open Tesera.Python.Fnmatch Tesera.Retention

/-- A copy of a witness: its text, the `checkpoint_count` of the event that is the text of, and
when it was written. -/
structure Shipped where
  content : Bytes
  count : Int
  mtime : Int

/-- The directory of the copies, by name. -/
abbrev Vault := Members.Entries Str Shipped

/-- The journal with its directory, and the directory of the copies once it has been made. -/
structure State where
  world : World
  vault : Option Vault

/-- The names `_ship_witness` tries, in their order; the second has the suffix 2. -/
def witnessName (time : Time) (index : Nat) : Str :=
  lit "checkpoint-" ++ time.text ++ ((if index = 0 then [] else 45 :: (decimal (index + 1)).text) ++ lit ".checkpoint")

def latestName : Str := lit "latest.checkpoint"

/-- The name under which the next copy is put. -/
def targetName (vault : Vault) (time : Time) : Str := witnessName time (firstFree vault (witnessName time))

/-- The system's error for the copy to the name with the time, and for that to `latest`. -/
structure CopyFaults where
  target : Option String
  latest : Option String

def cannotShip (name : Str) (error : String) : PyError :=
  let path := shown name
  .journalError s!"cannot ship witness to {path}: {error}"

/-- `_ship_witness`. -/
def shipWitness (faults : CopyFaults) (time : Time) (shipped : Shipped) (vault : Vault) : Except PyError Str × Vault :=
  let target := targetName vault time
  match faults.target with
  | some error => (.error (cannotShip target error), vault)
  | none =>
      let vault := Members.put target shipped vault
      match faults.latest with
      | some error => (.error (cannotShip latestName error), vault)
      | none => (.ok target, Members.put latestName shipped vault)

structure WitnessReport where
  checkpointCount : Int
  shippedPath : Str
  countersignature : Option Dict

/-- What `witness_journal` raises where the countersignature fails. -/
def countersignFailed : PyError → PyError
  | .countersignError text => .countersignError text
  | error =>
      let text := error.text
      .journalError s!"checkpoint witnessed but countersign failed: {text}"

/-- A countersignature with the counter key, and the faults of the system during it. -/
structure Counter where
  identity : Except PyError Signer
  stamp : Stamp
  io : Io

/-- `witness_journal`. The copies have the time at which they are written. -/
def witnessJournal (host : Host) (io : Io) (journal : Str) (identity : Except PyError Signer) (stamp : Stamp)
    (time : Time) (mtime : Int) (faults : CopyFaults) (counter : Option Counter) (state : State) :
    Except PyError WitnessReport × State :=
  match checkpointJournal host io journal identity stamp .beside state.world with
  | (.error error, world) => (.error error, { state with world := world })
  | (.ok report, world) =>
      let content := (world.file (journal ++ lit ".checkpoint")).getD []
      match shipWitness faults time ⟨content, report.count, mtime⟩ (state.vault.getD []) with
      | (.error error, vault) => (.error error, ⟨world, some vault⟩)
      | (.ok target, vault) =>
          match counter with
          | none => (.ok ⟨report.count, target, none⟩, ⟨world, some vault⟩)
          | some counter =>
              match Effect.mapError countersignFailed
                  (countersignJournal host counter.io journal counter.identity counter.stamp) world with
              | (.error error, world) => (.error error, ⟨world, some vault⟩)
              | (.ok countersigned, world) => (.ok ⟨report.count, target, some countersigned.event⟩, ⟨world, some vault⟩)

/-! ## Pruning -/

/-- What the system says of the copies when they are pruned: of which it cannot tell that they
are regular files or when they were written, and which it does not remove. -/
structure PruneFaults where
  unassessed : Str → Bool
  undeletable : Str → Option String

structure PruneReport where
  kept : List Str
  deleted : List Str

/-- The names that match `*.checkpoint`, but for the pointer to the newest. -/
def candidates (vault : Vault) : List Str :=
  (vault.map Prod.fst).filter (fun name => fnmatchcase name (lit "*.checkpoint") && name != latestName)

/-- The regular files with the key by which they are sorted. -/
def regular (faults : PruneFaults) (vault : Vault) : List (Int ×ₗ Str) :=
  (candidates vault).filterMap (fun name =>
    if faults.unassessed name then none else (Members.get vault name).map (fun shipped => toLex (shipped.mtime, name)))

def nameOf (key : Int ×ₗ Str) : Str := (ofLex key).2

/-- `prune_witnesses`, on the directory of that name. -/
def pruneWitnesses (directory : Str) (faults : PruneFaults) (keep : Int) (state : State) : Except PyError PruneReport × State :=
  let path := shown directory
  if keep < 1 then (.error (.valueError "keep must be positive"), state)
  else
    match state.vault with
    | none => (.error (.journalError s!"no witness dir at {path}"), state)
    | some vault =>
        let victims := (oldest keep.toNat (regular faults vault)).map nameOf
        let kept := (newest keep.toNat (regular faults vault)).map nameOf
        let deleted := victims.filter (fun name => (faults.undeletable name).isNone)
        let failures := victims.filterMap (fun name => (faults.undeletable name).map (fun error =>
          let shownName := shown name
          s!"{shownName}: {error}"))
        let after := { state with vault := some (vault.filter (fun entry => !deleted.contains entry.1)) }
        if failures ≠ [] then
          let count := failures.length
          let listed := "; ".intercalate failures
          (.error (.journalError s!"could not delete {count} witness(es) in {path}: {listed}"), after)
        else (.ok ⟨kept ++ (candidates vault).filter faults.unassessed, deleted⟩, after)

end Tesera.Commands.Witnesses
