import Tesera.Journal.Payloads
import Tesera.Journal.Store

/-!
The commands that attest to an event of the journal: `countersign_journal` for the
newest checkpoint, `resolve_journal` for a decision. Each looks its event up without the
lock and appends a signed record that refers to it.
-/

namespace Tesera.Commands.Operator
open Tesera.Effects Tesera.Text Tesera.Text.Unicode Tesera.Text.Lines Tesera.Python.Value
open Tesera.Canonical Tesera.Journal.Record Tesera.Journal.Payloads Tesera.Journal.Idempotency
open Tesera.Journal.Append Tesera.Journal.Store

/-! ## Countersignatures -/

/-- The last checkpoint among some events. -/
def lastCheckpoint (events : List Dict) : Option Dict :=
  events.foldl (fun newest event => if isEvent "checkpoint" event then some event else newest) none

/-- `_newest_checkpoint`; a file that cannot be read holds none. -/
def newestCheckpoint (host : Host) (io : Io) (point : Point) (journal : Str) : Command (Option Dict) :=
  Effect.inspect (fun world =>
    match io point, world.file journal with
    | none, some content => (readEvents host (records content)).map lastCheckpoint
    | _, _ => .ok none)

structure CountersignatureReport where
  event : Dict
  checkpointId : Str
  count : Int
  head : Json
  superseded : Bool

/-- `except Exception` around the loading of the key. -/
def cannotLoad (error : PyError) : PyError :=
  let text := error.text
  .countersignError s!"cannot load countersigning key: {text}"

/-- The rest of `countersign_journal`, on the checkpoint found. -/
def countersignCheckpoint (host : Host) (io : Io) (journal : Str) (identity : Except PyError Signer)
    (stamp : Stamp) (checkpoint : Dict) : Command CountersignatureReport := do
  let signer ← Effect.mapError cannotLoad (Effect.lift identity)
  let id ← Effect.lift (item checkpoint "event_id")
  let count ← Effect.lift (item checkpoint "checkpoint_count")
  let head ← Effect.lift (item checkpoint "head_sha256")
  let build := fun previous => finalizeEvent host
    (countersignaturePayload signer stamp (pyStr host id) count head previous) signer.sign
  let event ← appendAt io journal (fun file => appendEvent host (shown journal) file build)
  let latest ← newestCheckpoint host io .relookup journal
  let superseded := !latest.any (fun other => pyStr host (get other "event_id") == pyStr host id)
  let number ← Effect.lift (pyInt host count)
  return ⟨event, pyStr host id, number, head, superseded⟩

/-- `countersign_journal`. -/
def countersignJournal (host : Host) (io : Io) (journal : Str) (identity : Except PyError Signer)
    (stamp : Stamp) : Command CountersignatureReport := do
  let checkpoint ← newestCheckpoint host io .lookup journal
  match checkpoint with
  | none =>
      let path := shown journal
      Effect.raise (.countersignError s!"no checkpoint in {path}; run `tesera checkpoint` first")
  | some found => countersignCheckpoint host io journal identity stamp found

/-! ## Resolutions -/

def maxNoteChars : Nat := 1000

/-- A note cut to the limit, with an ellipsis as its last character. -/
def boundedNote (note : Str) : Str :=
  if maxNoteChars < note.length then note.take (maxNoteChars - 1) ++ [8230] else note

/-- `_find_decision`: the first decision of this id; a line that is not JSON is
skipped. -/
def findDecisionIn (host : Host) (id : Str) : List Bytes → Except PyError (Option Dict)
  | [] => .ok none
  | line :: rest =>
      match decodeLine host line with
      | .error e => if e.isValueError then findDecisionIn host id rest else .error e
      | .ok (.dict event) =>
          if isEvent "decision" event && asStr (get event "event_id") == some id then .ok (some event)
          else findDecisionIn host id rest
      | .ok _ => findDecisionIn host id rest

def findDecision (host : Host) (io : Io) (journal : Str) (id : Str) : Command (Option Dict) :=
  Effect.inspect (fun world =>
    match io .lookup, world.file journal with
    | none, some content => findDecisionIn host id (records content)
    | _, _ => .ok none)

/-- Why a decision cannot be resolved. -/
def unresolvable (host : Host) (id : Str) (decision : Dict) : Option String :=
  let named := host.repr (.str id)
  if asStr (get decision "decision") ≠ some (lit "allowed") then
    some s!"decision {named} was not allowed; nothing to reconcile"
  else if get decision "dry_run" matches .bool true then
    some s!"decision {named} was a dry run and never executed; nothing to reconcile"
  else none

/-- The event of a resolution; it takes its action from the decision. -/
def buildResolution (host : Host) (signer : Signer) (stamp : Stamp) (decision : Dict)
    (decisionId resolution note : Str) (previous : Option Str) : Except PyError Dict := do
  let actionId ← item decision "action_id"
  let actionName ← item decision "action_name"
  let contractHash ← item decision "contract_hash"
  finalizeEvent host (resolutionPayload signer stamp actionId actionName contractHash decisionId resolution
    note previous) signer.sign

def knownResolutions : List Str := [lit "confirmed_completed", lit "confirmed_not_completed"]

/-- The rest of `resolve_journal`, on the decision found. -/
def resolveDecision (host : Host) (io : Io) (journal : Str) (identity : Except PyError Signer)
    (stamp : Stamp) (decisionId resolution note : Str) (decision : Dict) : Command Dict :=
  match unresolvable host decisionId decision with
  | some message => Effect.raise (.resolutionError message)
  | none => do
      let signer ← Effect.lift identity
      appendAt io journal (fun file => appendEvent host (shown journal) file
        (buildResolution host signer stamp decision decisionId resolution note))

/-- `resolve_journal`; its report repeats the arguments beside the event. -/
def resolveJournal (host : Host) (io : Io) (journal : Str) (identity : Except PyError Signer)
    (stamp : Stamp) (decisionId resolution note : Str) : Command Dict :=
  if knownResolutions.contains resolution then do
    let decision ← findDecision host io journal decisionId
    match decision with
    | none =>
        let named := host.repr (.str decisionId)
        let path := shown journal
        Effect.raise (.resolutionError s!"unknown decision_event_id {named} in {path}")
    | some found =>
        resolveDecision host io journal identity stamp decisionId resolution (boundedNote note) found
  else
    let named := host.repr (.str resolution)
    Effect.raise (.resolutionError
      s!"invalid resolution {named}: expected one of ['confirmed_completed', 'confirmed_not_completed']")

end Tesera.Commands.Operator
