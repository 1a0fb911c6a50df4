import Tesera.Journal.Record
import Tesera.Verification.Event

/-!
`verify_journal`: one pass over the lines of a file. The pass follows the chain by the
stored hashes, stops at the first line it cannot parse, and remembers the newest
checkpoint and the checkpoints by id; an external witness is validated before and matched
on the way.
-/

namespace Tesera.Verification.Journal
open Tesera.Text Tesera.Text.Unicode Tesera.Text.Lines Tesera.Python.Value Tesera.Canonical
open Tesera.Journal.Record Tesera.Verification.Event

/-- A file as a reader meets it: it may not open, and reading may fail after some
complete lines. -/
inductive Source where
  | unopenable (error : String)
  | readable (content : Bytes) (failure : Option String)

structure Result where
  valid : Bool
  eventsVerified : Nat
  issues : List Issue
  deriving DecidableEq

structure Progress where
  issues : List Issue
  eventsVerified : Nat
  previousHash : Option Str
  lineNumber : Nat
  newestCheckpoint : Option Dict
  checkpoints : Checkpoints
  totalEvents : Nat
  witnessFound : Bool
  events : List Dict

/-- The state before the first line. -/
def start (issues : List Issue) : Progress where
  issues := issues
  eventsVerified := 0
  previousHash := none
  lineNumber := 0
  newestCheckpoint := none
  checkpoints := []
  totalEvents := 0
  witnessFound := false
  events := []

def Progress.report (p : Progress) (code message : String) : Progress :=
  { p with issues := p.issues ++ [⟨p.lineNumber, code, message⟩] }

def isCheckpoint (event : Dict) : Bool := asStr (get event "event_type") == some (lit "checkpoint")

/-- Whether an event carries the id of the witness. -/
def matchesWitness (witnessId : Option Str) (event : Dict) : Bool :=
  witnessId.isSome && asStr (get event "event_id") == witnessId

/-- The newest checkpoint after one more event. -/
def noteNewest (newest : Option Dict) (event : Dict) : Option Dict :=
  if isCheckpoint event then some event else newest

/-- The checkpoints by id after one more event. -/
def noteCheckpoint (checkpoints : Checkpoints) (event : Dict) : Checkpoints :=
  if isCheckpoint event then
    match asStr (get event "event_id") with
    | some id => Members.put id event checkpoints
    | none => checkpoints
  else checkpoints

/-- Fold a parsed event with the issues found in it. -/
def Progress.follow (p : Progress) (witnessId : Option Str) (event : Dict) (found : List Issue) :
    Progress where
  issues := p.issues ++ found
  eventsVerified := if found = [] then p.eventsVerified + 1 else p.eventsVerified
  previousHash := asStr (get event "event_hash")
  lineNumber := p.lineNumber
  newestCheckpoint := noteNewest p.newestCheckpoint event
  checkpoints := noteCheckpoint p.checkpoints event
  totalEvents := p.totalEvents + 1
  witnessFound := p.witnessFound || matchesWitness witnessId event
  events := p.events ++ [event]

/-- The lines of a file that are still to be read. -/
def scan (host : Host) (trusted : Keyring) (witnessId : Option Str) (failure : Option String) :
    List Bytes → Progress → Except PyError Progress
  | [], p =>
      match failure with
      | none => .ok p
      | some error => .ok (p.report "unreadable" s!"cannot read journal ({error})")
  | raw :: rest, before =>
      let p := { before with lineNumber := before.lineNumber + 1 }
      let stripped := strip raw
      if stripped = [] then scan host trusted witnessId failure rest p
      else
        match decodeLine host stripped with
        | .error e =>
            let shown := e.text
            -- the chain cannot be followed past an unparseable line
            if e.isValueError then .ok (p.report "malformed_json" s!"line is not valid JSON: {shown}")
            else .error e
        | .ok (.dict event) => do
            let found ← verifyEvent host event p.lineNumber p.previousHash trusted p.checkpoints
            scan host trusted witnessId failure rest (p.follow witnessId event found)
        | .ok _ => .ok (p.report "malformed_event" "line is not a JSON object")

/-! ## The witness -/

def witnessIssue (code message : String) : Option Dict × List Issue := (none, [⟨0, code, message⟩])

def invalidWitness (message : String) : Option Dict × List Issue :=
  witnessIssue "checkpoint_witness_invalid" message

/-- What is wrong with the fields of a witness. -/
def witnessShape (host : Host) (knownSchema : Bool) (event : Dict) : Option String :=
  let version := host.repr (get event "schema_version")
  let type := host.repr (get event "event_type")
  let missing := EventType.checkpoint.required.filter (fun field => !has event field)
  let shown := joinSorted missing
  if !knownSchema then some s!"checkpoint witness has unsupported schema_version {version}"
  else if !isCheckpoint event then
    some s!"checkpoint witness has event_type {type}, expected 'checkpoint'"
  else if missing ≠ [] then some s!"checkpoint witness is missing required fields: {shown}"
  else if !pyEq host (get event "head_sha256") (get event "previous_event_hash") then
    some "checkpoint witness head_sha256 does not match its previous_event_hash"
  else if badCount 0 (get event "checkpoint_count") then
    some "checkpoint witness checkpoint_count is not a non-negative integer"
  else none

/-- What is wrong with the hash and the signature of a witness. -/
def witnessSeal (host : Host) (trusted : Keyring) (digest : Bytes) (event : Dict) : Option String :=
  if !pyEq host (get event "event_hash") (.str (hex digest)) then
    some "checkpoint witness event_hash does not match its payload"
  else
    match signerOf trusted event with
    | none => some "checkpoint witness key_id is not among the trusted verification keys"
    | some signer =>
        if !verifySignature host signer digest (pyStr host (get event "signature")) then
          some "checkpoint witness signature does not verify"
        else none

/-- The checks on a witness that is an object. -/
def checkWitness (host : Host) (trusted : Keyring) (event : Dict) :
    Except PyError (Option Dict × List Issue) := do
  let known ← inSet knownSchemaVersions (get event "schema_version")
  match witnessShape host known event with
  | some message => return invalidWitness message
  | none =>
      let digest ← eventDigest host (unsignedPayload event)
      match witnessSeal host trusted digest event with
      | some message => return invalidWitness message
      | none => return (some event, [])

/-- `_load_checkpoint_witness`. -/
def loadCheckpointWitness (host : Host) (source : Source) (trusted : Keyring) :
    Except PyError (Option Dict × List Issue) :=
  let unreadable (error : String) : Except PyError (Option Dict × List Issue) :=
    .ok (witnessIssue "checkpoint_witness_unreadable" s!"cannot read checkpoint witness ({error})")
  match source with
  | .unopenable error => unreadable error
  | .readable _ (some error) => unreadable error
  | .readable content none =>
      let raw := strip content
      if raw = [] then .ok (invalidWitness "checkpoint witness file is empty")
      else
        match decodeLine host raw with
        | .error e =>
            let shown := e.text
            if e.isValueError then
              .ok (invalidWitness s!"checkpoint witness is not valid JSON: {shown}")
            else .error e
        | .ok (.dict event) => checkWitness host trusted event
        | .ok _ => .ok (invalidWitness "checkpoint witness is not a JSON object")

/-! ## Coverage -/

/-- `_truncation_issue`. -/
def truncationIssues (host : Host) (total : Nat) (checkpoint : Dict) : Except PyError (List Issue) := do
  let value ← item checkpoint "checkpoint_count"
  let count ← pyInt host value
  return issueIf (decide ((total : Int) < count)) 0 "checkpoint_truncation"
    s!"the journal has {total} events but a checkpoint commits to {count}; the journal tail was truncated"

/-- `max(candidates, key=…)`, from the best one so far. -/
def maxByCount (host : Host) (best : Dict) (bestCount : Json) : List Dict → Except PyError Dict
  | [] => .ok best
  | candidate :: rest => do
      let count ← item candidate "checkpoint_count"
      if ← pyGt host count bestCount then maxByCount host candidate count rest
      else maxByCount host best bestCount rest

def effectiveCheckpoint (host : Host) : List Dict → Except PyError (Option Dict)
  | [] => .ok none
  | candidate :: rest => do
      let count ← item candidate "checkpoint_count"
      let best ← maxByCount host candidate count rest
      return some best

/-- The issues of a witness that is not in the journal; it still bounds the length. -/
def lostWitness (host : Host) (total : Nat) (witness : Dict) : Except PyError (List Issue) := do
  let shown := host.repr (get witness "event_id")
  let truncated ← truncationIssues host total witness
  return ⟨0, "checkpoint_not_found",
    s!"the checkpoint witness event {shown} is not in the journal; the journal was truncated or the witness belongs to a different journal"⟩
    :: truncated

def coverageOf (host : Host) (total : Nat) : Option Dict → Except PyError (List Issue)
  | none => .ok []
  | some effective => truncationIssues host total effective

/-- `_checkpoint_coverage`. -/
def checkpointCoverage (host : Host) (newest witness : Option Dict) (witnessFound : Bool)
    (total : Nat) : Except PyError (List Issue) := do
  let present := if witnessFound then witness.toList else []
  let absent := if witnessFound then none else witness
  let lost ← absent.elim (.ok []) (lostWitness host total)
  let effective ← effectiveCheckpoint host (newest.toList ++ present)
  let truncated ← coverageOf host total effective
  return lost ++ truncated

/-! ## The verifier -/

/-- The result over an opened file, with the events read. -/
def readOpened (host : Host) (trusted : Keyring) (content : Bytes) (failure : Option String)
    (witness : Option Dict) (witnessIssues : List Issue) : Except PyError (Result × List Dict) := do
  let witnessId := witness.map (fun event => pyStr host (get event "event_id"))
  let p ← scan host trusted witnessId failure (splitLines content) (start witnessIssues)
  let coverage ← checkpointCoverage host p.newestCheckpoint witness p.witnessFound p.totalEvents
  let issues := p.issues ++ coverage
  return (⟨issues.isEmpty, p.eventsVerified, issues⟩, p.events)

/-- The witness of a call, and the issues found in it. -/
def loadWitness (host : Host) (trusted : Keyring) :
    Option Source → Except PyError (Option Dict × List Issue)
  | none => .ok (none, [])
  | some file => loadCheckpointWitness host file trusted

/-- `_read_and_verify`. -/
def readAndVerify (host : Host) (source : Source) (trusted : Keyring) (checkpoint : Option Source) :
    Except PyError (Result × List Dict) := do
  let witness ← loadWitness host trusted checkpoint
  match source with
  | .unopenable error =>
      return (⟨false, 0, [⟨0, "unreadable", s!"cannot read journal ({error})"⟩]⟩, [])
  | .readable content failure => readOpened host trusted content failure witness.1 witness.2

/-- `verify_journal`. -/
def verifyJournal (host : Host) (source : Source) (keys : List PublicKey)
    (checkpoint : Option Source) : Except PyError Result := do
  let read ← readAndVerify host source (toKeyring host keys) checkpoint
  return read.1

/-- `load_journal_snapshot`, with its events projected. -/
def loadJournalSnapshot (host : Host) (source : Source) (keys : List PublicKey)
    (project : Dict → Dict) : Except PyError (Result × List Dict) := do
  let read ← readAndVerify host source (toKeyring host keys) none
  return (read.1, read.2.map project)

end Tesera.Verification.Journal
