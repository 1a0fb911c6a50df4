import Tesera.Approval.Server
import Tesera.Journal.Payloads
import Tesera.Text.Replace
import Tesera.Transition
import Tesera.TypeScript.Idempotency

/-!
`guard` of `Guard.ts`: the calls of one process on one journal, each in a fiber of its own. A fiber may be
suspended wherever the code yields, so that the steps of several calls come in any order; only the look for
an earlier decision and the append of the own one are under the permit of the journal. The lock file keeps
appends of other processes apart; here appends of different fibers may overlap.
-/

namespace Tesera.TypeScript.Guard
open Tesera.Text Tesera.Text.Unicode Tesera.Text.Decimal Tesera.Text.Replace Tesera.Transition
open Tesera.Approval (ApprovalDecision Verdict)
open Tesera.Journal.Payloads (Stamp)
open Tesera.TypeScript.Value Tesera.TypeScript.Canonical Tesera.TypeScript.FileJournal Tesera.TypeScript.Verify
open Tesera.TypeScript.Idempotency

/-! ## Calls -/

/-- `SigningIdentity`; signing may fail. -/
structure SigningIdentity where
  keyId : Str
  sign : Bytes → Option Str

/-- `spendFrom`, with what an extractor gives for the arguments: none where it throws, or gives what is no value of
JSON. -/
inductive SpendFrom where
  | absent
  | literal (cents : Double)
  | extracted (raw : Option Json)

/-- `Number.isInteger(value) && value >= 0`. -/
def isCents : Double → Bool
  | .finite d => isInteger d && (!d.neg || d.digits.isEmpty)
  | _ => false

/-- `resolveSpend`; none is a `ContractError`. -/
def resolveSpend : SpendFrom → Option (Option Double)
  | .absent => some none
  | .literal cents => if isCents cents then some (some cents) else none
  | .extracted (some .null) => some none
  | .extracted (some (.num raw)) => if isCents raw then some (some raw) else none
  | .extracted _ => none

/-- `idempotencyKey`, with what a function gives for the arguments. -/
inductive IdempotencyKey where
  | absent
  | literal (key : Str)
  | derived (raw : Option Json)

/-- The key of a call; none is a `ContractError`. A literal key may be empty. -/
def resolveKey : IdempotencyKey → Option (Option Str)
  | .absent => some none
  | .literal key => some (some key)
  | .derived (some (.str raw)) => if raw = [] then none else some (some raw)
  | .derived _ => none

/-- The options of a guarded function, with what `redact` makes of the arguments of a call: the value, its
`boundedSummary`, and what was removed. -/
structure GuardOptions where
  action : Str
  actionId : Option Str
  risk : Option Str
  identity : SigningIdentity
  idempotencyKey : IdempotencyKey
  spendFrom : SpendFrom
  dryRun : Bool
  redacted : Record
  summary : Str
  removed : List Str
  patterns : List (Str → Str)

/-- What a call has resolved before anything observable. -/
structure Call where
  action : Str
  actionId : Str
  risk : Str
  identity : SigningIdentity
  key : Option Str
  spendCents : Option Double
  dryRun : Bool
  contract : Str
  inputHash : Str
  redacted : Record
  summary : Str
  removed : List Str
  patterns : List (Str → Str)

/-- `createHash("sha256").update(canonical(value), "utf8").digest("hex")`. -/
def canonicalHash (sha256 : Bytes → Bytes) (value : Json) : Option Str :=
  (canonical value).map (fun text => Tesera.Canonical.hex (sha256 (bufferOf text)))

/-- The code before the first look; none where it throws or fails. -/
def prepare (sha256 : Bytes → Bytes) (options : GuardOptions) : Option Call := do
  let actionId := options.actionId.getD options.action
  let risk := options.risk.getD (lit "medium")
  let inputHash ← canonicalHash sha256 (.obj options.redacted)
  let contract ← canonicalHash sha256 (.obj (Members.ofPairs
    [(lit "action", .str options.action), (lit "actionId", .str actionId), (lit "risk", .str risk)]))
  let spendCents ← resolveSpend options.spendFrom
  let key ← resolveKey options.idempotencyKey
  return {
    action := options.action, actionId := actionId, risk := risk, identity := options.identity, key := key,
    spendCents := spendCents, dryRun := options.dryRun, contract := contract, inputHash := inputHash,
    redacted := options.redacted, summary := options.summary, removed := options.removed, patterns := options.patterns }

/-! ## Events -/

/-- `scrubText`, with the patterns as what they substitute. -/
def scrubText (text : Str) (removed : List Str) (patterns : List (Str → Str)) (maxChars : Nat) : Str :=
  let unique := (removed.filter (fun raw => !raw.isEmpty)).eraseDups.mergeSort (fun a b => decide (b.length ≤ a.length))
  let scrubbed := unique.foldl (fun text raw => replace raw (lit "<REDACTED>") text) text
  (patterns.foldl (fun text substitutes => substitutes text) scrubbed).take maxChars

def retentionState : Json → String
  | .str value =>
      if value = lit "<REDACTED>" then "redacted"
      else if (lit "<unsupported:").isPrefixOf value then "unsupported"
      else "retained"
  | _ => "retained"

/-- `parameterRetention` of an object. -/
def parameterRetention (redacted : Record) : Json :=
  .arr (redacted.map (fun p => .obj (Members.ofPairs [(lit "name", .str p.1), (lit "state", .str (lit (retentionState p.2)))])))

def nullable (value : Option Str) : Json := value.elim .null .str

/-- A field that is there when it has a value. -/
def optionalField (field : String) (value : Option Json) : List (Str × Json) := value.toList.map (fun v => (lit field, v))

/-- The fields that every event of a call has. -/
def callFields (call : Call) (stamp : Stamp) (type : String) (previousHash : Option Str) : List (Str × Json) :=
  [(lit "schema_version", .str (lit "1")),
    (lit "event_type", .str (lit type)),
    (lit "event_id", .str stamp.eventId),
    (lit "action_id", .str call.actionId),
    (lit "action_name", .str call.action),
    (lit "contract_hash", .str call.contract),
    (lit "timestamp_utc", .str stamp.timestamp),
    (lit "key_id", .str call.identity.keyId),
    (lit "previous_event_hash", nullable previousHash)]

def duplicateReason : Str := lit "duplicate idempotency key; already reserved or completed"

/-- `duplicateDecision`. -/
def duplicateDecision (call : Call) (duplicateOf : Option Str) (stamp : Stamp) (previousHash : Option Str) : Record :=
  Members.ofPairs (callFields call stamp "decision" previousHash ++
    [(lit "decision", .str (lit "denied")),
      (lit "risk", .str call.risk),
      (lit "approval_mode", .str (lit "required")),
      (lit "redacted_input_summary", .str call.summary),
      (lit "input_hash", .str call.inputHash)] ++
    optionalField "spend_cents" (call.spendCents.map .num) ++
    [(lit "idempotency_key", nullable call.key),
      (lit "approval_reason", .str duplicateReason)] ++
    optionalField "duplicate_of" (duplicateOf.map .str))

def verdictText : Verdict → Str
  | .allowed => lit "allowed"
  | .denied => lit "denied"

/-- `allowedFields`, which a denied decision has too. -/
def allowedFields (call : Call) (decision : ApprovalDecision) (stamp : Stamp) (previousHash : Option Str) : Record :=
  Members.ofPairs ((lit "parameter_retention", parameterRetention call.redacted) ::
    callFields call stamp "decision" previousHash ++
    [(lit "decision", .str (verdictText decision.decision)),
      (lit "risk", .str call.risk),
      (lit "approval_mode", .str (lit "required")),
      (lit "redacted_input_summary", .str call.summary),
      (lit "input_hash", .str call.inputHash)] ++
    optionalField "spend_cents" (call.spendCents.map .num) ++
    [(lit "approval_reason", .str (scrubText decision.reason call.removed call.patterns 300))] ++
    optionalField "approved_by" (decision.approvedBy.map (fun name => .str (scrubText name call.removed call.patterns 120))) ++
    optionalField "idempotency_key" (call.key.map .str) ++
    optionalField "dry_run" (if call.dryRun then some (.bool true) else none))

/-- How `fn` has settled: resolved, with the type, the hash and the receipt of its result as far as they are recorded,
or rejected, with the name of the cause and its text. -/
inductive Ending where
  | resolved (type : Str) (outputHash : Option Str) (receipt : Option Json)
  | rejected (exceptionType message : Str)

def Ending.status : Ending → Str
  | .resolved .. => lit "succeeded"
  | .rejected .. => lit "failed"

def Ending.fields (call : Call) : Ending → List (Str × Json)
  | .resolved type outputHash receipt =>
      [(lit "observed_result_type", .str type)] ++ optionalField "redacted_output_hash" (outputHash.map .str) ++
        optionalField "receipt" receipt
  | .rejected exceptionType message =>
      [(lit "observed_result_type", .null), (lit "exception_type", .str exceptionType),
        (lit "sanitized_error_summary", .str (scrubText message call.removed call.patterns 300))]

/-- The event of an outcome. -/
def outcomeFields (call : Call) (decisionId : Str) (ending : Ending) (stamp : Stamp) (previousHash : Option Str) : Record :=
  Members.ofPairs (callFields call stamp "outcome" previousHash ++
    [(lit "status", .str ending.status), (lit "decision_event_id", .str decisionId)] ++ ending.fields call)

/-- `finalizeEvent`; none where `canonical` throws or signing fails. -/
def finalizeEvent (sha256 : Bytes → Bytes) (identity : SigningIdentity) (payload : Record) : Option Record :=
  (eventDigest sha256 payload).bind (fun digest => (identity.sign digest).map (fun signature => finalized payload digest signature))

/-! ## Steps -/

/-- How far an append has come: it reads the tail, its event is built and signed, and the line is written. -/
inductive Stage where
  | reading
  | building (previousHash : Option Str)
  | writing (event : Record)

/-- Where a call is. From the approval on it has the id of its decision. -/
inductive Phase where
  | checking
  | scanning
  /-- A duplicate is recorded before the approval. -/
  | refusing (duplicateOf : Option Str) (stage : Stage)
  | asking
  /-- Waiting for the permit. -/
  | waiting (decision : ApprovalDecision) (stamp : Stamp)
  | rechecking (decision : ApprovalDecision) (stamp : Stamp)
  | rescanning (decision : ApprovalDecision) (stamp : Stamp)
  /-- Under the permit, the decision is appended, or that of a duplicate. -/
  | reserving (decision : ApprovalDecision) (stamp : Stamp) (duplicateOf : Option (Option Str)) (stage : Stage)
  | reserved (decision : ApprovalDecision) (stamp : Stamp) (duplicateOf : Option (Option Str))
  /-- `fn` runs. -/
  | running (decisionId : Str)
  | recording (decisionId : Str) (ending : Ending) (stage : Stage)
  | marking

/-- Whether the call has the permit of the journal. -/
def Phase.holds : Phase → Bool
  | .rechecking .. | .rescanning .. | .reserving .. | .reserved .. => true
  | _ => false

/-- The journal's file, the completions and the permit of its mutex, and the calls in progress. -/
structure System where
  content : Bytes
  completed : List Str
  permit : Option Nat
  fibers : Nat → Option (Call × Phase)

inductive Move where
  | next
  | approve (decision : ApprovalDecision) (stamp : Stamp)
  | build (stamp : Stamp)
  | settle (ending : Ending)
  /-- The write succeeds, and what follows it fails. -/
  | unflushed
  /-- The next step fails, or the fiber is interrupted. -/
  | fail

/-- What a step leaves; no phase where the call has ended. -/
structure Outcome where
  content : Bytes
  completed : List Str
  permit : Option Nat
  phase : Option Phase

/-- What becomes of an append. -/
inductive Appending where
  | at (stage : Stage)
  | wrote (content : Bytes)
  | raised (content : Bytes)

section Steps

variable (engine : Engine) (sha256 : Bytes → Bytes)

/-- A step of `appendEvent`. -/
def appendStep (identity : SigningIdentity) (payload : Stamp → Option Str → Record) (content : Bytes) :
    Stage → Move → Option Appending
  | .reading, .next =>
      match readLastEventHash engine content with
      | .error _ => some (.raised content)
      | .ok previousHash => some (.at (.building previousHash))
  | .building previousHash, .build stamp =>
      match finalizeEvent sha256 identity (payload stamp previousHash) with
      | none => some (.raised content)
      | some event => some (.at (.writing event))
  | .writing event, .next =>
      match canonical (.obj event) with
      | none => some (.raised content)
      | some line => some (.wrote (written content line))
  | .writing event, .unflushed => (canonical (.obj event)).map (fun line => .raised (written content line))
  | _, .fail => some (.raised content)
  | _, _ => none

/-- What a look for an earlier decision finds: it throws, there is none, or the call is a duplicate. -/
def look (call : Call) (content : Bytes) : Option (Option (Option Str)) :=
  match call.key with
  | none => some none
  | some key => (scanBlocking engine content call.action key).map (fun blocking => blocking.map idOf)

def isCompleted (call : Call) (completed : List Str) : Bool :=
  call.key.any (fun key => completed.contains (registryKey call.action key))

/-- The next step of a call. -/
def advance (system : System) (fiber : Nat) (call : Call) (phase : Phase) (move : Move) : Option Outcome :=
  let released := if phase.holds then none else system.permit
  let goto := fun next => some (Outcome.mk system.content system.completed system.permit (some next))
  let ends := some (Outcome.mk system.content system.completed released none)
  let append := fun (payload : Stamp → Option Str → Record) (stage : Stage) (again : Stage → Phase) (after : Option Phase) =>
    (appendStep engine sha256 call.identity payload system.content stage move).map (fun
      | .at stage => Outcome.mk system.content system.completed system.permit (some (again stage))
      | .wrote content => ⟨content, system.completed, if after.isNone then released else system.permit, after⟩
      | .raised content => ⟨content, system.completed, released, none⟩)
  match phase, move with
  | .checking, .next => goto (if isCompleted call system.completed then .refusing none .reading else .scanning)
  | .scanning, .next =>
      match look engine call system.content with
      | none => ends
      | some none => goto .asking
      | some (some duplicateOf) => goto (.refusing duplicateOf .reading)
  | .refusing duplicateOf stage, _ => append (duplicateDecision call duplicateOf) stage (.refusing duplicateOf) none
  | .asking, .approve decision stamp => goto (.waiting decision stamp)
  | .waiting decision stamp, .next =>
      if system.permit = none then
        some ⟨system.content, system.completed, some fiber, some (.rechecking decision stamp)⟩
      else none
  | .rechecking decision stamp, .next =>
      goto (if isCompleted call system.completed then .reserving decision stamp (some none) .reading
        else .rescanning decision stamp)
  | .rescanning decision stamp, .next =>
      match look engine call system.content with
      | none => ends
      | some duplicateOf => goto (.reserving decision stamp duplicateOf .reading)
  | .reserving decision stamp (some duplicateOf) stage, _ =>
      append (duplicateDecision call duplicateOf) stage (.reserving decision stamp (some duplicateOf))
        (some (.reserved decision stamp (some duplicateOf)))
  | .reserving decision stamp none stage, _ =>
      append (fun _ => allowedFields call decision stamp) stage (.reserving decision stamp none)
        (some (.reserved decision stamp none))
  | .reserved decision stamp duplicateOf, .next =>
      let goes := duplicateOf.isNone && decision.allowed && !call.dryRun
      some ⟨system.content, system.completed, none, if goes then some (.running stamp.eventId) else none⟩
  | .running decisionId, .settle ending => goto (.recording decisionId ending .reading)
  | .recording decisionId ending stage, _ =>
      append (outcomeFields call decisionId ending) stage (.recording decisionId ending)
        (if ending.status = lit "succeeded" ∧ call.key.isSome then some .marking else none)
  | .marking, .next =>
      some ⟨system.content, call.key.toList.map (registryKey call.action) ++ system.completed, system.permit, none⟩
  | _, .fail => ends
  | _, _ => none

/-- What happens next, in any order. -/
inductive Action where
  | guard (fiber : Nat) (options : GuardOptions)
  | act (fiber : Nat) (move : Move)
  /-- Another program appends a line. -/
  | append (line : Str)
  /-- `forgetJournal`. -/
  | forget
  /-- The process ends, and another begins. -/
  | restart

def System.commit (system : System) (fiber : Nat) (call : Call) (outcome : Outcome) : System :=
  ⟨outcome.content, outcome.completed, outcome.permit,
    Function.update system.fibers fiber (outcome.phase.map (fun phase => (call, phase)))⟩

def step (system : System) : Action → Option System
  | .guard fiber options =>
      match system.fibers fiber with
      | some _ => none
      | none =>
          let entry := (prepare sha256 options).map (fun call => (call, Phase.checking))
          some { system with fibers := Function.update system.fibers fiber entry }
  | .act fiber move =>
      (system.fibers fiber).bind (fun entry =>
        (advance engine sha256 system fiber entry.1 entry.2 move).map (system.commit fiber entry.1))
  | .append line => some { system with content := written system.content line }
  | .forget => some { system with completed := [] }
  | .restart => some ⟨system.content, [], none, fun _ => none⟩

end Steps

/-- No calls are in progress. -/
def System.start (content : Bytes) : System := ⟨content, [], none, fun _ => none⟩

end Tesera.TypeScript.Guard
