import Tesera.Engine.Execution

/-!
What one guarded call does, in order: the target is called at most once and only after the decision
that allows it has been appended, and its end is settled by an outcome or by an error that says that
it has run.
-/

namespace Tesera.Engine.Ordering
open Tesera.Text Tesera.Text.Unicode Tesera.Python.Value Tesera.Canonical Tesera.Effects Tesera.Logs
open Tesera.Journal.Payloads Tesera.Redaction.Evidence Tesera.Redaction.Scrubbing Tesera.Approval Tesera.Engine.Events
open Tesera.Journal.Idempotency (isEvent)
open Tesera.Redaction.Traversal (Settings WalkError canonicalize)
open Tesera.Engine.Execution

/-! ## What each part adds to the log -/

section Parts

variable {σ : Type} {env : Environment σ}

theorem silent_suppress {α : Type} {call : Step σ α} {default : α} (silent : Silent call) :
    Silent (suppress call default) := by
  apply silent_bind (silent_attempt silent)
  intro result
  cases result with
  | ok value => exact silent_pure
  | error raised => exact silent_ite (fun _ => silent_pure) (fun _ => silent_raise)

theorem silent_extractReceipt {receiptFrom : Option (Object → Outer σ Object)} {result : Object} :
    Silent (extractReceipt env receiptFrom result) := by
  cases receiptFrom with
  | none => exact silent_pure
  | some extract =>
    apply silent_bind (silent_suppress silent_outside)
    intro receipt
    cases receipt <;> first | exact silent_pure | exact silent_lift

theorem silent_endingOf {guarded : Guarded σ} {removed : List Str} {result : Except Raised Object} :
    Silent (endingOf env guarded removed result) := by
  cases result with
  | ok value =>
    apply silent_bind silent_lift
    intro outputHash
    exact silent_bind silent_extractReceipt (fun _ => silent_pure)
  | error raised => exact silent_bind silent_lift (fun _ => silent_pure)

/-- The event is a record of the action with some id and on some previous hash. -/
def Records (env : Environment σ) (signer : Signer) (contract : ActionContract) (type : String) (extra event : Dict) : Prop :=
  ∃ stamp previous, buildEvent env.host signer stamp contract type extra previous = .ok event

/-- The call that the engine makes of the arguments and of what it has resolved. -/
structure Knows (env : Environment σ) (guarded : Guarded σ) (signer : Signer) (arguments : List (Str × Object))
    (removed : List Str) (call : Call) : Prop where
  canonical : ∃ canonical evidence, canonicalize env.settings (.dict (lit "builtins.dict") arguments) = .ok (canonical, removed) ∧
    evidenceOf env.host canonical = .ok evidence ∧ call.inputHash = evidence.inputHash ∧
      call.inputSummary = evidence.redactedInputSummary ∧ call.retention = evidence.parameterRetention
  contract : call.contract = guarded.contract
  signer : call.signer = signer
  dryRun : call.dryRun = guarded.dryRun
  metadata : call.metadata = guarded.canonicalMetadata

/-- What a call has done when it goes on to its target, or returns for a dry run: it has bound its
arguments, loaded its identity, been allowed, and appended its decision. -/
structure Allowed (env : Environment σ) (guarded : Guarded σ) (prepared : Prepared σ) (acts : List Act) : Prop where
  trace : ∃ arguments call reason approvedBy,
    acts = [.bound arguments, .identified prepared.signer,
      .answered (requestOf call) (.decision (lit "allowed") reason approvedBy), .appended prepared.event] ∧
    Knows env guarded prepared.signer arguments prepared.redactedValues call ∧
    Records env prepared.signer guarded.contract "decision" (allowedExtra call ⟨.allowed, reason, approvedBy⟩) prepared.event
  dryRun : prepared.isDryRun = guarded.dryRun

def statusOf : Except Raised Object → Str
  | .ok _ => lit "succeeded"
  | .error _ => lit "failed"

/-- What is raised outside of the handlers: nothing can be recorded of a result whose `str()` raises
where it has to be compared with what was removed, nor of one that `str()` raises for inside or
whose canonical form has no bytes, nor of such a receipt, nor of an exception whose `str()`
raises. -/
inductive Unrecordable (env : Environment σ) (guarded : Guarded σ) (prepared : Prepared σ) : Except Raised Object → Raised → Prop where
  | printed {value : Object} : prepared.redactedValues ≠ [] → strOf env value = .error env.strError →
      Unrecordable env guarded prepared (.ok value) env.strError
  | removed {value : Object} : canonicalize env.settings value = .error .raised →
      Unrecordable env guarded prepared (.ok value) env.strError
  | encoded {value : Object} {canonical : Json} {removed : List Str} {error : PyError} :
      canonicalize env.settings value = .ok (canonical, removed) → canonicalJsonBytes env.host canonical = .error error →
      error ≠ .canonicalizationError → Unrecordable env guarded prepared (.ok value) (Raised.ofPyError error)
  | receiptRemoved {value receipt : Object} : guarded.receiptFrom.isSome → canonicalize env.settings receipt = .error .raised →
      Unrecordable env guarded prepared (.ok value) env.strError
  | receiptEncoded {value receipt : Object} {canonical : Json} {removed : List Str} {error : PyError} :
      guarded.receiptFrom.isSome → canonicalize env.settings receipt = .ok (canonical, removed) →
      dumpsSpaced env.host canonical = .error error → error ≠ .canonicalizationError →
      Unrecordable env guarded prepared (.ok value) (Raised.ofPyError error)
  | message {raised : Raised} : raised.text = none → Unrecordable env guarded prepared (.error raised) env.strError

/-- An outcome event of a call: it names the decision, and its status is that of the end. -/
structure OutcomeOf (env : Environment σ) (guarded : Guarded σ) (prepared : Prepared σ) (result : Except Raised Object)
    (event : Dict) : Prop where
  isOutcome : isEvent "outcome" event = true
  names : get event "decision_event_id" = get prepared.event "event_id"
  status : get event "status" = .str (statusOf result)
  signed : ∃ payload, finalizeEvent env.host payload prepared.signer.sign = .ok event

/-- Nothing is appended, or the outcome is. -/
def AtMostOutcome (env : Environment σ) (guarded : Guarded σ) (prepared : Prepared σ) (result : Except Raised Object)
    (acts : List Act) : Prop :=
  acts = [] ∨ ∃ outcome, acts = [.appended outcome] ∧ OutcomeOf env guarded prepared result outcome

/-- What the errors of the engine say of a target that has run. -/
def executedOf (guarded : Guarded σ) (prepared : Prepared σ) (result : Except Raised Object) : Executed :=
  ⟨get prepared.event "event_id", guarded.contract.actionId, statusOf result, carried result⟩

/-- How the record of an outcome fails. -/
inductive Unrecorded (env : Environment σ) (guarded : Guarded σ) (prepared : Prepared σ) (result : Except Raised Object) :
    List Act → Raised → Prop where
  /-- An error that says that the target has run, with its decision. -/
  | reported {acts : List Act} {raised : Raised} : AtMostOutcome env guarded prepared result acts →
      raised.kind = .completed (executedOf guarded prepared result) ∨
        raised.kind = .shipped (some (executedOf guarded prepared result)) →
      Unrecorded env guarded prepared result acts raised
  /-- The process is interrupted. -/
  | interrupted {acts : List Act} {raised : Raised} : AtMostOutcome env guarded prepared result acts →
      raised.isException = false → Unrecorded env guarded prepared result acts raised
  /-- The evidence cannot be made. -/
  | unrecordable {raised : Raised} : Unrecordable env guarded prepared result raised →
      Unrecorded env guarded prepared result [] raised
  /-- A sink has failed, and the `str()` of its error raises. -/
  | unprinted {acts : List Act} {raised : Raised} : AtMostOutcome env guarded prepared result acts → raised.isShip = true →
      raised.text = none → Unrecorded env guarded prepared result acts env.strError

/-- What the acts after the call of the target are, and what the caller gets. -/
inductive Settles (env : Environment σ) (guarded : Guarded σ) (prepared : Prepared σ) :
    Except Raised Object → List Act → Except Raised Object → Prop where
  /-- What is no `Exception` goes through, with nothing recorded. -/
  | stopped {raised : Raised} : raised.isException = false →
      Settles env guarded prepared (.error raised) [] (.error raised)
  /-- One outcome is recorded, and the caller gets what the target has returned or raised. -/
  | recorded {result : Except Raised Object} {outcome : Dict} : (∀ raised, result = .error raised → raised.isException = true) →
      OutcomeOf env guarded prepared result outcome → Settles env guarded prepared result [.appended outcome] result
  | unrecorded {result : Except Raised Object} {acts : List Act} {raised : Raised} :
      (∀ raised, result = .error raised → raised.isException = true) → Unrecorded env guarded prepared result acts raised →
      Settles env guarded prepared result acts (.error raised)

/-- What an appended decision says of the call: it is signed, allowed and no dry run, and it is about
the action, the contract and the arguments of the call. -/
structure Authorizes (env : Environment σ) (guarded : Guarded σ) (signer : Signer) (call : Call) (event : Dict) : Prop where
  isDecision : isEvent "decision" event = true
  allowed : get event "decision" = .str (lit "allowed")
  wet : get event "dry_run" = .null
  action : get event "action_id" = .str guarded.contract.actionId ∧ get event "action_name" = .str guarded.contract.actionName
  contract : get event "contract_hash" = .str guarded.contract.contractHash
  input : get event "input_hash" = .str call.inputHash
  signed : ∃ payload, finalizeEvent env.host payload signer.sign = .ok event

end Parts

end Tesera.Engine.Ordering
