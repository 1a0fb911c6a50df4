import Tesera.Approval.Server
import Tesera.Journal.Idempotency
import Tesera.Journal.Payloads
import Tesera.Redaction.Evidence

/-!
The events of a guarded call: the decision it is allowed or denied by, the denied decision of a
duplicate, and its outcome. Each is a record of the action with fields of its own.
-/

namespace Tesera.Engine.Events
open Tesera.Text Tesera.Text.Unicode Tesera.Python.Value Tesera.Canonical
open Tesera.Journal.Payloads Tesera.Journal.Idempotency
open Tesera.Redaction.Evidence Tesera.Redaction.Scrubbing Tesera.Approval

/-- What `_prepare_execution` knows of a call before the approval: the contract and the key it
signs with, what it has made of the arguments, and how texts are scrubbed of them. -/
structure Call where
  contract : ActionContract
  signer : Signer
  inputHash : Str
  inputSummary : Str
  retention : List (Str × Retention)
  resolvedKey : Option Str
  spendCents : Option Nat
  dryRun : Bool
  metadata : Option Json
  raws : List Str
  patterns : List (Str → Str)

def Retention.name : Retention → String
  | .redacted => "redacted"
  | .unsupported => "unsupported"
  | .retained => "retained"

def retentionJson (retention : List (Str × Retention)) : Json :=
  .list (retention.map (fun p => .dict [(lit "name", .str p.1), (lit "state", .str (lit (Retention.name p.2)))]))

/-- A field that is there when it has a value. -/
def optional (field : String) (value : Option Json) : Dict := value.toList.map (fun v => (lit field, v))

/-- `_duplicate_extra`. -/
def duplicateExtra (call : Call) (prior : Option Str) : Dict :=
  [(lit "decision", .str (lit "denied")),
    (lit "risk", .str call.contract.risk),
    (lit "approval_mode", .str call.contract.approvalMode),
    (lit "redacted_input_summary", .str call.inputSummary),
    (lit "parameter_retention", retentionJson call.retention),
    (lit "input_hash", .str call.inputHash),
    (lit "idempotency_key", linkOf call.resolvedKey),
    (lit "approval_reason", .str (lit "duplicate idempotency key; already reserved or completed"))] ++
    (optional "spend_cents" (call.spendCents.map (fun cents : Nat => .int cents)) ++
      (optional "duplicate_of" (prior.map .str) ++ optional "metadata" call.metadata))

def verdictText : Verdict → Str
  | .allowed => lit "allowed"
  | .denied => lit "denied"

/-- `approved_by` where it is a text that is not empty. -/
def approver (call : Call) (decision : ApprovalDecision) : Option Json :=
  (decision.approvedBy.filter (fun name => !name.isEmpty)).map
    (fun name => .str (scrubTextTo 120 call.raws call.patterns name))

/-- `_allowed_extra`, which a denied decision has too. -/
def allowedExtra (call : Call) (decision : ApprovalDecision) : Dict :=
  [(lit "decision", .str (verdictText decision.decision)),
    (lit "risk", .str call.contract.risk),
    (lit "approval_mode", .str call.contract.approvalMode),
    (lit "redacted_input_summary", .str call.inputSummary),
    (lit "parameter_retention", retentionJson call.retention),
    (lit "input_hash", .str call.inputHash),
    (lit "approval_reason", .str (scrubText call.raws call.patterns decision.reason))] ++
    (optional "approved_by" (approver call decision) ++
      (optional "idempotency_key" (call.resolvedKey.map .str) ++
        (optional "spend_cents" (call.spendCents.map (fun cents : Nat => .int cents)) ++
          (optional "dry_run" (if call.dryRun then some (.bool true) else none) ++ optional "metadata" call.metadata))))

/-- `build` of `_append_event`. -/
def buildEvent (host : Host) (signer : Signer) (stamp : Stamp) (contract : ActionContract) (type : String)
    (extra : Dict) (previous : Option Str) : Except PyError Dict :=
  finalizeEvent host (recordPayload signer stamp contract type previous extra) signer.sign

/-- `_build_atomic`; the call is known to be completed in this process, or a decision blocks. -/
def buildAtomic (host : Host) (call : Call) (decision : ApprovalDecision) (stamp : Stamp) (completed : Bool)
    (previous blocking : Option Str) : Except PyError Dict :=
  if blocking.isSome || completed then
    buildEvent host call.signer stamp call.contract "decision" (duplicateExtra call blocking) previous
  else buildEvent host call.signer stamp call.contract "decision" (allowedExtra call decision) previous

/-- How the target has ended: with a result, of which its type, its hash and a receipt are
recorded, or with an exception, of which its type and a scrubbed text are. -/
inductive Ending where
  | returned (type : Str) (outputHash : Option Str) (receipt : Option Json)
  | raised (type summary : Str)

def Ending.status : Ending → Str
  | .returned .. => lit "succeeded"
  | .raised .. => lit "failed"

def Ending.fields : Ending → Dict
  | .returned type outputHash receipt =>
      [(lit "observed_result_type", .str type)] ++
        (optional "redacted_output_hash" (outputHash.map .str) ++ optional "receipt" receipt)
  | .raised type summary =>
      [(lit "observed_result_type", .null), (lit "exception_type", .str type),
        (lit "sanitized_error_summary", .str summary)]

/-- The fields of `_record_outcome_or_raise`. -/
def outcomeExtra (decisionId : Json) (ending : Ending) : Dict :=
  [(lit "status", .str ending.status), (lit "decision_event_id", decisionId)] ++ ending.fields

/-! ## What the records hold -/

theorem get_update (payload extra : Dict) (key : Str) :
    Members.get (update payload extra) key = (Members.last extra key).or (Members.get payload key) := by
  unfold update
  induction extra generalizing payload with
  | nil => rfl
  | cons p extra ih =>
    rw [List.foldl_cons, ih, Members.last, Option.or_assoc]
    by_cases same : p.1 = key
    · rw [if_pos same, ← same, Members.get_put_self]
      rfl
    · rw [if_neg same, Members.get_put_of_ne (Ne.symm same)]
      rfl

theorem last_append (first second : Dict) (key : Str) :
    Members.last (first ++ second) key = (Members.last second key).or (Members.last first key) := by
  induction first with
  | nil => rw [List.nil_append, Members.last, Option.or_none]
  | cons p first ih => rw [List.cons_append, Members.last, ih, Members.last, Option.or_assoc]

theorem last_optional (field : String) (value : Option Json) (key : Str) :
    Members.last (optional field value) key = if lit field = key then value else none := by
  cases value with
  | none =>
    rw [ite_self]
    rfl
  | some v => simp [optional, Members.last]

/-- The parts of an event that `finalize_event` does not add are those of its payload. -/
theorem get_finalized {host : Host} {payload event : Dict} {sign : Bytes → Except PyError Str} {field : String}
    (final : finalizeEvent host payload sign = .ok event) (notHash : field ≠ "event_hash")
    (notSignature : field ≠ "signature") : get event field = get payload field := by
  obtain ⟨digest, signature, -, -, rfl⟩ := finalizeEvent_eq_ok.mp final
  rw [Python.Value.get, Members.get_put_of_ne, Members.get_put_of_ne, Python.Value.get]
  · simpa using notHash
  · simpa using notSignature

theorem dictOk_finalized {host : Host} {payload event : Dict} {sign : Bytes → Except PyError Str}
    (final : finalizeEvent host payload sign = .ok event) (ok : DictOk host payload) : DictOk host event := by
  obtain ⟨digest, signature, -, -, rfl⟩ := finalizeEvent_eq_ok.mp final
  exact dictOk_put (dictOk_put ok _ (by simp [Json.Ok])) _ (by simp [Json.Ok])

section Records

variable {host : Host} {signer : Signer} {stamp : Stamp} {contract : ActionContract} {type : String} {extra event : Dict}
  {previous blocking : Option Str} {call : Call} {decision : ApprovalDecision} {completed : Bool}

/-- A field of a record is the one given for its type, or else the one every record has. -/
theorem get_built {field : String} (built : buildEvent host signer stamp contract type extra previous = .ok event)
    (notHash : field ≠ "event_hash") (notSignature : field ≠ "signature") :
    get event field = ((Members.last extra (lit field)).or
      (Members.get (recordPayload signer stamp contract type previous []) (lit field))).getD .null := by
  rw [get_finalized built notHash notSignature, Python.Value.get, recordPayload, get_update]
  rfl

/-- The type and the id of a record whose own fields are others. -/
theorem record_type (built : buildEvent host signer stamp contract type extra previous = .ok event)
    (apart : Members.last extra (lit "event_type") = none) : get event "event_type" = .str (lit type) := by
  rw [get_built built (by decide) (by decide), apart]
  simp [recordPayload, update, Members.get]

theorem record_id (built : buildEvent host signer stamp contract type extra previous = .ok event)
    (apart : Members.last extra (lit "event_id") = none) : idOf event = some stamp.eventId := by
  rw [idOf, get_built built (by decide) (by decide), apart]
  simp [recordPayload, update, Members.get, asStr]

theorem record_action (built : buildEvent host signer stamp contract type extra previous = .ok event)
    (apart : Members.last extra (lit "action_name") = none) : get event "action_name" = .str contract.actionName := by
  rw [get_built built (by decide) (by decide), apart]
  simp [recordPayload, update, Members.get]

/-- An allowed or denied decision, as the index reads it. -/
structure Decides (call : Call) (stamp : Stamp) (verdict : Verdict) (dryRun : Bool) (event : Dict) : Prop where
  decision : isEvent "decision" event = true
  named : idOf event = some stamp.eventId
  action : asStr (get event "action_name") = some call.contract.actionName
  verdict : asStr (get event "decision") = some (verdictText verdict)
  dry : get event "dry_run" = if dryRun then .bool true else .null
  key : asStr (get event "idempotency_key") = call.resolvedKey

theorem decides_allowed
    (built : buildEvent host call.signer stamp call.contract "decision" (allowedExtra call decision) previous = .ok event) :
    Decides call stamp decision.decision call.dryRun event := by
  constructor
  · rw [isEvent, record_type built (by simp [allowedExtra, last_append, last_optional, Members.last])]
    simp [asStr]
  · exact record_id built (by simp [allowedExtra, last_append, last_optional, Members.last])
  · rw [record_action built (by simp [allowedExtra, last_append, last_optional, Members.last])]
    rfl
  · rw [get_built built (by decide) (by decide)]
    simp [allowedExtra, last_append, last_optional, Members.last, asStr]
  · rw [get_built built (by decide) (by decide)]
    cases dry : call.dryRun <;>
      simp [allowedExtra, last_append, last_optional, Members.last, recordPayload, update, Members.get, dry]
  · rw [get_built built (by decide) (by decide)]
    cases keyed : call.resolvedKey <;>
      simp [allowedExtra, last_append, last_optional, Members.last, recordPayload, update, Members.get, keyed, asStr]

theorem decides_duplicate {prior : Option Str}
    (built : buildEvent host call.signer stamp call.contract "decision" (duplicateExtra call prior) previous = .ok event) :
    Decides call stamp .denied false event := by
  constructor
  · rw [isEvent, record_type built (by simp [duplicateExtra, last_append, last_optional, Members.last])]
    simp [asStr]
  · exact record_id built (by simp [duplicateExtra, last_append, last_optional, Members.last])
  · rw [record_action built (by simp [duplicateExtra, last_append, last_optional, Members.last])]
    rfl
  · rw [get_built built (by decide) (by decide)]
    simp [duplicateExtra, last_append, last_optional, Members.last, asStr, verdictText]
  · rw [get_built built (by decide) (by decide)]
    simp [duplicateExtra, last_append, last_optional, Members.last, recordPayload, update, Members.get]
  · rw [get_built built (by decide) (by decide)]
    cases keyed : call.resolvedKey <;>
      simp [duplicateExtra, last_append, last_optional, Members.last, keyed, asStr, linkOf]

/-- A decision reserves a key exactly when it is allowed, is no dry run and has the key. -/
theorem Decides.matchesKey_iff {verdict : Verdict} {dryRun : Bool} {action key : Str}
    (decides : Decides call stamp verdict dryRun event) : matchesKey action key event = true ↔
      verdict = .allowed ∧ dryRun = false ∧ call.contract.actionName = action ∧ call.resolvedKey = some key := by
  have allowed : (some (verdictText verdict) == some (lit "allowed")) = decide (verdict = .allowed) := by
    cases verdict <;> decide
  rw [matchesKey, mayBlock, decides.verdict, decides.dry, decides.action, decides.key, allowed]
  cases dryRun <;> simp [and_assoc]

theorem outcome_type {id : Json} {ending : Ending}
    (built : buildEvent host signer stamp contract "outcome" (outcomeExtra id ending) previous = .ok event) :
    isEvent "outcome" event = true := by
  rw [isEvent, record_type built]
  · simp [asStr]
  · cases ending <;> simp [outcomeExtra, Ending.fields, last_append, last_optional, Members.last]

theorem outcome_ref {id : Json} {ending : Ending}
    (built : buildEvent host signer stamp contract "outcome" (outcomeExtra id ending) previous = .ok event) :
    get event "decision_event_id" = id := by
  rw [get_built built (by decide) (by decide)]
  cases ending <;> simp [outcomeExtra, Ending.fields, last_append, last_optional, Members.last]

theorem outcome_status {id : Json} {ending : Ending}
    (built : buildEvent host signer stamp contract "outcome" (outcomeExtra id ending) previous = .ok event) :
    get event "status" = .str ending.status := by
  rw [get_built built (by decide) (by decide)]
  cases ending <;> simp [outcomeExtra, Ending.fields, Ending.status, last_append, last_optional, Members.last]

/-- Fields whose values are well formed. -/
def ValuesOk (host : Host) (fields : Dict) : Prop := ∀ p ∈ fields, p.2.Ok host

theorem ValuesOk.append {first second : Dict} (left : ValuesOk host first) (right : ValuesOk host second) :
    ValuesOk host (first ++ second) := by
  intro p member
  exact (List.mem_append.mp member).elim (left p) (right p)

theorem valuesOk_optional {field : String} {value : Option Json} (ok : ∀ v ∈ value, v.Ok host) :
    ValuesOk host (optional field value) := by
  intro p member
  obtain ⟨v, inside, rfl⟩ := List.mem_map.mp member
  exact ok v (Option.mem_toList.mp inside)

theorem valuesOk_optional_map {α : Type} {field : String} {value : Option α} {f : α → Json}
    (ok : ∀ a, (f a).Ok host) : ValuesOk host (optional field (value.map f)) := by
  apply valuesOk_optional
  intro v found
  obtain ⟨a, -, rfl⟩ := Option.map_eq_some_iff.mp found
  exact ok a

theorem ok_retentionJson (retention : List (Str × Retention)) : (retentionJson retention).Ok host := by
  rw [retentionJson, Json.Ok, itemsOk_iff]
  intro value member
  obtain ⟨p, -, rfl⟩ := List.mem_map.mp member
  apply dictOk_of_keys
  · simp only [List.map_cons, List.map_nil]
    decide
  · simp [Json.Ok]

/-- The fields of a decision are well formed when the metadata are. -/
theorem valuesOk_allowedExtra (metadata : ∀ v ∈ call.metadata, v.Ok host) :
    ValuesOk host (allowedExtra call decision) := by
  have retained := @ok_retentionJson host call.retention
  have dry : ValuesOk host (optional "dry_run" (if call.dryRun then some (.bool true) else none)) := by
    apply valuesOk_optional
    intro v found
    by_cases isDry : call.dryRun = true
    · rw [if_pos isDry] at found
      cases found
      trivial
    · rw [if_neg isDry] at found
      cases found
  apply ValuesOk.append
  · simp [ValuesOk, Json.Ok, retained]
  · apply ValuesOk.append (valuesOk_optional_map (fun _ => by trivial))
    apply ValuesOk.append (valuesOk_optional_map (fun _ => by trivial))
    apply ValuesOk.append (valuesOk_optional_map (fun _ => by trivial))
    exact dry.append (valuesOk_optional metadata)

theorem valuesOk_duplicateExtra {prior : Option Str} (metadata : ∀ v ∈ call.metadata, v.Ok host) :
    ValuesOk host (duplicateExtra call prior) := by
  have retained := @ok_retentionJson host call.retention
  have keyed := ok_linkOf host call.resolvedKey
  apply ValuesOk.append
  · simp [ValuesOk, Json.Ok, retained, keyed]
  · apply ValuesOk.append (valuesOk_optional_map (fun _ => by trivial))
    exact ValuesOk.append (valuesOk_optional_map (fun _ => by trivial)) (valuesOk_optional metadata)

/-- The receipt that is recorded of an ending. -/
def Ending.receipt : Ending → Option Json
  | .returned _ _ receipt => receipt
  | .raised .. => none

/-- The fields of an outcome are well formed when the receipt is. -/
theorem valuesOk_outcomeExtra {id : Str} {ending : Ending} (receipt : ∀ v ∈ ending.receipt, v.Ok host) :
    ValuesOk host (outcomeExtra (.str id) ending) := by
  apply ValuesOk.append
  · simp [ValuesOk, Json.Ok]
  · cases ending with
    | returned type outputHash given =>
      apply ValuesOk.append
      · simp [ValuesOk, Json.Ok]
      · exact ValuesOk.append (valuesOk_optional_map (fun _ => by trivial)) (valuesOk_optional receipt)
    | raised type summary => simp [ValuesOk, Ending.fields, Json.Ok]

end Records

end Tesera.Engine.Events
