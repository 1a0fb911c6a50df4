import Tesera.Journal.Ordered
import Tesera.Verification.Journal

/-!
`audit_verified_snapshot`: what happened to each decision of a journal that verifies. A
first pass links outcomes and resolutions to decisions by the texts of their ids; two more
look for links that break a rule, and a last one classifies the decisions.
-/

namespace Tesera.Audit.Report
open Tesera.Text Tesera.Text.Unicode Tesera.Python.Value
open Tesera.Journal.Idempotency Tesera.Verification.Journal

inductive InvocationStatus where
  | denied
  | succeeded
  | failed
  | needsReconciliation
  | dryRun
  | resolvedCompleted
  | resolvedNotCompleted
  deriving DecidableEq

structure AuditIssue where
  code : String
  message : String
  eventId : Str

structure AuditedInvocation where
  actionName : Str
  actionId : Str
  contractHash : Str
  inputHash : Str
  risk : Str
  approvalMode : Str
  decisionEventId : Str
  decision : Str
  decisionTimestamp : Str
  outcomeEventId : Option Str
  outcomeTimestamp : Option Str
  status : InvocationStatus

structure AuditReport where
  invocations : List AuditedInvocation
  issues : List AuditIssue

def AuditReport.structurallyValid (report : AuditReport) : Bool := report.issues.isEmpty

/-- An event with its index in the journal. -/
abbrev Entry := Dict × Nat

/-! ## Linking -/

/-- `str(event["event_id"])`, once the field is known to be there. -/
def idText (host : Host) (event : Dict) : Str := pyStr host (get event "event_id")

/-- `str(event["decision_event_id"])`, likewise. -/
def refText (host : Host) (event : Dict) : Str := pyStr host (get event "decision_event_id")

structure Links where
  issues : List AuditIssue
  decisions : Ordered Entry
  outcomes : Ordered (List Entry)
  resolutions : Ordered (List Entry)
  seen : List Str

def Links.empty : Links := ⟨[], [], [], [], []⟩

/-- Note the id of one more event. -/
def Links.note (links : Links) (id : Str) : Links :=
  { links with
    issues := links.issues ++
      (if links.seen.contains id then [⟨"duplicate_event_id", "event_id is not unique", id⟩] else [])
    seen := links.seen ++ [id] }

def linkEvent (host : Host) (links : Links) (entry : Entry) : Except PyError Links := do
  let id ← item entry.1 "event_id"
  let noted := links.note (pyStr host id)
  let _ ← item entry.1 "event_type"
  if isEvent "decision" entry.1 then
    return { noted with decisions := noted.decisions.setDefault (pyStr host id) entry }
  else if isEvent "outcome" entry.1 then do
    let ref ← item entry.1 "decision_event_id"
    return { noted with outcomes := Ordered.push noted.outcomes (pyStr host ref) entry }
  else if isEvent "resolution" entry.1 then do
    let ref ← item entry.1 "decision_event_id"
    return { noted with resolutions := Ordered.push noted.resolutions (pyStr host ref) entry }
  else return noted

/-- The links of a journal. -/
def linkEvents (host : Host) (events : List Dict) : Except PyError Links :=
  events.zipIdx.foldlM (linkEvent host) .empty

/-! ## Rules -/

/-- The issues found in one item after another. -/
def gather {α β : Type} (check : α → Except PyError (List β)) : List α → Except PyError (List β)
  | [] => .ok []
  | x :: xs => do
      let found ← check x
      let rest ← gather check xs
      return found ++ rest

def issueWhen (bad : Bool) (issue : AuditIssue) : List AuditIssue := if bad then [issue] else []

/-- `event.get(field) == text`. -/
def reads (event : Dict) (field text : String) : Bool := asStr (get event field) == some (lit text)

/-- `event.get(field) not in (first, second)`. -/
def neither (event : Dict) (field first second : String) : Bool :=
  !reads event field first && !reads event field second

/-- `str(resolution.get("resolution"))`. -/
def resolutionText (host : Host) (resolution : Dict) : Str := pyStr host (get resolution "resolution")

/-- `len(set(texts)) > 1`. -/
def disagree (texts : List Str) : Bool := decide (1 < texts.dedup.length)

/-- The pass over the resolutions of one decision id. -/
def resolutionIssues (host : Host) (decisions : Ordered Entry) (linked : Str × List Entry) :
    List AuditIssue :=
  let shown := host.repr (.str linked.1)
  match decisions.find linked.1 with
  | none => linked.2.map (fun entry => ⟨"orphan_resolution",
      s!"resolution references unknown decision_event_id {shown}", idText host entry.1⟩)
  | some decision =>
      issueWhen (disagree (linked.2.map (fun entry => resolutionText host entry.1)))
        ⟨"conflicting_resolution",
          "more than one resolution value recorded for the same decision; the latest wins", linked.1⟩ ++
      linked.2.flatMap (fun entry => issueWhen (decide (entry.2 ≤ decision.2))
        ⟨"resolution_before_decision", "resolution appears before the decision it references",
          idText host entry.1⟩)

/-- The fields an outcome repeats from its decision. -/
def identityFields : List String := ["action_id", "action_name", "contract_hash"]

def mismatchIssues (host : Host) (decision outcome : Dict) (field : String) :
    Except PyError (List AuditIssue) := do
  let mine ← item outcome field
  let theirs ← item decision field
  return issueWhen (!pyEq host mine theirs)
    ⟨"outcome_identity_mismatch", s!"outcome {field} does not match its decision", idText host outcome⟩

/-- The checks of one outcome against its decision. -/
def outcomeIssues (host : Host) (decision outcome : Entry) : Except PyError (List AuditIssue) := do
  let id := idText host outcome.1
  let _ ← item decision.1 "decision"
  let mismatches ← gather (mismatchIssues host decision.1 outcome.1) identityFields
  let status := host.repr (get outcome.1 "status")
  return issueWhen (decide (outcome.2 ≤ decision.2))
      ⟨"outcome_before_decision", "outcome appears before the decision it references", id⟩ ++
    issueWhen (!reads decision.1 "decision" "allowed")
      ⟨"outcome_for_denied_decision", "an outcome references a decision that was not allowed", id⟩ ++
    mismatches ++
    issueWhen (neither outcome.1 "status" "succeeded" "failed")
      ⟨"invalid_outcome_status", s!"unsupported outcome status {status}", id⟩

/-- The pass over the outcomes of one decision id. -/
def linkedOutcomeIssues (host : Host) (decisions : Ordered Entry) (linked : Str × List Entry) :
    Except PyError (List AuditIssue) :=
  let shown := host.repr (.str linked.1)
  match decisions.find linked.1 with
  | none => .ok (linked.2.map (fun entry => ⟨"orphan_outcome",
      s!"outcome references unknown decision_event_id {shown}", idText host entry.1⟩))
  | some decision => do
      let found ← gather (outcomeIssues host decision) linked.2
      return issueWhen (decide (1 < linked.2.length))
        ⟨"duplicate_outcome", "more than one outcome references the same decision", linked.1⟩ ++ found

/-! ## Classification -/

/-- `linked[0][1] if len(linked) == 1 else None`. -/
def onlyOutcome : List Entry → Option Dict
  | [entry] => some entry.1
  | _ => none

/-- The value of the latest resolution. -/
def resolutionValue (host : Host) (linked : List Entry) : Option Str :=
  linked.getLast?.map (fun entry => resolutionText host entry.1)

def isDryRun (decision : Dict) : Bool := get decision "dry_run" matches .bool true

/-- Whether a decision's only outcome is a success. -/
def onlySucceeded (linked : List Entry) : Bool :=
  (onlyOutcome linked).any (fun outcome => reads outcome "status" "succeeded")

/-- The status of a decision with its outcomes and the value of its latest resolution. -/
def statusOf (decision : Dict) (linked : List Entry) (resolution : Option Str) : InvocationStatus :=
  let allowed := reads decision "decision" "allowed"
  let outcome := onlyOutcome linked
  if isDryRun decision && allowed && outcome.isNone then .dryRun
  else if reads decision "decision" "denied" && linked.isEmpty then .denied
  else if allowed && onlySucceeded linked && resolution.isNone then .succeeded
  -- a resolution does not clear a recorded success
  else if allowed && onlySucceeded linked then .needsReconciliation
  else if allowed && resolution == some (lit "confirmed_completed") then .resolvedCompleted
  else if allowed && resolution == some (lit "confirmed_not_completed") then .resolvedNotCompleted
  else if allowed && outcome.isSome then
    if outcome.any (fun outcome => reads outcome "status" "failed") then .failed else .needsReconciliation
  else .needsReconciliation

/-- A recorded success with a resolution. -/
def contradicted (decision : Dict) (linked : List Entry) (resolution : Option Str) : Bool :=
  reads decision "decision" "allowed" && onlySucceeded linked && resolution.isSome

/-- The action and key of a decision, where both are texts and the key is not empty. -/
def markerOf (decision : Dict) : Option (Str × Str) :=
  match asStr (get decision "action_name"), asStr (get decision "idempotency_key") with
  | some action, some key => if key = [] then none else some (action, key)
  | _, _ => none

/-- `str(event[field])`. -/
def fieldText (host : Host) (event : Dict) (field : String) : Except PyError Str :=
  (item event field).map (pyStr host)

def auditedInvocation (host : Host) (id : Str) (decision : Dict) (outcome : Option Dict)
    (status : InvocationStatus) : Except PyError AuditedInvocation := do
  let actionName ← fieldText host decision "action_name"
  let actionId ← fieldText host decision "action_id"
  let contractHash ← fieldText host decision "contract_hash"
  let inputHash ← fieldText host decision "input_hash"
  let risk ← fieldText host decision "risk"
  let approvalMode ← fieldText host decision "approval_mode"
  let timestamp ← fieldText host decision "timestamp_utc"
  let outcomeTimestamp ← outcome.elim (.ok none) (fun outcome =>
    (fieldText host outcome "timestamp_utc").map some)
  return {
    actionName, actionId, contractHash, inputHash, risk, approvalMode, status
    decisionEventId := id
    decision := pyStr host (get decision "decision")
    decisionTimestamp := timestamp
    outcomeEventId := outcome.map (idText host)
    outcomeTimestamp }

/-- The state of the last pass. -/
structure Pass where
  issues : List AuditIssue
  marked : List (Str × Str)
  invocations : List AuditedInvocation

def classify (host : Host) (links : Links) (pass : Pass) (listed : Str × Entry) : Except PyError Pass := do
  let decision := listed.2.1
  let linked := Ordered.linked links.outcomes listed.1
  let resolution := resolutionValue host (Ordered.linked links.resolutions listed.1)
  let status := statusOf decision linked resolution
  let shown := host.repr (get decision "decision")
  let marker := (markerOf decision).filter (fun _ => status == .succeeded)
  let action := host.repr (get decision "action_name")
  let key := host.repr (get decision "idempotency_key")
  let invocation ← auditedInvocation host listed.1 decision (onlyOutcome linked) status
  return {
    issues := pass.issues ++
      issueWhen (neither decision "decision" "allowed" "denied")
        ⟨"invalid_decision", s!"unsupported decision {shown}", listed.1⟩ ++
      issueWhen (contradicted decision linked resolution)
        ⟨"conflicting_resolution", "a resolution contradicts a recorded succeeded outcome", listed.1⟩ ++
      issueWhen (marker.any pass.marked.contains)
        ⟨"duplicate_idempotency_key", s!"action {action} completed twice with idempotency key {key}",
          listed.1⟩
    marked := pass.marked ++ marker.toList
    invocations := pass.invocations ++ [invocation] }

/-! ## The audit -/

/-- The audit of events that verified. -/
def auditEvents (host : Host) (events : List Dict) : Except PyError AuditReport := do
  let links ← linkEvents host events
  let outcomes ← gather (linkedOutcomeIssues host links.decisions) links.outcomes
  let pass ← links.decisions.foldlM (classify host links) ⟨[], [], []⟩
  return {
    invocations := pass.invocations
    issues := links.issues ++ links.resolutions.flatMap (resolutionIssues host links.decisions) ++
      outcomes ++ pass.issues }

/-- `audit_verified_snapshot`. -/
def auditVerifiedSnapshot (host : Host) (snapshot : Result × List Dict) : Except PyError AuditReport :=
  if snapshot.1.valid then auditEvents host snapshot.2
  else
    let detail := snapshot.1.issues.head?.elim "" (fun issue => " [" ++ issue.code ++ "] " ++ issue.message)
    .error (.evidenceAuditError
      s!"refusing to audit a journal that failed cryptographic verification{detail}")

end Tesera.Audit.Report
