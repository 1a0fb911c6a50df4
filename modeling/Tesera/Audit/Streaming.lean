import Tesera.Audit.Rules
import Tesera.Journal.Append

/-!
`audit_journal` and `audit_journal_streaming`. The second retains of each event only the
fields the audit reads, with `None` where one is absent. On a journal that verifies, every
field the audit indexes is there, so both build the same report; on any other both refuse
with the same error.
-/

namespace Tesera.Audit.Streaming
open Tesera.Text Tesera.Text.Unicode Tesera.Python.Value
open Tesera.Journal.Idempotency Tesera.Journal.Append Tesera.Verification Tesera.Verification.Event
open Tesera.Verification.Journal Tesera.Audit.Report Tesera.Audit.Linking Tesera.Audit.Passes

/-! ## The two entry points -/

/-- `_AUDIT_EVENT_FIELDS`. -/
def auditEventFields : List String :=
  ["event_id", "event_type", "decision_event_id", "decision", "action_id", "action_name", "contract_hash",
    "input_hash", "risk", "approval_mode", "timestamp_utc", "dry_run", "idempotency_key", "status", "resolution"]

/-- `_project_audit_event`. -/
def projectAuditEvent (event : Dict) : Dict :=
  Members.ofPairs (auditEventFields.map (fun field => (lit field, get event field)))

/-- `_count_journal_lines`; reading may raise an `OSError`. -/
def countJournalLines : Source → Except PyError Nat
  | .unopenable error => .error (.osError error)
  | .readable _ (some error) => .error (.osError error)
  | .readable content none => .ok (countEventLines content)

/-- `_check_max_events`. -/
def checkMaxEvents (source : Source) : Option Int → Except PyError Unit
  | none => .ok ()
  | some limit =>
      if limit < 1 then .error (.valueError "max_events must be positive")
      else
        match countJournalLines source with
        -- an unreadable journal fails later with the precise error
        | .error _ => .ok ()
        | .ok size =>
            if limit < (size : Int) then
              .error (.evidenceAuditError
                s!"journal holds {size} events, over the --max-events limit of {limit}; audit per rotated file instead (`tesera archive` keeps files small, `tesera verify-chain` covers custody across them)")
            else .ok ()

/-- `audit_journal`. -/
def auditJournal (host : Host) (source : Source) (keys : List PublicKey) (maxEvents : Option Int) :
    Except PyError AuditReport := do
  checkMaxEvents source maxEvents
  let snapshot ← loadJournalSnapshot host source keys id
  auditVerifiedSnapshot host snapshot

/-- `audit_journal_streaming`. -/
def auditJournalStreaming (host : Host) (source : Source) (keys : List PublicKey) (maxEvents : Option Int) :
    Except PyError AuditReport := do
  checkMaxEvents source maxEvents
  let snapshot ← loadJournalSnapshot host source keys projectAuditEvent
  auditVerifiedSnapshot host snapshot

section Projection

variable {host : Host} {events : List Dict} {event : Dict} {id : Str}

/-! ## A projected event -/

theorem get_ofPairs_fields {value : String → Json} {fields : List String} {field : String} (listed : field ∈ fields) :
    Members.get (Members.ofPairs (fields.map (fun field => (lit field, value field)))) (lit field) =
      some (value field) := by
  induction fields using List.reverseRecOn with
  | nil => cases listed
  | append_singleton fields last ih =>
    rw [List.map_append, Members.ofPairs, List.foldl_append, List.map_singleton, List.foldl_cons, List.foldl_nil]
    by_cases same : field = last
    · rw [same, Members.get_put_self]
    · have earlier : field ∈ fields := by simpa [same] using listed
      have different : lit field ≠ lit last := fun texts => same ((lit_inj field last).mp texts)
      rw [Members.get_put_of_ne different]
      exact ih earlier

theorem members_project {field : String} (listed : field ∈ auditEventFields) :
    Members.get (projectAuditEvent event) (lit field) = some (get event field) :=
  get_ofPairs_fields listed

theorem get_project {field : String} (listed : field ∈ auditEventFields) :
    get (projectAuditEvent event) field = get event field := by
  rw [Python.Value.get, members_project listed, Option.getD_some]

theorem item_project {field : String} (listed : field ∈ auditEventFields) (present : has event field = true) :
    item (projectAuditEvent event) field = item event field := by
  rw [item_of_has present, item, members_project listed]

theorem isEvent_project (kind : String) : isEvent kind (projectAuditEvent event) = isEvent kind event := by
  rw [isEvent, get_project (by decide), isEvent]

theorem idText_project : idText host (projectAuditEvent event) = idText host event := by
  rw [idText, get_project (by decide), idText]

theorem refText_project : refText host (projectAuditEvent event) = refText host event := by
  rw [refText, get_project (by decide), refText]

theorem resolutionText_project : resolutionText host (projectAuditEvent event) = resolutionText host event := by
  rw [resolutionText, get_project (by decide), resolutionText]

theorem reads_project {field text : String} (listed : field ∈ auditEventFields) :
    reads (projectAuditEvent event) field text = reads event field text := by
  rw [reads, get_project listed, reads]

theorem neither_project {field first second : String} (listed : field ∈ auditEventFields) :
    neither (projectAuditEvent event) field first second = neither event field first second := by
  rw [neither, reads_project listed, reads_project listed, neither]

theorem isDryRun_project : isDryRun (projectAuditEvent event) = isDryRun event := by
  rw [isDryRun, get_project (by decide), isDryRun]

theorem markerOf_project : markerOf (projectAuditEvent event) = markerOf event := by
  rw [markerOf, get_project (by decide), get_project (by decide), markerOf]

theorem fieldText_project {field : String} (listed : field ∈ auditEventFields) (present : has event field = true) :
    fieldText host (projectAuditEvent event) field = fieldText host event field := by
  rw [fieldText, item_project listed present, fieldText]

/-! ## Links over projected events -/

def narrowEntry (entry : Entry) : Entry := (projectAuditEvent entry.1, entry.2)

/-- Decisions over projected events. -/
def narrowDecisions (decisions : Ordered Entry) : Ordered Entry :=
  decisions.map (fun p => (p.1, narrowEntry p.2))

/-- Outcomes or resolutions over projected events. -/
def narrowLinked (linked : Ordered (List Entry)) : Ordered (List Entry) :=
  linked.map (fun p => (p.1, p.2.map narrowEntry))

def narrowLinks (links : Links) : Links :=
  { links with
    decisions := narrowDecisions links.decisions
    outcomes := narrowLinked links.outcomes
    resolutions := narrowLinked links.resolutions }

theorem find_narrowDecisions (decisions : Ordered Entry) :
    (narrowDecisions decisions).find id = (decisions.find id).map narrowEntry :=
  Ordered.find_map (f := fun _ entry => narrowEntry entry)

theorem linked_narrowLinked (linked : Ordered (List Entry)) :
    Ordered.linked (narrowLinked linked) id = (Ordered.linked linked id).map narrowEntry := by
  have found : (narrowLinked linked).find id = (linked.find id).map (List.map narrowEntry) :=
    Ordered.find_map (f := fun _ entries => List.map narrowEntry entries)
  rw [Ordered.linked, found, Ordered.linked]
  cases linked.find id <;> rfl

theorem setDefault_narrow (decisions : Ordered Entry) (entry : Entry) :
    (narrowDecisions decisions).setDefault id (narrowEntry entry) =
      narrowDecisions (decisions.setDefault id entry) := by
  have same : (narrowDecisions decisions).has id = decisions.has id := by
    simp [Ordered.has, narrowDecisions, List.any_map, Function.comp_def]
  rw [Ordered.setDefault, same, Ordered.setDefault]
  split_ifs
  · rfl
  · simp [narrowDecisions]

theorem push_narrow (linked : Ordered (List Entry)) (entry : Entry) :
    Ordered.push (narrowLinked linked) id (narrowEntry entry) = narrowLinked (Ordered.push linked id entry) := by
  induction linked with
  | nil => rfl
  | cons p rest ih =>
    rw [narrowLinked, List.map_cons, Ordered.push, Ordered.push]
    split_ifs
    · simp [narrowLinked]
    · rw [narrowLinked, List.map_cons]
      exact congrArg _ ih

theorem linkStep_narrow (links : Links) (entry : Entry) :
    linkStep host (narrowLinks links) (narrowEntry entry) = narrowLinks (linkStep host links entry) := by
  unfold linkStep
  simp only [narrowEntry, isEvent_project, idText_project, refText_project]
  split_ifs with decision outcome resolution
  · simp only [narrowLinks, Links.note, ← setDefault_narrow]
    rfl
  · simp only [narrowLinks, Links.note, ← push_narrow]
    rfl
  · simp only [narrowLinks, Links.note, ← push_narrow]
    rfl
  · rfl

/-- The first pass over an event with every field that it indexes. -/
theorem linkEvent_present {entry : Entry} (links : Links)
    (present : ∀ field ∈ ["event_id", "event_type", "decision_event_id"], has entry.1 field = true) :
    linkEvent host links entry = .ok (linkStep host links entry) := by
  have id := item_of_has (present "event_id" (by decide))
  have type := item_of_has (present "event_type" (by decide))
  have ref := item_of_has (present "decision_event_id" (by decide))
  simp only [linkEvent, id, type, ref, bind, Except.bind]
  unfold linkStep
  split_ifs <;> rfl

theorem linkEvent_narrow (links : Links) (entry : Entry) :
    linkEvent host links (narrowEntry entry) = .ok (linkStep host links (narrowEntry entry)) := by
  apply linkEvent_present
  intro field member
  have listed : field ∈ auditEventFields := by
    revert field
    decide
  rw [has, narrowEntry, members_project listed, Option.isSome_some]

theorem linkEvents_project (fielded : ∀ event ∈ events, Fielded event) :
    linkEvents host (events.map projectAuditEvent) = (linkEvents host events).map narrowLinks := by
  have entries : (events.map projectAuditEvent).zipIdx = events.zipIdx.map narrowEntry := by
    rw [List.zipIdx_map]
    rfl
  have folded (entries : List Entry) (links : Links) :
      (entries.map narrowEntry).foldlM (linkEvent host) (narrowLinks links) =
        .ok (narrowLinks (entries.foldl (linkStep host) links)) := by
    induction entries generalizing links with
    | nil => rfl
    | cons entry entries ih =>
      rw [List.map_cons, List.foldlM_cons, linkEvent_narrow, linkStep_narrow, List.foldl_cons]
      exact ih (linkStep host links entry)
  rw [linkEvents_eq fielded, linkEvents, entries]
  exact folded events.zipIdx .empty

/-! ## Passes over projected events -/

theorem gather_congr {α β γ : Type} {check : α → Except PyError (List γ)} {other : β → Except PyError (List γ)}
    {f : β → α} {xs : List β} (same : ∀ x ∈ xs, check (f x) = other x) :
    gather check (xs.map f) = gather other xs := by
  induction xs with
  | nil => rfl
  | cons x xs ih =>
    have rest := ih (fun y member => same y (List.mem_cons_of_mem x member))
    rw [List.map_cons, gather, gather, same x List.mem_cons_self, rest]

theorem resolutionIssues_narrow (decisions : Ordered Entry) (linked : Str × List Entry) :
    resolutionIssues host (narrowDecisions decisions) (linked.1, linked.2.map narrowEntry) =
      resolutionIssues host decisions linked := by
  simp only [resolutionIssues, find_narrowDecisions]
  cases decisions.find linked.1 with
  | none =>
    simp only [Option.map_none, List.map_map, Function.comp_def, narrowEntry, idText_project]
  | some decision =>
    simp only [Option.map_some, List.map_map, List.flatMap_map, Function.comp_def, narrowEntry, idText_project,
      resolutionText_project]
    rfl

/-- An event with the fields of a type. -/
def HasFields (type : EventType) (event : Dict) : Prop := ∀ field ∈ type.required, has event field = true

theorem outcomeIssues_narrow {decision outcome : Entry} (decided : HasFields .decision decision.1)
    (fielded : HasFields .outcome outcome.1) :
    outcomeIssues host (narrowEntry decision) (narrowEntry outcome) = outcomeIssues host decision outcome := by
  have repeated : ∀ field ∈ identityFields, field ∈ auditEventFields ∧ field ∈ EventType.outcome.required ∧
      field ∈ EventType.decision.required := by decide
  have mismatches : gather (mismatchIssues host (projectAuditEvent decision.1) (projectAuditEvent outcome.1))
      identityFields = gather (mismatchIssues host decision.1 outcome.1) identityFields := by
    rw [← List.map_id identityFields]
    apply gather_congr
    intro field member
    obtain ⟨listed, inOutcome, inDecision⟩ := repeated field member
    rw [id, mismatchIssues, item_project listed (fielded field inOutcome),
      item_project listed (decided field inDecision), idText_project, mismatchIssues]
  simp only [outcomeIssues, narrowEntry, mismatches, idText_project,
    item_project (by decide : "decision" ∈ auditEventFields) (decided "decision" (by decide)),
    get_project (by decide : "status" ∈ auditEventFields), reads_project (by decide : "decision" ∈ auditEventFields),
    neither_project (by decide : "status" ∈ auditEventFields)]
  rfl

theorem linkedOutcomeIssues_narrow {decisions : Ordered Entry} {linked : Str × List Entry}
    (decided : ∀ entry ∈ decisions.find linked.1, HasFields .decision entry.1)
    (fielded : ∀ entry ∈ linked.2, HasFields .outcome entry.1) :
    linkedOutcomeIssues host (narrowDecisions decisions) (linked.1, linked.2.map narrowEntry) =
      linkedOutcomeIssues host decisions linked := by
  simp only [linkedOutcomeIssues, find_narrowDecisions]
  cases found : decisions.find linked.1 with
  | none =>
    simp only [Option.map_none, List.map_map, Function.comp_def, narrowEntry, idText_project]
  | some decision =>
    have each : gather (outcomeIssues host (narrowEntry decision)) (linked.2.map narrowEntry) =
        gather (outcomeIssues host decision) linked.2 := by
      apply gather_congr
      exact fun entry member => outcomeIssues_narrow (decided decision found) (fielded entry member)
    simp only [Option.map_some, each, List.length_map]

/-! ## Classification of projected decisions -/

theorem onlyOutcome_narrow (linked : List Entry) :
    onlyOutcome (linked.map narrowEntry) = (onlyOutcome linked).map projectAuditEvent := by
  match linked with
  | [] => rfl
  | [_] => rfl
  | _ :: _ :: _ => rfl

theorem resolutionValue_narrow (linked : List Entry) :
    resolutionValue host (linked.map narrowEntry) = resolutionValue host linked := by
  simp only [resolutionValue, List.getLast?_map, Option.map_map, Function.comp_def, narrowEntry,
    resolutionText_project]

theorem onlySucceeded_narrow (linked : List Entry) :
    onlySucceeded (linked.map narrowEntry) = onlySucceeded linked := by
  rw [onlySucceeded, onlyOutcome_narrow, onlySucceeded]
  cases onlyOutcome linked with
  | none => rfl
  | some outcome => exact reads_project (by decide)

theorem statusOf_narrow (decision : Dict) (linked : List Entry) (resolution : Option Str) :
    statusOf (projectAuditEvent decision) (linked.map narrowEntry) resolution = statusOf decision linked resolution := by
  have failed : ((onlyOutcome linked).map projectAuditEvent).any (fun outcome => reads outcome "status" "failed") =
      (onlyOutcome linked).any (fun outcome => reads outcome "status" "failed") := by
    cases onlyOutcome linked with
    | none => rfl
    | some outcome => exact reads_project (by decide)
  simp only [statusOf, isDryRun_project, reads_project (by decide : "decision" ∈ auditEventFields),
    onlyOutcome_narrow, onlySucceeded_narrow, failed, Option.isNone_map, Option.isSome_map, List.isEmpty_map]

theorem contradicted_narrow (decision : Dict) (linked : List Entry) (resolution : Option Str) :
    contradicted (projectAuditEvent decision) (linked.map narrowEntry) resolution =
      contradicted decision linked resolution := by
  rw [contradicted, reads_project (by decide), onlySucceeded_narrow, contradicted]

theorem auditedInvocation_narrow {decision : Dict} {outcome : Option Dict} {status : InvocationStatus}
    (decided : HasFields .decision decision) (fielded : ∀ event ∈ outcome, HasFields .outcome event) :
    auditedInvocation host id (projectAuditEvent decision) (outcome.map projectAuditEvent) status =
      auditedInvocation host id decision outcome status := by
  have timestamp : (outcome.map projectAuditEvent).elim (.ok none) (fun outcome =>
      (fieldText host outcome "timestamp_utc").map some) = (outcome.elim (.ok none) (fun outcome =>
      (fieldText host outcome "timestamp_utc").map some) : Except PyError (Option Str)) := by
    cases outcome with
    | none => rfl
    | some event =>
      rw [Option.map_some, Option.elim_some, Option.elim_some,
        fieldText_project (by decide) (fielded event rfl "timestamp_utc" (by decide))]
  have named : (outcome.map projectAuditEvent).map (idText host) = outcome.map (idText host) := by
    simp only [Option.map_map, Function.comp_def, idText_project]
  have texts {field : String} (listed : field ∈ auditEventFields) (required : field ∈ EventType.decision.required) :
      fieldText host (projectAuditEvent decision) field = fieldText host decision field :=
    fieldText_project listed (decided field required)
  simp only [auditedInvocation, texts (by decide : "action_name" ∈ auditEventFields) (by decide),
    texts (by decide : "action_id" ∈ auditEventFields) (by decide),
    texts (by decide : "contract_hash" ∈ auditEventFields) (by decide),
    texts (by decide : "input_hash" ∈ auditEventFields) (by decide),
    texts (by decide : "risk" ∈ auditEventFields) (by decide),
    texts (by decide : "approval_mode" ∈ auditEventFields) (by decide),
    texts (by decide : "timestamp_utc" ∈ auditEventFields) (by decide), timestamp, named,
    get_project (by decide : "decision" ∈ auditEventFields)]

/-- One decision, with links over projected events. -/
theorem classify_narrow {links : Links} {pass : Pass} {p : Str × Entry} (decided : HasFields .decision p.2.1)
    (fielded : ∀ entry ∈ Ordered.linked links.outcomes p.1, HasFields .outcome entry.1) :
    classify host (narrowLinks links) pass (p.1, narrowEntry p.2) = classify host links pass p := by
  have only : ∀ event ∈ onlyOutcome (Ordered.linked links.outcomes p.1), HasFields .outcome event := by
    intro event found
    obtain ⟨i, alone⟩ := mem_of_onlyOutcome found
    exact fielded (event, i) (alone ▸ List.mem_singleton_self _)
  have shown {field : String} (listed : field ∈ auditEventFields) :
      get (projectAuditEvent p.2.1) field = get p.2.1 field := get_project listed
  simp only [classify, narrowLinks, narrowEntry, linked_narrowLinked, statusOf_narrow, resolutionValue_narrow,
    onlyOutcome_narrow, contradicted_narrow, markerOf_project, auditedInvocation_narrow decided only,
    neither_project (by decide : "decision" ∈ auditEventFields), shown (by decide : "decision" ∈ auditEventFields),
    shown (by decide : "action_name" ∈ auditEventFields), shown (by decide : "idempotency_key" ∈ auditEventFields)]

theorem foldlM_classify_narrow {links : Links} {listed : Ordered Entry} (pass : Pass)
    (decided : ∀ p ∈ listed, HasFields .decision p.2.1)
    (fielded : ∀ id, ∀ entry ∈ Ordered.linked links.outcomes id, HasFields .outcome entry.1) :
    (narrowDecisions listed).foldlM (classify host (narrowLinks links)) pass =
      listed.foldlM (classify host links) pass := by
  induction listed generalizing pass with
  | nil => rfl
  | cons p listed ih =>
    rw [narrowDecisions, List.map_cons, List.foldlM_cons, List.foldlM_cons,
      classify_narrow (decided p List.mem_cons_self) (fielded p.1)]
    apply bind_congr
    intro next
    exact ih next (fun q member => decided q (List.mem_cons_of_mem p member))

/-! ## The two audits -/

/-- The audit reads nothing of its events but the projected fields. -/
theorem auditEvents_project (fielded : ∀ event ∈ events, Fielded event) :
    auditEvents host (events.map projectAuditEvent) = auditEvents host events := by
  have linked := @linked_links host events
  have links := @linkEvents_eq host events fielded
  rw [auditEvents, linkEvents_project fielded, links, auditEvents, links]
  generalize events.zipIdx.foldl (linkStep host) .empty = found at linked
  have decided : ∀ id, ∀ entry ∈ found.decisions.find id, HasFields .decision entry.1 := by
    intro id entry first
    obtain ⟨here, isDecision, -⟩ := firstDecision_eq_some ((linked.decisions id).symm.trans first)
    exact @Fielded.of_type _ .decision (fielded _ (List.mem_of_getElem? here)) isDecision
  have reported : ∀ id, ∀ entry ∈ Ordered.linked found.outcomes id, HasFields .outcome entry.1 := by
    intro id entry member
    rw [linked.outcomes] at member
    obtain ⟨here, isOutcome, -⟩ := mem_referring.mp member
    exact @Fielded.of_type _ .outcome (fielded _ (List.mem_of_getElem? here)) isOutcome
  have resolutions : (narrowLinked found.resolutions).flatMap
      (resolutionIssues host (narrowDecisions found.decisions)) =
        found.resolutions.flatMap (resolutionIssues host found.decisions) := by
    simp only [narrowLinked, List.flatMap_map, resolutionIssues_narrow]
  have outcomes : gather (linkedOutcomeIssues host (narrowDecisions found.decisions))
      (narrowLinked found.outcomes) = gather (linkedOutcomeIssues host found.decisions) found.outcomes := by
    apply gather_congr
    intro p member
    apply linkedOutcomeIssues_narrow (decided p.1)
    intro entry inside
    apply reported p.1 entry
    rwa [Ordered.linked, Ordered.find_of_mem linked.distinctOutcomes member, Option.getD_some]
  have classified : (narrowDecisions found.decisions).foldlM (classify host (narrowLinks found)) ⟨[], [], []⟩ =
      found.decisions.foldlM (classify host found) ⟨[], [], []⟩ := by
    apply foldlM_classify_narrow _ _ reported
    intro p member
    exact decided p.1 p.2 (Ordered.find_of_mem linked.distinctDecisions member)
  have narrowed : (narrowLinks found).decisions = narrowDecisions found.decisions ∧
      (narrowLinks found).outcomes = narrowLinked found.outcomes ∧
      (narrowLinks found).resolutions = narrowLinked found.resolutions ∧
      (narrowLinks found).issues = found.issues := ⟨rfl, rfl, rfl, rfl⟩
  simp only [Except.map, bind, Except.bind, narrowed.1, narrowed.2.1, narrowed.2.2.1, narrowed.2.2.2, resolutions,
    outcomes]
  rw [classified]

end Projection

theorem auditVerifiedSnapshot_project {host : Host} {source : Source} {keys : List PublicKey} {snapshot : Result × List Dict}
    (loaded : loadJournalSnapshot host source keys id = .ok snapshot) :
    auditVerifiedSnapshot host (snapshot.1, snapshot.2.map projectAuditEvent) =
      auditVerifiedSnapshot host snapshot := by
  by_cases valid : snapshot.1.valid = true
  · have fielded : ∀ event ∈ snapshot.2, Fielded event := by
      intro event member
      obtain ⟨_, _, isClean⟩ := Rules.isClean_of_snapshot loaded valid member
      exact fielded_of_clean isClean
    rw [auditVerifiedSnapshot, auditVerifiedSnapshot, if_pos valid, if_pos valid, auditEvents_project fielded]
  · rw [auditVerifiedSnapshot, auditVerifiedSnapshot, if_neg valid, if_neg valid]

/-- The streaming audit returns the report of the full audit, or refuses with its error. -/
theorem streaming_eq_full (host : Host) (source : Source) (keys : List PublicKey) (maxEvents : Option Int) :
    auditJournalStreaming host source keys maxEvents = auditJournal host source keys maxEvents := by
  unfold auditJournalStreaming auditJournal
  apply bind_congr
  intro _
  simp only [loadJournalSnapshot, bind_assoc, pure_bind, List.map_id]
  cases verified : readAndVerify host source (toKeyring host keys) none with
  | error e => rfl
  | ok read =>
    have loaded : loadJournalSnapshot host source keys id = .ok read := by
      simp only [loadJournalSnapshot, verified, List.map_id, bind, Except.bind, pure, Except.pure]
    exact auditVerifiedSnapshot_project loaded

end Tesera.Audit.Streaming
