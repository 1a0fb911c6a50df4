import Tesera.Audit.Successes

/-!
What the operator is told against what the guard does. The audit leaves a decision open or
completed, and the guard blocks its key; where they part, the guard has not seen a decision
that still stands, or sees one that a failed outcome has released.
-/

namespace Tesera.Audit.Agreement
open Tesera.Text Tesera.Text.Unicode Tesera.Text.Lines Tesera.Python.Value
open Tesera.Journal.Idempotency Tesera.Journal.Scan Tesera.Verification Tesera.Verification.Event
open Tesera.Verification.Journal
open Tesera.Audit.Report Tesera.Audit.Linking Tesera.Audit.Passes Tesera.Audit.Rules Tesera.Audit.Successes

/-! ## A decision by its evidence -/

section Evidence

variable (host : Host) (events : List Dict) (decision : Dict)

/-- The outcomes of a decision. -/
def outcomesFor : List Entry := referring host "outcome" events (idText host decision)

/-- The value of its latest resolution. -/
def latest : Option Str := resolutionValue host (referring host "resolution" events (idText host decision))

/-- An allowed decision that its evidence does not release: it has a success, is confirmed
as completed, or has neither outcome nor resolution. A dry run without an outcome is
released by its mark. -/
def Stands : Prop :=
  get decision "decision" = .str (lit "allowed") ∧
    ((∃ outcome ∈ outcomesFor host events decision, get outcome.1 "status" = .str (lit "succeeded")) ∨
      (latest host events decision = some (lit "confirmed_completed") ∧
        (outcomesFor host events decision ≠ [] ∨ get decision "dry_run" ≠ .bool true)) ∨
      (outcomesFor host events decision = [] ∧ latest host events decision = none ∧
        get decision "dry_run" ≠ .bool true))

/-- A decision with an id that is a text, not marked as a dry run, and without a failed
outcome that names it. -/
def Visible : Prop :=
  (∃ id, get decision "event_id" = .str id) ∧ get decision "dry_run" ≠ .bool true ∧
    ∀ outcome ∈ outcomesFor host events decision, get outcome.1 "status" = .str (lit "failed") →
      asStr (get outcome.1 "decision_event_id") = none

/-- An allowed decision, not marked as a dry run and without a resolution, whose failed
outcome refers to it by a value that is no text. -/
def Mislinked : Prop :=
  get decision "decision" = .str (lit "allowed") ∧ (∃ id, get decision "event_id" = .str id) ∧
    get decision "dry_run" ≠ .bool true ∧ latest host events decision = none ∧
    ∃ outcome ∈ outcomesFor host events decision, get outcome.1 "status" = .str (lit "failed") ∧
      asStr (get outcome.1 "decision_event_id") = none

end Evidence

variable {host : Host} {events : List Dict} {decision : Dict}

/-- What an audit without issues says of the evidence of a decision. -/
structure InOrder (host : Host) (events : List Dict) (decision : Dict) : Prop where
  value : get decision "decision" = .str (lit "allowed") ∨ get decision "decision" = .str (lit "denied")
  outcomes : outcomesFor host events decision = [] ∨ ∃ outcome, outcomesFor host events decision = [outcome] ∧
    get decision "decision" = .str (lit "allowed") ∧
    ((get outcome.1 "status" = .str (lit "succeeded") ∧ latest host events decision = none) ∨
      get outcome.1 "status" = .str (lit "failed"))
  resolved : latest host events decision = none ∨ latest host events decision = some (lit "confirmed_completed") ∨
    latest host events decision = some (lit "confirmed_not_completed")

/-- The values of the resolutions in a verified journal. -/
def Resolved (events : List Dict) : Prop :=
  ∀ event ∈ events, isEvent "resolution" event = true →
    (∃ value ∈ knownResolutions, get event "resolution" = .str (lit value)) ∧
      (asStr (get event "decision_event_id")).isSome = true

theorem inOrder_of_sound (sound : Sound host events) (resolved : Resolved events) {i : Nat}
    (here : events[i]? = some decision) (isDecision : isEvent "decision" decision = true) :
    InOrder host events decision := by
  have first := firstDecision_of_unique sound.unique here isDecision
  obtain ⟨value, settled⟩ := sound.decisions _ _ first
  obtain ⟨few, each⟩ := sound.outcomes (idText host decision)
  refine ⟨neither_iff.mp value, ?_, ?_⟩
  · change (outcomesFor host events decision).length ≤ 1 at few
    rcases found : outcomesFor host events decision with _ | ⟨outcome, _ | ⟨second, rest⟩⟩
    · exact .inl rfl
    · right
      have member : outcome ∈ outcomesFor host events decision := by
        rw [found]
        exact List.mem_singleton_self outcome
      obtain ⟨entry, same, inOrder⟩ := each outcome member
      rw [first] at same
      cases same
      refine ⟨outcome, rfl, reads_iff.mp inOrder.allowed, ?_⟩
      rcases neither_iff.mp inOrder.status with succeeded | failed
      · refine .inl ⟨succeeded, ?_⟩
        by_contra resolved
        have contradiction : contradictedIn host events (idText host decision) decision = true := by
          refine contradicted_eq_true.mpr ⟨reads_iff.mp inOrder.allowed, ?_, ?_⟩
          · exact onlySucceeded_iff.mpr ⟨outcome.1, outcome.2, found, succeeded⟩
          · intro nothing
            exact resolved (by rw [latest, nothing]; rfl)
        rw [contradiction] at settled
        cases settled
      · exact .inr failed
    · rw [found] at few
      simp at few
  · unfold latest resolutionValue
    cases last : (referring host "resolution" events (idText host decision)).getLast? with
    | none => exact .inl rfl
    | some entry =>
      right
      obtain ⟨there, isResolution, -⟩ := mem_referring.mp (List.mem_of_getLast? last)
      obtain ⟨⟨value, known, stored⟩, -⟩ := resolved _ (List.mem_of_getElem? there) isResolution
      simp only [Option.map_some, resolutionText, stored, pyStr, Option.some.injEq, lit_inj]
      simpa [knownResolutions] using known

/-- The audit leaves a decision completed or open exactly when it stands. -/
theorem open_iff_stands (inOrder : InOrder host events decision) :
    Open (statusIn host events (idText host decision) decision) ↔ Stands host events decision := by
  have unfolded : statusIn host events (idText host decision) decision =
      statusOf decision (outcomesFor host events decision) (latest host events decision) := rfl
  have distinct : lit "confirmed_completed" ≠ lit "confirmed_not_completed" := by simp
  rw [unfolded]
  unfold Stands statusOf
  simp only [ne_eq, ← isDryRun_iff]
  rcases inOrder.value with allowed | denied
  · have isAllowed : reads decision "decision" "allowed" = true := reads_iff.mpr allowed
    have notDenied : reads decision "decision" "denied" = false := by
      rw [reads, allowed]
      decide
    rcases inOrder.outcomes with nothing | ⟨outcome, only, -, ⟨succeeded, open_⟩ | failed⟩
    · rw [nothing]
      rcases inOrder.resolved with none | completed | denied
      · by_cases dry : isDryRun decision = true <;>
          simp [Open, onlyOutcome, onlySucceeded, isAllowed, notDenied, allowed, none, dry]
      · by_cases dry : isDryRun decision = true <;>
          simp [Open, onlyOutcome, onlySucceeded, isAllowed, notDenied, allowed, completed, dry]
      · by_cases dry : isDryRun decision = true <;>
          simp [Open, onlyOutcome, onlySucceeded, isAllowed, notDenied, allowed, denied, dry]
    · have reported : reads outcome.1 "status" "succeeded" = true := reads_iff.mpr succeeded
      rw [only, open_]
      simp [Open, onlyOutcome, onlySucceeded, isAllowed, notDenied, allowed, reported, succeeded]
    · have notSucceeded : reads outcome.1 "status" "succeeded" = false := by
        rw [reads, failed]
        decide
      have reported : reads outcome.1 "status" "failed" = true := reads_iff.mpr failed
      rw [only]
      rcases inOrder.resolved with none | completed | denied
      · simp [Open, onlyOutcome, onlySucceeded, isAllowed, notDenied, allowed, none, reported, notSucceeded, failed]
      · simp [Open, onlyOutcome, onlySucceeded, isAllowed, notDenied, allowed, completed, notSucceeded, failed]
      · simp [Open, onlyOutcome, onlySucceeded, isAllowed, notDenied, allowed, denied, notSucceeded, failed]
  · have notAllowed : reads decision "decision" "allowed" = false := by
      rw [reads, denied]
      decide
    have isDenied : reads decision "decision" "denied" = true := reads_iff.mpr denied
    have none : outcomesFor host events decision = [] := by
      rcases inOrder.outcomes with nothing | ⟨_, -, allowed, -⟩
      · exact nothing
      · rw [allowed] at denied
        simp at denied
    simp [Open, notAllowed, isDenied, none, denied]

/-! ## The guard on the same evidence -/

/-- The events that name an id are those that refer to it by a text. -/
theorem valuesFor_eq {kind field : String} {id : Str} : valuesFor kind field events id =
    ((referring host kind events id).filter (fun entry => (asStr (get entry.1 "decision_event_id")).isSome)).map
      (fun entry => get entry.1 field) := by
  have same : ∀ entry : Entry, (refersTo host kind id entry && (asStr (get entry.1 "decision_event_id")).isSome) =
      namesId kind id entry.1 := by
    intro entry
    rw [refersTo, namesId, refText]
    cases ref : get entry.1 "decision_event_id" with
    | str text => simp [asStr, pyStr]
    | _ => simp [asStr]
  have firsts : events = events.zipIdx.map Prod.fst := (List.zipIdx_map_fst 0 events).symm
  rw [referring, List.filter_filter]
  simp only [Bool.and_comm (asStr _).isSome, same]
  conv_lhs => rw [valuesFor, firsts, List.filter_map, List.map_map]
  rfl

theorem resolutions_latest (resolved : Resolved events) : latest host events decision =
    (valuesFor "resolution" "resolution" events (idText host decision)).getLast?.map (pyStr host) := by
  have all : (referring host "resolution" events (idText host decision)).filter
      (fun entry => (asStr (get entry.1 "decision_event_id")).isSome) =
        referring host "resolution" events (idText host decision) := by
    rw [List.filter_eq_self]
    intro entry member
    obtain ⟨here, isResolution, -⟩ := mem_referring.mp member
    exact (resolved _ (List.mem_of_getElem? here) isResolution).2
  rw [@valuesFor_eq host, all, List.getLast?_map, Option.map_map]
  rfl

/-- A decision with the action and the key. -/
structure HasKey (action key : Str) (decision : Dict) : Prop where
  isDecision : isEvent "decision" decision = true
  action : get decision "action_name" = .str action
  key : get decision "idempotency_key" = .str key

theorem mayBlock_iff : mayBlock decision = true ↔
    get decision "decision" = .str (lit "allowed") ∧ get decision "dry_run" ≠ .bool true := by
  unfold mayBlock
  rw [Bool.and_eq_true, beq_iff_eq, asStr_eq_some]
  apply and_congr_right
  intro _
  split
  next marked => simp [marked]
  next other =>
    refine iff_of_true rfl ?_
    exact other

theorem matchesKey_iff {action key : Str} : matchesKey action key decision = true ↔
    get decision "decision" = .str (lit "allowed") ∧ get decision "dry_run" ≠ .bool true ∧
      get decision "action_name" = .str action ∧ get decision "idempotency_key" = .str key := by
  rw [matchesKey, Bool.and_eq_true, Bool.and_eq_true, mayBlock_iff, beq_iff_eq, beq_iff_eq, asStr_eq_some,
    asStr_eq_some, and_assoc, and_assoc]

theorem isBlocking_nil {resolutions : List Json} : isBlocking host [] resolutions = true ↔
    resolutions.getLast?.map (pyStr host) ≠ some (lit "confirmed_not_completed") := by
  unfold isBlocking
  cases resolutions.getLast? with
  | none => simp
  | some last => simp

theorem isBlocking_one {status : Json} {resolutions : List Json} :
    isBlocking host [status] resolutions = true ↔ status = .str (lit "succeeded") := by
  unfold isBlocking
  rw [List.any_cons, List.any_nil, Bool.or_false]
  by_cases succeeded : asStr status = some (lit "succeeded")
  · rw [succeeded]
    simpa using asStr_eq_some.mp succeeded
  · have different : status ≠ .str (lit "succeeded") := fun same => succeeded (asStr_eq_some.mpr same)
    simp [succeeded, different]

/-- The answer of the guard for a decision with a text for its id. -/
theorem isBlocking_iff (inOrder : InOrder host events decision) (resolved : Resolved events) :
    isBlocking host (valuesFor "outcome" "status" events (idText host decision))
        (valuesFor "resolution" "resolution" events (idText host decision)) = true ↔
      (∃ outcome ∈ outcomesFor host events decision, get outcome.1 "status" = .str (lit "succeeded") ∧
          (asStr (get outcome.1 "decision_event_id")).isSome = true) ∨
        ((∀ outcome ∈ outcomesFor host events decision, asStr (get outcome.1 "decision_event_id") = none) ∧
          latest host events decision ≠ some (lit "confirmed_not_completed")) := by
  have linked : valuesFor "outcome" "status" events (idText host decision) =
      ((outcomesFor host events decision).filter (fun entry => (asStr (get entry.1 "decision_event_id")).isSome)).map
        (fun entry => get entry.1 "status") := valuesFor_eq
  rw [linked, resolutions_latest resolved]
  rcases inOrder.outcomes with nothing | ⟨outcome, only, -, -⟩
  · rw [nothing, List.filter_nil, List.map_nil, isBlocking_nil]
    simp
  · rw [only]
    cases ref : asStr (get outcome.1 "decision_event_id") with
    | none =>
      rw [List.filter_cons_of_neg (by simp [ref]), List.filter_nil, List.map_nil, isBlocking_nil]
      simp [ref]
    | some text =>
      rw [List.filter_cons_of_pos (by simp [ref]), List.filter_nil, List.map_singleton, isBlocking_one]
      simp [ref]

/-- The guard blocks on a decision that stands and is visible, and on one whose failed
outcome it cannot link. -/
theorem blocks_iff (inOrder : InOrder host events decision) (resolved : Resolved events) {action key : Str}
    (keyed : HasKey action key decision) : blocks host events action key decision ↔
      (Stands host events decision ∧ Visible host events decision) ∨ Mislinked host events decision := by
  have guard : blocks host events action key decision ↔ get decision "decision" = .str (lit "allowed") ∧
      get decision "dry_run" ≠ .bool true ∧ (∃ id, get decision "event_id" = .str id) ∧
      ((∃ outcome ∈ outcomesFor host events decision, get outcome.1 "status" = .str (lit "succeeded") ∧
          (asStr (get outcome.1 "decision_event_id")).isSome = true) ∨
        ((∀ outcome ∈ outcomesFor host events decision, asStr (get outcome.1 "decision_event_id") = none) ∧
          latest host events decision ≠ some (lit "confirmed_not_completed"))) := by
    rw [← isBlocking_iff inOrder resolved, blocks, matchesKey_iff]
    constructor
    · rintro ⟨-, ⟨allowed, dry, -, -⟩, id, isId, blocking⟩
      have stored := asStr_eq_some.mp isId
      have text : idText host decision = id := by rw [idText, stored]; rfl
      exact ⟨allowed, dry, ⟨id, stored⟩, text ▸ blocking⟩
    · rintro ⟨allowed, dry, ⟨id, stored⟩, blocking⟩
      have text : idText host decision = id := by rw [idText, stored]; rfl
      exact ⟨keyed.isDecision, ⟨allowed, dry, keyed.action, keyed.key⟩, id, asStr_eq_some.mpr stored, text ▸ blocking⟩
  have distinct : lit "confirmed_completed" ≠ lit "confirmed_not_completed" := by simp
  have outcomeKinds : lit "succeeded" ≠ lit "failed" := by simp
  rw [guard]
  unfold Stands Visible Mislinked
  by_cases allowed : get decision "decision" = .str (lit "allowed")
  · by_cases dry : get decision "dry_run" = .bool true
    · simp [dry]
    · by_cases named : ∃ id, get decision "event_id" = .str id
      · rcases inOrder.outcomes with nothing | ⟨outcome, only, -, ⟨succeeded, open_⟩ | failed⟩
        · rw [nothing]
          rcases inOrder.resolved with none | completed | denied
          · simp [allowed, dry, named, none]
          · simp [allowed, dry, named, completed]
          · simp [allowed, dry, named, denied]
        · rw [only, open_]
          cases ref : asStr (get outcome.1 "decision_event_id") <;>
            simp [allowed, dry, named, succeeded, ref]
        · rw [only]
          cases ref : asStr (get outcome.1 "decision_event_id") with
          | none =>
            rcases inOrder.resolved with none | completed | denied
            · simp [allowed, dry, named, failed, ref, none]
            · simp [allowed, dry, named, failed, ref, completed]
            · simp [allowed, dry, named, failed, ref, denied]
          | some text =>
            simp [failed, ref]
      · simp [named]
  · simp [allowed]

/-! ## A key -/

/-- The report gives a decision this status. -/
def Classified (host : Host) (report : AuditReport) (decision : Dict) (status : InvocationStatus) : Prop :=
  statusFor report (idText host decision) = some status

/-- The statuses under which a key is free. -/
def Released (status : InvocationStatus) : Prop :=
  status = .denied ∨ status = .dryRun ∨ status = .failed ∨ status = .resolvedNotCompleted

/-- The audit and the guard agree on a key: one decision completed or open blocks it, and if
all are released none does. -/
def Agrees (host : Host) (events : List Dict) (report : AuditReport) (action key : Str) (prior : Option Str) : Prop :=
  ((∃ decision ∈ events, HasKey action key decision ∧ ∃ status, Classified host report decision status ∧ Open status) →
    prior ≠ none) ∧
  ((∀ decision ∈ events, HasKey action key decision → ∀ status, Classified host report decision status →
    Released status) → prior = none)

/-- Some decision under the key stands and is visible; or one stands without being visible
exactly when one is mislinked. -/
def Consistent (host : Host) (events : List Dict) (action key : Str) : Prop :=
  (∃ decision ∈ events, HasKey action key decision ∧ Stands host events decision ∧ Visible host events decision) ∨
    ((∃ decision ∈ events, HasKey action key decision ∧ Stands host events decision ∧
        ¬ Visible host events decision) ↔
      ∃ decision ∈ events, HasKey action key decision ∧ Mislinked host events decision)

theorem released_iff {status : InvocationStatus} : Released status ↔ ¬ Open status := by
  unfold Released Open
  cases status <;> simp

theorem classified_iff {report : AuditReport} (reports : Reports host events report) (sound : Sound host events)
    {i : Nat} (here : events[i]? = some decision) (isDecision : isEvent "decision" decision = true)
    {status : InvocationStatus} : Classified host report decision status ↔
      statusIn host events (idText host decision) decision = status := by
  rw [Classified, reports.status, firstDecision_of_unique sound.unique here isDecision, Option.map_some,
    Option.some.injEq]

theorem resolved_of_snapshot {source : Source} {keys : List PublicKey} {snapshot : Result × List Dict}
    (loaded : loadJournalSnapshot host source keys id = .ok snapshot) (valid : snapshot.1.valid = true) :
    Resolved snapshot.2 := by
  intro event member resolution
  obtain ⟨_, _, isClean⟩ := isClean_of_snapshot loaded valid member
  refine ⟨resolution_known isClean resolution, ?_⟩
  exact resolution_ref isClean resolution

/-- The guard blocks a key exactly when a decision under it blocks. -/
theorem blocked_iff (sound : Sound host events) (resolved : Resolved events) {action key : Str} :
    ((scanBlockingPrior host events action key).bind idOf).isSome = true ↔
      ∃ decision ∈ events, HasKey action key decision ∧
        ((Stands host events decision ∧ Visible host events decision) ∨ Mislinked host events decision) := by
  have unique : ∀ a ∈ events, ∀ b ∈ events, isEvent "decision" a = true → isEvent "decision" b = true →
      idOf a = idOf b → idOf a ≠ none → a = b := by
    intro a inA b inB _ _ same text
    obtain ⟨i, hereA⟩ := List.mem_iff_getElem?.mp inA
    obtain ⟨j, hereB⟩ := List.mem_iff_getElem?.mp inB
    obtain ⟨id, isId⟩ := Option.ne_none_iff_exists'.mp text
    have textA : idText host a = id := by rw [idText, asStr_eq_some.mp isId]; rfl
    have textB : idText host b = id := by rw [idText, asStr_eq_some.mp (same.symm.trans isId)]; rfl
    have index := index_unique sound.unique hereA hereB (textA.trans textB.symm)
    rw [index, hereB] at hereA
    exact (Option.some.inj hereA).symm
  rw [scanBlockingPrior_isSome unique]
  constructor
  · rintro ⟨decision, inEvents, blocking⟩
    obtain ⟨i, here⟩ := List.mem_iff_getElem?.mp inEvents
    obtain ⟨_, _, named, keyed⟩ := matchesKey_iff.mp blocking.2.1
    have hasKey : HasKey action key decision := ⟨blocking.1, named, keyed⟩
    exact ⟨decision, inEvents, hasKey,
      (blocks_iff (inOrder_of_sound sound resolved here blocking.1) resolved hasKey).mp blocking⟩
  · rintro ⟨decision, inEvents, hasKey, standing⟩
    obtain ⟨i, here⟩ := List.mem_iff_getElem?.mp inEvents
    exact ⟨decision, inEvents,
      (blocks_iff (inOrder_of_sound sound resolved here hasKey.isDecision) resolved hasKey).mpr standing⟩

/-- Two sets with a part in common are both empty or both not. -/
theorem agreement_iff {common left right : Prop} :
    ((common ∨ left → common ∨ right) ∧ (¬ (common ∨ left) → ¬ (common ∨ right))) ↔ common ∨ (left ↔ right) := by
  tauto

/-- In a verified journal whose audit has no issue, audit and guard agree on a key exactly
when it is consistent. -/
theorem reservation_agrees_iff {host : Host} {content : Bytes} {keys : List PublicKey} {snapshot : Result × List Dict}
    {report : AuditReport} (loaded : loadJournalSnapshot host (.readable content none) keys id = .ok snapshot)
    (valid : snapshot.1.valid = true) (audited : auditVerifiedSnapshot host snapshot = .ok report)
    (structured : report.issues = []) (action key : Str) :
    ∃ prior, scanBlockingIdempotent host content action key = .ok prior ∧
      (Agrees host snapshot.2 report action key prior ↔ Consistent host snapshot.2 action key) := by
  obtain ⟨found, again, reports⟩ := auditVerifiedSnapshot_reports loaded valid
  rw [audited] at again
  cases again
  have sound := reports.clean.mp structured
  have resolved := resolved_of_snapshot loaded valid
  obtain ⟨_, same, file⟩ := file_of_snapshot loaded valid
  cases same
  refine ⟨(scanBlockingPrior host snapshot.2 action key).bind idOf, ?_, ?_⟩
  · rw [scanBlockingIdempotent, readEvents_decoded file.decoded]
    rfl
  have blocked := @blocked_iff host snapshot.2 sound resolved action key
  rw [← Option.ne_none_iff_isSome] at blocked
  have opened : (∃ decision ∈ snapshot.2, HasKey action key decision ∧
      ∃ status, Classified host report decision status ∧ Open status) ↔
        ∃ decision ∈ snapshot.2, HasKey action key decision ∧ Stands host snapshot.2 decision := by
    apply exists_congr
    intro decision
    apply and_congr_right
    intro inEvents
    apply and_congr_right
    intro hasKey
    obtain ⟨i, here⟩ := List.mem_iff_getElem?.mp inEvents
    rw [← open_iff_stands (inOrder_of_sound sound resolved here hasKey.isDecision)]
    simp only [classified_iff reports sound here hasKey.isDecision, exists_eq_left']
  have released : (∀ decision ∈ snapshot.2, HasKey action key decision → ∀ status,
      Classified host report decision status → Released status) ↔
        ¬ ∃ decision ∈ snapshot.2, HasKey action key decision ∧ Stands host snapshot.2 decision := by
    rw [← opened]
    simp only [released_iff]
    constructor
    · rintro all ⟨decision, inEvents, hasKey, status, classified, isOpen⟩
      exact all decision inEvents hasKey status classified isOpen
    · intro none decision inEvents hasKey status classified isOpen
      exact none ⟨decision, inEvents, hasKey, status, classified, isOpen⟩
  have free : (scanBlockingPrior host snapshot.2 action key).bind idOf = none ↔
      ¬ ((scanBlockingPrior host snapshot.2 action key).bind idOf ≠ none) := by
    rw [ne_eq, not_not]
  have stands : (∃ decision ∈ snapshot.2, HasKey action key decision ∧ Stands host snapshot.2 decision) ↔
      (∃ decision ∈ snapshot.2, HasKey action key decision ∧ Stands host snapshot.2 decision ∧
        Visible host snapshot.2 decision) ∨
      (∃ decision ∈ snapshot.2, HasKey action key decision ∧ Stands host snapshot.2 decision ∧
        ¬ Visible host snapshot.2 decision) := by
    constructor
    · rintro ⟨decision, inEvents, hasKey, stands⟩
      by_cases visible : Visible host snapshot.2 decision
      · exact .inl ⟨decision, inEvents, hasKey, stands, visible⟩
      · exact .inr ⟨decision, inEvents, hasKey, stands, visible⟩
    · rintro (⟨decision, inEvents, hasKey, stands, -⟩ | ⟨decision, inEvents, hasKey, stands, -⟩)
      · exact ⟨decision, inEvents, hasKey, stands⟩
      · exact ⟨decision, inEvents, hasKey, stands⟩
  have seen : (∃ decision ∈ snapshot.2, HasKey action key decision ∧
      ((Stands host snapshot.2 decision ∧ Visible host snapshot.2 decision) ∨
        Mislinked host snapshot.2 decision)) ↔
      (∃ decision ∈ snapshot.2, HasKey action key decision ∧ Stands host snapshot.2 decision ∧
        Visible host snapshot.2 decision) ∨
      (∃ decision ∈ snapshot.2, HasKey action key decision ∧ Mislinked host snapshot.2 decision) := by
    simp only [and_or_left, exists_or]
  unfold Agrees Consistent
  rw [opened, released, free, blocked, stands, seen]
  exact agreement_iff

/-! ## The failed payment that was confirmed -/

/-- The payment up to its outcome, which failed. -/
theorem reservation_agrees_sample : ∃ content result report,
    auditVerifiedSnapshot ledgerHost (result, ledger 2) = .ok report ∧
    ∃ prior, scanBlockingIdempotent ledgerHost content (lit "pay") (lit "k1") = .ok prior ∧
    (Agrees ledgerHost (ledger 2) report (lit "pay") (lit "k1") prior ↔
      Consistent ledgerHost (ledger 2) (lit "pay") (lit "k1")) := by
  obtain ⟨content, result, loaded, valid⟩ := loaded_ledger (by decide : 2 ≤ 5)
  have statuses : auditedLedger 2 = .ok (0, [(lit "e0", .failed)]) := by decide +kernel
  obtain ⟨report, audited, structured, -⟩ := report_of_audited valid statuses
  exact ⟨content, result, report, audited,
    reservation_agrees_iff loaded valid audited (List.eq_nil_of_length_eq_zero structured) (lit "pay") (lit "k1")⟩

/-- Once the failed payment is confirmed as completed, the audit reports it so and the guard
lets its key through. -/
theorem confirmed_passes : ∃ content snapshot report prior,
    loadJournalSnapshot ledgerHost (.readable content none) [ledgerKey] id = .ok snapshot ∧
    snapshot.1.valid = true ∧ auditVerifiedSnapshot ledgerHost snapshot = .ok report ∧ report.issues = [] ∧
    scanBlockingIdempotent ledgerHost content (lit "pay") (lit "k1") = .ok prior ∧
    ¬ Agrees ledgerHost snapshot.2 report (lit "pay") (lit "k1") prior := by
  obtain ⟨content, result, loaded, valid⟩ := loaded_ledger (by decide : 3 ≤ 5)
  have statuses : auditedLedger 3 = .ok (0, [(lit "e0", .resolvedCompleted)]) := by decide +kernel
  obtain ⟨report, audited, structured, only⟩ := report_of_audited valid statuses
  rw [List.map_eq_singleton_iff] at only
  obtain ⟨invocation, alone, pair⟩ := only
  obtain ⟨isPayment, stated⟩ := Prod.mk.inj pair
  obtain ⟨_, same, file⟩ := file_of_snapshot loaded valid
  cases same
  have passes : ((scanBlockingPrior ledgerHost (ledger 3) (lit "pay") (lit "k1")).bind idOf) = none := by
    decide +kernel
  have decided : isEvent "decision" (ledgerEvent 0) = true ∧
      asStr (get (ledgerEvent 0) "action_name") = some (lit "pay") ∧
      asStr (get (ledgerEvent 0) "idempotency_key") = some (lit "k1") ∧
      idText ledgerHost (ledgerEvent 0) = lit "e0" := by
    decide +kernel
  have recorded : ledgerEvent 0 ∈ ledger 3 := List.mem_map_of_mem (List.mem_range.mpr (by decide))
  have classified : Classified ledgerHost report (ledgerEvent 0) .resolvedCompleted := by
    rw [Classified, statusFor, alone, decided.2.2.2, ← isPayment, ← stated]
    simp
  refine ⟨content, _, report, none, loaded, valid, audited, List.eq_nil_of_length_eq_zero structured, ?_, ?_⟩
  · rw [scanBlockingIdempotent, readEvents_decoded file.decoded]
    exact congrArg Except.ok passes
  · rintro ⟨blocked, -⟩
    refine blocked ⟨ledgerEvent 0, recorded, ?_, _, classified, .inr (.inl rfl)⟩ rfl
    exact ⟨decided.1, asStr_eq_some.mp decided.2.1, asStr_eq_some.mp decided.2.2.1⟩

end Tesera.Audit.Agreement
