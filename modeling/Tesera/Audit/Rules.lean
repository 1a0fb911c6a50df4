import Tesera.Audit.Passes
import Tesera.Verification.Custody
import Tesera.Verification.Preserve

/-!
The rules of a coherent history, stated on the events alone, and that the audit of a
verified journal has no issue exactly when its events obey them.
-/

namespace Tesera.Audit.Rules
open Tesera.Text Tesera.Text.Unicode Tesera.Python.Value Tesera.Canonical
open Tesera.Journal.Record Tesera.Journal.Scan Tesera.Journal.Payloads
open Tesera.Journal.Idempotency Tesera.Verification Tesera.Verification.Event Tesera.Verification.Journal
open Tesera.Audit.Report Tesera.Audit.Linking Tesera.Audit.Passes

/-- The identifiers of an event are texts. -/
structure TextIds (event : Dict) : Prop where
  id : ∃ text, get event "event_id" = .str text
  ref : isEvent "outcome" event = true ∨ isEvent "resolution" event = true →
    ∃ text, get event "decision_event_id" = .str text

/-- An event refers to a decision. -/
structure RefersTo (event decision : Dict) : Prop where
  isDecision : isEvent "decision" decision = true
  ref : get event "decision_event_id" = get decision "event_id"

/-- Every event of a kind refers to a decision that stands before it. -/
def Referenced (kind : String) (events : List Dict) : Prop :=
  ∀ (i : Nat) event, events[i]? = some event → isEvent kind event = true →
    ∃ j < i, ∃ decision, events[j]? = some decision ∧ RefersTo event decision

/-- The decision has this status in the report. -/
def Reported (report : AuditReport) (decision : Dict) (status : InvocationStatus) : Prop :=
  ∃ id, get decision "event_id" = .str id ∧ statusFor report id = some status

/-- The documented rules; the last one is about the decisions reported as succeeded. -/
structure Coherent (host : Host) (events : List Dict) (report : AuditReport) : Prop where
  distinctIds : (events.map (fun event => get event "event_id")).Nodup
  outcomes : Referenced "outcome" events
  resolutions : Referenced "resolution" events
  allowed : ∀ outcome ∈ events, isEvent "outcome" outcome = true → ∀ decision ∈ events, RefersTo outcome decision →
    get decision "decision" = .str (lit "allowed")
  identity : ∀ outcome ∈ events, isEvent "outcome" outcome = true → ∀ decision ∈ events, RefersTo outcome decision →
    ∀ field ∈ ["action_id", "action_name", "contract_hash"], pyEq host (get outcome field) (get decision field) = true
  oneOutcome : ∀ (i j : Nat) outcome other, events[i]? = some outcome → events[j]? = some other →
    isEvent "outcome" outcome = true → isEvent "outcome" other = true →
    get outcome "decision_event_id" = get other "decision_event_id" → i = j
  statuses : ∀ outcome ∈ events, isEvent "outcome" outcome = true →
    get outcome "status" = .str (lit "succeeded") ∨ get outcome "status" = .str (lit "failed")
  decisions : ∀ decision ∈ events, isEvent "decision" decision = true →
    get decision "decision" = .str (lit "allowed") ∨ get decision "decision" = .str (lit "denied")
  agreement : ∀ resolution ∈ events, ∀ other ∈ events, isEvent "resolution" resolution = true →
    isEvent "resolution" other = true → get resolution "decision_event_id" = get other "decision_event_id" →
    get resolution "resolution" = get other "resolution"
  settled : ∀ (i : Nat) outcome, events[i]? = some outcome → isEvent "outcome" outcome = true →
    get outcome "status" = .str (lit "succeeded") →
    (∀ (j : Nat) other, events[j]? = some other → isEvent "outcome" other = true →
      get other "decision_event_id" = get outcome "decision_event_id" → j = i) →
    ∀ resolution ∈ events, isEvent "resolution" resolution = true →
      get resolution "decision_event_id" ≠ get outcome "decision_event_id"
  keys : ∀ (i j : Nat) decision other, events[i]? = some decision → events[j]? = some other →
    isEvent "decision" decision = true → isEvent "decision" other = true →
    ∀ action key, key ≠ [] → get decision "action_name" = .str action → get other "action_name" = .str action →
      get decision "idempotency_key" = .str key → get other "idempotency_key" = .str key →
      Reported report decision .succeeded → Reported report other .succeeded → i = j

/-! ## Texts -/

section Texts

variable {host : Host} {events : List Dict} {event decision : Dict}

theorem reads_iff {field text : String} : reads event field text = true ↔ get event field = .str (lit text) := by
  rw [reads, beq_iff_eq, asStr_eq_some]

theorem neither_iff {field first second : String} : neither event field first second = false ↔
    get event field = .str (lit first) ∨ get event field = .str (lit second) := by
  rw [neither, Bool.and_eq_false_iff, Bool.not_eq_false', Bool.not_eq_false', reads_iff, reads_iff]

theorem get_id (host : Host) (texts : TextIds event) : get event "event_id" = .str (idText host event) := by
  obtain ⟨text, found⟩ := texts.id
  rw [idText, found]
  rfl

theorem get_ref (host : Host) (texts : TextIds event) (linking : isEvent "outcome" event = true ∨ isEvent "resolution" event = true) :
    get event "decision_event_id" = .str (refText host event) := by
  obtain ⟨text, found⟩ := texts.ref linking
  rw [refText, found]
  rfl

/-- A reference is by text. -/
theorem refersTo_iff (texts : TextIds event) (decided : TextIds decision)
    (linking : isEvent "outcome" event = true ∨ isEvent "resolution" event = true) :
    RefersTo event decision ↔ isEvent "decision" decision = true ∧ idText host decision = refText host event := by
  constructor
  · rintro ⟨isDecision, ref⟩
    rw [get_ref host texts linking, get_id host decided, Json.str.injEq] at ref
    exact ⟨isDecision, ref.symm⟩
  · rintro ⟨isDecision, named⟩
    refine ⟨isDecision, ?_⟩
    rw [get_ref host texts linking, get_id host decided, named]

theorem distinct_iff (texts : ∀ event ∈ events, TextIds event) :
    (events.map (fun event => get event "event_id")).Nodup ↔ (events.map (idText host)).Nodup := by
  have same : events.map (fun event => get event "event_id") = (events.map (idText host)).map Json.str := by
    rw [List.map_map]
    apply List.map_congr_left
    intro event member
    exact get_id host (texts event member)
  rw [same]
  exact List.nodup_map_iff (fun a b equal => Json.str.inj equal)

theorem shape_of_clean {trusted : Keyring} {previous : Option Str} {checkpoints : Checkpoints}
    (clean : Valid.IsClean host trusted previous checkpoints event) (resolution : isEvent "resolution" event = true) :
    resolutionShape host 0 event = .ok [] := by
  obtain ⟨type, _, _, clean⟩ := clean
  have typed := clean.typed
  simp only [isEvent, beq_iff_eq, asStr_eq_some] at resolution
  rw [resolution, Json.str.injEq, lit_inj] at typed
  have isType : type = .resolution := by
    revert typed
    cases type <;> decide
  subst isType
  exact clean.shape

/-- The value of a resolution that verified is one of the two documented. -/
theorem resolution_known {trusted : Keyring} {previous : Option Str} {checkpoints : Checkpoints}
    (clean : Valid.IsClean host trusted previous checkpoints event) (resolution : isEvent "resolution" event = true) :
    ∃ value ∈ knownResolutions, get event "resolution" = .str (lit value) := by
  have shape := shape_of_clean clean resolution
  simp only [resolutionShape, bind_eq_ok, pure, Except.pure, Except.ok.injEq, List.append_eq_nil_iff,
    issueIf_eq_nil, Bool.not_eq_false'] at shape
  obtain ⟨known, member, ⟨⟨rfl, -⟩, -⟩⟩ := shape
  exact inSet_eq_true.mp member

/-- A resolution that verified refers to a decision by a text. -/
theorem resolution_ref {trusted : Keyring} {previous : Option Str} {checkpoints : Checkpoints}
    (clean : Valid.IsClean host trusted previous checkpoints event) (resolution : isEvent "resolution" event = true) :
    (asStr (get event "decision_event_id")).isSome = true := by
  have shape := shape_of_clean clean resolution
  simp only [resolutionShape, bind_eq_ok, pure, Except.pure, Except.ok.injEq, List.append_eq_nil_iff,
    issueIf_eq_nil, notStr, Option.isNone_eq_false_iff] at shape
  obtain ⟨_, _, ⟨⟨_, ref⟩, -⟩⟩ := shape
  exact ref

end Texts

/-! ## The rules by decision id -/

section Equivalence

variable {host : Host} {events : List Dict} {report : AuditReport}

/-- What the audit relies on in a verified journal whose ids are texts. -/
structure Readable (event : Dict) : Prop where
  texts : TextIds event
  resolution : isEvent "resolution" event = true → ∃ value, get event "resolution" = .str value

theorem reported_iff (reports : Reports host events report) {decision : Dict} {i : Nat}
    {status : InvocationStatus} (distinct : (events.map (idText host)).Nodup) (texts : TextIds decision)
    (here : events[i]? = some decision) (isDecision : isEvent "decision" decision = true) :
    Reported report decision status ↔ statusIn host events (idText host decision) decision = status := by
  have found := firstDecision_of_unique distinct here isDecision
  have given : statusFor report (idText host decision) =
      some (statusIn host events (idText host decision) decision) := by
    rw [reports.status, found]
    rfl
  constructor
  · rintro ⟨id, named, stated⟩
    rw [get_id host texts, Json.str.injEq] at named
    rw [named, stated] at given
    rw [named]
    exact (Option.some.inj given).symm
  · intro same
    exact ⟨idText host decision, get_id host texts, by rw [given, same]⟩

/-- The decision an event of a sound history refers to. -/
theorem referenced_of_found {kind : String} (linking : kind = "outcome" ∨ kind = "resolution")
    (readable : ∀ event ∈ events, Readable event)
    (found : ∀ id, ∀ entry ∈ referring host kind events id, ∃ decision ∈ firstDecision host events id,
      decision.2 < entry.2) : Referenced kind events := by
  intro i event here isKind
  have member : (event, i) ∈ referring host kind events (refText host event) := mem_referring.mpr ⟨here, isKind, rfl⟩
  obtain ⟨decision, first, earlier⟩ := found _ _ member
  obtain ⟨there, isDecision, named⟩ := firstDecision_eq_some first
  have isLinking : isEvent "outcome" event = true ∨ isEvent "resolution" event = true := by
    rcases linking with rfl | rfl
    · exact .inl isKind
    · exact .inr isKind
  refine ⟨decision.2, earlier, decision.1, there, ?_⟩
  exact (refersTo_iff (readable _ (List.mem_of_getElem? here)).texts
    (readable _ (List.mem_of_getElem? there)).texts isLinking).mpr ⟨isDecision, named⟩

/-- The first decision with the id an event refers to stands before the event. -/
theorem found_of_referenced {kind : String} (linking : kind = "outcome" ∨ kind = "resolution")
    (readable : ∀ event ∈ events, Readable event) (distinct : (events.map (idText host)).Nodup)
    (referenced : Referenced kind events) {id : Str} {entry : Entry}
    (member : entry ∈ referring host kind events id) :
    ∃ decision ∈ firstDecision host events id, decision.2 < entry.2 ∧ RefersTo entry.1 decision.1 := by
  obtain ⟨here, isKind, named⟩ := mem_referring.mp member
  obtain ⟨j, earlier, decision, there, refers⟩ := referenced _ _ here isKind
  have isLinking : isEvent "outcome" entry.1 = true ∨ isEvent "resolution" entry.1 = true := by
    rcases linking with rfl | rfl
    · exact .inl isKind
    · exact .inr isKind
  have same : idText host decision = refText host entry.1 :=
    ((refersTo_iff (readable _ (List.mem_of_getElem? here)).texts
      (readable _ (List.mem_of_getElem? there)).texts isLinking).mp refers).2
  have first := firstDecision_of_unique distinct there refers.isDecision
  rw [same, named] at first
  exact ⟨(decision, j), first, earlier, refers⟩

theorem length_le_one_iff {α : Type} {l : List α} (nodup : l.Nodup) :
    l.length ≤ 1 ↔ ∀ a ∈ l, ∀ b ∈ l, a = b := by
  classical
  rw [← List.toFinset_card_of_nodup nodup, Finset.card_le_one]
  simp only [List.mem_toFinset]

theorem markerOf_eq_some {decision : Dict} {action key : Str} : markerOf decision = some (action, key) ↔
    get decision "action_name" = .str action ∧ get decision "idempotency_key" = .str key ∧ key ≠ [] := by
  unfold markerOf
  cases named : asStr (get decision "action_name") with
  | none =>
    refine iff_of_false (fun impossible => by cases impossible) ?_
    rintro ⟨found, -⟩
    rw [found] at named
    cases named
  | some a =>
    cases keyed : asStr (get decision "idempotency_key") with
    | none =>
      refine iff_of_false (fun impossible => by cases impossible) ?_
      rintro ⟨-, found, -⟩
      rw [found] at keyed
      cases keyed
    | some k =>
      rw [asStr_eq_some] at named keyed
      simp only [named, keyed, Json.str.injEq]
      by_cases empty : k = []
      · rw [if_pos empty]
        refine iff_of_false (fun impossible => by cases impossible) ?_
        rintro ⟨-, same, nonempty⟩
        exact nonempty (same ▸ empty)
      · rw [if_neg empty, Option.some.injEq, Prod.mk.injEq]
        constructor
        · rintro ⟨rfl, rfl⟩
          exact ⟨rfl, rfl, empty⟩
        · rintro ⟨rfl, rfl, -⟩
          exact ⟨rfl, rfl⟩

theorem successMarker_eq_some {id : Str} {entry : Entry} {action key : Str} :
    successMarker host events (id, entry) = some (action, key) ↔
      get entry.1 "action_name" = .str action ∧ get entry.1 "idempotency_key" = .str key ∧ key ≠ [] ∧
        statusIn host events id entry.1 = .succeeded := by
  rw [successMarker, Option.filter_eq_some_iff, markerOf_eq_some, beq_iff_eq]
  constructor
  · rintro ⟨⟨named, keyed, nonempty⟩, status⟩
    exact ⟨named, keyed, nonempty, status⟩
  · rintro ⟨named, keyed, nonempty, status⟩
    exact ⟨⟨named, keyed, nonempty⟩, status⟩

theorem onlySucceeded_iff {linked : List Entry} : onlySucceeded linked = true ↔
    ∃ outcome i, linked = [(outcome, i)] ∧ get outcome "status" = .str (lit "succeeded") := by
  rw [onlySucceeded, Option.any_eq_true]
  constructor
  · rintro ⟨outcome, only, succeeded⟩
    obtain ⟨i, alone⟩ := mem_of_onlyOutcome only
    exact ⟨outcome, i, alone, reads_iff.mp succeeded⟩
  · rintro ⟨outcome, i, rfl, succeeded⟩
    exact ⟨outcome, rfl, reads_iff.mpr succeeded⟩

theorem contradicted_eq_true {decision : Dict} {id : Str} : contradictedIn host events id decision = true ↔
    get decision "decision" = .str (lit "allowed") ∧ onlySucceeded (referring host "outcome" events id) = true ∧
      referring host "resolution" events id ≠ [] := by
  rw [contradictedIn, contradicted, Bool.and_eq_true, Bool.and_eq_true, reads_iff, and_assoc, resolutionValue,
    Option.isSome_map, List.getLast?_isSome]

/-! ## From the audit to the rules -/

theorem inOrder_of_refers (sound : Sound host events) (readable : ∀ event ∈ events, Readable event) {i j : Nat}
    {outcome decision : Dict} (here : events[i]? = some outcome) (isOutcome : isEvent "outcome" outcome = true)
    (there : events[j]? = some decision) (refers : RefersTo outcome decision) :
    OutcomeInOrder host (decision, j) (outcome, i) := by
  have same : idText host decision = refText host outcome :=
    ((refersTo_iff (readable _ (List.mem_of_getElem? here)).texts
      (readable _ (List.mem_of_getElem? there)).texts (.inl isOutcome)).mp refers).2
  have first := firstDecision_of_unique sound.unique there refers.isDecision
  obtain ⟨_, found, inOrder⟩ := (sound.outcomes (idText host decision)).2 (outcome, i)
    (mem_referring.mpr ⟨here, isOutcome, same.symm⟩)
  rw [first] at found
  cases found
  exact inOrder

theorem coherent_of_sound (reports : Reports host events report) (readable : ∀ event ∈ events, Readable event)
    (sound : Sound host events) : Coherent host events report where
  distinctIds := (distinct_iff (fun event member => (readable event member).texts)).mpr sound.unique
  outcomes := by
    apply referenced_of_found (.inl rfl) readable
    intro id entry member
    obtain ⟨decision, first, inOrder⟩ := (sound.outcomes id).2 entry member
    exact ⟨decision, first, inOrder.later⟩
  resolutions := by
    apply referenced_of_found (.inr rfl) readable
    intro id entry member
    exact (sound.resolutions id entry member).1
  allowed := by
    intro outcome inEvents isOutcome decision inHistory refers
    obtain ⟨i, here⟩ := List.mem_iff_getElem?.mp inEvents
    obtain ⟨j, there⟩ := List.mem_iff_getElem?.mp inHistory
    exact reads_iff.mp (inOrder_of_refers sound readable here isOutcome there refers).allowed
  identity := by
    intro outcome inEvents isOutcome decision inHistory refers
    obtain ⟨i, here⟩ := List.mem_iff_getElem?.mp inEvents
    obtain ⟨j, there⟩ := List.mem_iff_getElem?.mp inHistory
    exact (inOrder_of_refers sound readable here isOutcome there refers).identity
  oneOutcome := by
    intro i j outcome other here there isOutcome isOther same
    have ids : refText host other = refText host outcome := by rw [refText, refText, same]
    have first : (outcome, i) ∈ referring host "outcome" events (refText host outcome) :=
      mem_referring.mpr ⟨here, isOutcome, rfl⟩
    have second : (other, j) ∈ referring host "outcome" events (refText host outcome) :=
      mem_referring.mpr ⟨there, isOther, ids⟩
    have equal := (length_le_one_iff (nodup_referring "outcome")).mp (sound.outcomes _).1 _ first _ second
    exact congrArg Prod.snd equal
  statuses := by
    intro outcome inEvents isOutcome
    obtain ⟨i, here⟩ := List.mem_iff_getElem?.mp inEvents
    obtain ⟨_, _, inOrder⟩ := (sound.outcomes (refText host outcome)).2 (outcome, i)
      (mem_referring.mpr ⟨here, isOutcome, rfl⟩)
    exact neither_iff.mp inOrder.status
  decisions := by
    intro decision inEvents isDecision
    obtain ⟨i, here⟩ := List.mem_iff_getElem?.mp inEvents
    have first := firstDecision_of_unique sound.unique here isDecision
    exact neither_iff.mp (sound.decisions _ _ first).1
  agreement := by
    intro resolution inEvents other inHistory isResolution isOther same
    obtain ⟨i, here⟩ := List.mem_iff_getElem?.mp inEvents
    obtain ⟨j, there⟩ := List.mem_iff_getElem?.mp inHistory
    have ids : refText host other = refText host resolution := by rw [refText, refText, same]
    have equal := (sound.resolutions (refText host resolution) (resolution, i)
      (mem_referring.mpr ⟨here, isResolution, rfl⟩)).2 (other, j) (mem_referring.mpr ⟨there, isOther, ids⟩)
    obtain ⟨value, first⟩ := (readable _ inEvents).resolution isResolution
    obtain ⟨value', second⟩ := (readable _ inHistory).resolution isOther
    have values : value = value' := by simpa [resolutionText, first, second, pyStr] using equal
    rw [first, second, values]
  settled := by
    intro i outcome here isOutcome succeeded _ resolution inEvents isResolution same
    have member : (outcome, i) ∈ referring host "outcome" events (refText host outcome) :=
      mem_referring.mpr ⟨here, isOutcome, rfl⟩
    obtain ⟨few, each⟩ := sound.outcomes (refText host outcome)
    obtain ⟨decision, first, inOrder⟩ := each _ member
    have alone : referring host "outcome" events (refText host outcome) = [(outcome, i)] := by
      obtain ⟨entry, one⟩ := List.length_eq_one_iff.mp (Nat.le_antisymm few (List.length_pos_of_mem member))
      rw [one] at member ⊢
      rw [List.mem_singleton.mp member]
    obtain ⟨j, there⟩ := List.mem_iff_getElem?.mp inEvents
    have ids : refText host resolution = refText host outcome := by rw [refText, refText, same]
    have contradiction : contradictedIn host events (refText host outcome) decision.1 = true := by
      refine contradicted_eq_true.mpr ⟨reads_iff.mp inOrder.allowed, onlySucceeded_iff.mpr ⟨outcome, i, alone, succeeded⟩, ?_⟩
      exact List.ne_nil_of_mem (a := (resolution, j)) (mem_referring.mpr ⟨there, isResolution, ids⟩)
    rw [(sound.decisions _ _ first).2] at contradiction
    cases contradiction
  keys := by
    intro i j decision other here there isDecision isOther action key nonempty named otherNamed keyed otherKeyed one two
    have readsDecision := (readable _ (List.mem_of_getElem? here)).texts
    have readsOther := (readable _ (List.mem_of_getElem? there)).texts
    have first := firstDecision_of_unique sound.unique here isDecision
    have second := firstDecision_of_unique sound.unique there isOther
    have status := (reported_iff reports sound.unique readsDecision here isDecision).mp one
    have otherStatus := (reported_iff reports sound.unique readsOther there isOther).mp two
    have ids := sound.markers _ _ first _ _ second (action, key)
      (successMarker_eq_some.mpr ⟨named, keyed, nonempty, status⟩)
      (successMarker_eq_some.mpr ⟨otherNamed, otherKeyed, nonempty, otherStatus⟩)
    exact index_unique sound.unique here there ids

/-! ## From the rules to the audit -/

theorem sound_of_coherent (reports : Reports host events report) (readable : ∀ event ∈ events, Readable event)
    (coherent : Coherent host events report) : Sound host events := by
  have unique : (events.map (idText host)).Nodup :=
    (distinct_iff (fun event member => (readable event member).texts)).mp coherent.distinctIds
  have outcomes : ∀ id, OutcomesInOrder host (firstDecision host events id) (referring host "outcome" events id) := by
    intro id
    constructor
    · rw [length_le_one_iff (nodup_referring "outcome")]
      intro entry member other second
      obtain ⟨here, isOutcome, named⟩ := mem_referring.mp member
      obtain ⟨there, isOther, otherNamed⟩ := mem_referring.mp second
      have same : get entry.1 "decision_event_id" = get other.1 "decision_event_id" := by
        rw [get_ref host (readable _ (List.mem_of_getElem? here)).texts (.inl isOutcome),
          get_ref host (readable _ (List.mem_of_getElem? there)).texts (.inl isOther), named, otherNamed]
      have index := coherent.oneOutcome _ _ _ _ here there isOutcome isOther same
      rw [index, there] at here
      exact Prod.ext (Option.some.inj here).symm index
    · intro entry member
      obtain ⟨here, isOutcome, -⟩ := mem_referring.mp member
      obtain ⟨decision, first, earlier, refers⟩ :=
        found_of_referenced (.inl rfl) readable unique coherent.outcomes member
      have inEvents := List.mem_of_getElem? here
      have inHistory := List.mem_of_getElem? (firstDecision_eq_some first).1
      exact ⟨decision, first, earlier, reads_iff.mpr (coherent.allowed _ inEvents isOutcome _ inHistory refers),
        coherent.identity _ inEvents isOutcome _ inHistory refers, neither_iff.mpr (coherent.statuses _ inEvents isOutcome)⟩
  refine ⟨unique, ?_, outcomes, ?_, ?_⟩
  · intro id entry member
    obtain ⟨here, isResolution, named⟩ := mem_referring.mp member
    obtain ⟨decision, first, earlier, -⟩ := found_of_referenced (.inr rfl) readable unique coherent.resolutions member
    refine ⟨⟨decision, first, earlier⟩, ?_⟩
    intro other second
    obtain ⟨there, isOther, otherNamed⟩ := mem_referring.mp second
    have inEvents := List.mem_of_getElem? here
    have inHistory := List.mem_of_getElem? there
    have same : get entry.1 "decision_event_id" = get other.1 "decision_event_id" := by
      rw [get_ref host (readable _ inEvents).texts (.inr isResolution),
        get_ref host (readable _ inHistory).texts (.inr isOther), named, otherNamed]
    rw [resolutionText, resolutionText, coherent.agreement _ inEvents _ inHistory isResolution isOther same]
  · intro id entry first
    obtain ⟨here, isDecision, named⟩ := firstDecision_eq_some first
    refine ⟨neither_iff.mpr (coherent.decisions _ (List.mem_of_getElem? here) isDecision), ?_⟩
    rw [← Bool.not_eq_true, contradicted_eq_true]
    rintro ⟨-, succeeded, resolved⟩
    obtain ⟨outcome, i, alone, status⟩ := onlySucceeded_iff.mp succeeded
    have member : (outcome, i) ∈ referring host "outcome" events id := by
      rw [alone]
      exact List.mem_singleton_self _
    obtain ⟨there, isOutcome, outcomeNamed⟩ := mem_referring.mp member
    obtain ⟨resolution, inResolutions⟩ := List.exists_mem_of_ne_nil _ resolved
    obtain ⟨resolvedHere, isResolution, resolutionNamed⟩ := mem_referring.mp inResolutions
    have inEvents := List.mem_of_getElem? there
    have ref := get_ref host (readable _ inEvents).texts (.inl isOutcome)
    refine coherent.settled i outcome there isOutcome status ?_ resolution.1 (List.mem_of_getElem? resolvedHere) isResolution ?_
    · intro j other otherHere isOther same
      exact coherent.oneOutcome j i other outcome otherHere there isOther isOutcome same
    · rw [ref, get_ref host (readable _ (List.mem_of_getElem? resolvedHere)).texts (.inr isResolution),
        outcomeNamed, resolutionNamed]
  · intro id entry first other second there marker one two
    obtain ⟨action, key⟩ := marker
    obtain ⟨named, keyed, nonempty, status⟩ := successMarker_eq_some.mp one
    obtain ⟨otherNamed, otherKeyed, -, otherStatus⟩ := successMarker_eq_some.mp two
    obtain ⟨here, isDecision, isId⟩ := firstDecision_eq_some first
    obtain ⟨otherHere, isOther, isOtherId⟩ := firstDecision_eq_some there
    rw [← isId] at status
    rw [← isOtherId] at otherStatus
    have index := coherent.keys _ _ _ _ here otherHere isDecision isOther action key nonempty named otherNamed keyed
      otherKeyed
      ((reported_iff reports unique (readable _ (List.mem_of_getElem? here)).texts here isDecision).mpr status)
      ((reported_iff reports unique (readable _ (List.mem_of_getElem? otherHere)).texts otherHere isOther).mpr
        otherStatus)
    rw [index, otherHere] at here
    rw [← isId, ← isOtherId, ← Option.some.inj here]

end Equivalence

/-! ## Verified journals -/

section Snapshots

variable {host : Host} {source : Source} {keys : List PublicKey} {snapshot : Result × List Dict}

theorem file_of_snapshot (loaded : loadJournalSnapshot host source keys id = .ok snapshot)
    (valid : snapshot.1.valid = true) :
    ∃ content, source = .readable content none ∧ Valid.ValidFile host (toKeyring host keys) content snapshot.2 := by
  simp only [loadJournalSnapshot, List.map_id, bind_eq_ok, pure, Except.pure, Except.ok.injEq] at loaded
  obtain ⟨read, verified, rfl⟩ := loaded
  exact Valid.readAndVerify_sound verified valid

theorem isClean_of_snapshot (loaded : loadJournalSnapshot host source keys id = .ok snapshot)
    (valid : snapshot.1.valid = true) {event : Dict} (member : event ∈ snapshot.2) :
    ∃ previous checkpoints, Valid.IsClean host (toKeyring host keys) previous checkpoints event := by
  obtain ⟨content, -, file⟩ := file_of_snapshot loaded valid
  exact Valid.isClean_of_mem file.clean member

/-- The audit of a verified journal returns. -/
theorem auditVerifiedSnapshot_reports (loaded : loadJournalSnapshot host source keys id = .ok snapshot)
    (valid : snapshot.1.valid = true) :
    ∃ report, auditVerifiedSnapshot host snapshot = .ok report ∧ Reports host snapshot.2 report := by
  have fielded : ∀ event ∈ snapshot.2, Fielded event := by
    intro event member
    obtain ⟨_, _, isClean⟩ := isClean_of_snapshot loaded valid member
    exact fielded_of_clean isClean
  obtain ⟨report, audited, reports⟩ := @auditEvents_reports host _ fielded
  refine ⟨report, ?_, reports⟩
  rw [auditVerifiedSnapshot, if_pos valid, audited]

end Snapshots

/-- The audit of a verified journal whose identifiers are texts returns, and has no issue
exactly when the history is coherent. -/
theorem audit_clean_iff {host : Host} {source : Source} {keys : List PublicKey} {snapshot : Result × List Dict}
    (loaded : loadJournalSnapshot host source keys id = .ok snapshot) (valid : snapshot.1.valid = true)
    (texts : ∀ event ∈ snapshot.2, TextIds event) :
    ∃ report, auditVerifiedSnapshot host snapshot = .ok report ∧
      (report.issues = [] ↔ Coherent host snapshot.2 report) := by
  have readable : ∀ event ∈ snapshot.2, Readable event := by
    intro event member
    refine ⟨texts event member, ?_⟩
    intro resolution
    obtain ⟨_, _, isClean⟩ := isClean_of_snapshot loaded valid member
    obtain ⟨value, -, known⟩ := resolution_known isClean resolution
    exact ⟨lit value, known⟩
  obtain ⟨report, audited, reports⟩ := auditVerifiedSnapshot_reports loaded valid
  refine ⟨report, audited, ?_⟩
  rw [reports.clean]
  exact ⟨coherent_of_sound reports readable, sound_of_coherent reports readable⟩

/-! ## A payment that was retried -/

/-- For the payloads of five events, by their lengths: the digest, and the signature with
its base64 text. -/
def ledgerSeals : List (Nat × Bytes × Bytes × Str) :=
  [
    (419, [183, 233, 3, 151, 78, 71, 185, 62, 132, 63, 166, 237, 51, 186, 220, 129, 92, 244, 164, 219, 99, 9, 164,
      188, 255, 79, 66, 11, 156, 192, 222, 221],
      [167, 124, 208, 247, 85, 130, 57, 181, 164, 94, 90, 114, 130, 59, 202, 211, 198, 59, 55, 160, 250, 32,
      117, 170, 178, 34, 154, 169, 229, 50, 65, 104, 226, 247, 79, 62, 131, 209, 180, 43, 161, 95, 118, 13,
      206, 167, 64, 6, 212, 125, 236, 166, 169, 165, 241, 197, 181, 162, 152, 43, 17, 210, 30, 12],
      lit "p3zQ91WCObWkXlpygjvK08Y7N6D6IHWqsiKaqeUyQWji908+g9G0K6Ffdg3Op0AG1H3spqml8cW1opgrEdIeDA=="),
    (438, [13, 118, 148, 32, 109, 80, 191, 221, 148, 157, 121, 128, 231, 198, 112, 122, 98, 75, 17, 120, 46, 45,
      126, 210, 69, 240, 212, 50, 244, 53, 139, 215],
      [62, 10, 207, 149, 127, 151, 207, 222, 146, 72, 223, 252, 71, 210, 133, 138, 105, 19, 91, 86, 38, 104,
      244, 1, 234, 128, 154, 98, 207, 69, 241, 85, 141, 233, 70, 42, 61, 67, 79, 138, 98, 214, 198, 248, 232,
      238, 12, 173, 104, 20, 105, 44, 156, 240, 159, 244, 225, 210, 67, 159, 117, 213, 145, 6],
      lit "PgrPlX+Xz96SSN/8R9KFimkTW1YmaPQB6oCaYs9F8VWN6UYqPUNPimLWxvjo7gytaBRpLJzwn/Th0kOfddWRBg=="),
    (389, [191, 78, 169, 65, 105, 244, 183, 148, 182, 107, 84, 85, 133, 41, 253, 213, 101, 120, 134, 116, 66, 254,
      149, 87, 136, 32, 140, 243, 114, 202, 110, 255],
      [183, 127, 207, 192, 83, 240, 254, 40, 100, 142, 11, 235, 201, 71, 102, 106, 174, 177, 156, 191, 94, 26,
      224, 151, 12, 45, 75, 242, 245, 67, 172, 214, 199, 22, 167, 250, 220, 39, 235, 39, 200, 118, 170, 96,
      120, 179, 75, 184, 239, 213, 170, 231, 216, 198, 96, 15, 155, 64, 25, 44, 75, 95, 41, 2],
      lit "t3/PwFPw/ihkjgvryUdmaq6xnL9eGuCXDC1L8vVDrNbHFqf63CfrJ8h2qmB4s0u479Wq59jGYA+bQBksS18pAg=="),
    (373, [148, 28, 142, 228, 198, 121, 160, 162, 61, 235, 141, 176, 172, 54, 242, 126, 159, 119, 175, 147, 1,
      182, 184, 59, 19, 199, 11, 109, 146, 134, 77, 238],
      [107, 173, 75, 160, 12, 214, 24, 232, 107, 156, 41, 171, 113, 151, 51, 176, 26, 26, 37, 197, 219, 162,
      180, 184, 171, 25, 216, 58, 158, 115, 34, 19, 114, 101, 217, 163, 144, 28, 152, 172, 69, 81, 37, 92,
      120, 165, 239, 93, 184, 198, 219, 145, 65, 193, 65, 55, 140, 24, 202, 104, 163, 120, 169, 5],
      lit "a61LoAzWGOhrnCmrcZczsBoaJcXborS4qxnYOp5zIhNyZdmjkByYrEVRJVx4pe9duMbbkUHBQTeMGMpoo3ipBQ=="),
    (387, [199, 154, 157, 226, 85, 142, 113, 17, 234, 4, 175, 182, 133, 239, 175, 186, 68, 94, 160, 210, 253, 118,
      133, 139, 220, 104, 28, 129, 178, 222, 168, 109],
      [193, 107, 200, 153, 122, 147, 48, 54, 48, 200, 151, 137, 56, 225, 209, 141, 103, 88, 128, 146, 239,
      159, 25, 192, 18, 159, 110, 225, 92, 218, 105, 139, 228, 84, 45, 253, 69, 149, 223, 71, 209, 154, 11,
      43, 37, 115, 203, 227, 120, 189, 223, 69, 65, 198, 11, 244, 23, 5, 57, 169, 206, 25, 54, 12],
      lit "wWvImXqTMDYwyJeJOOHRjWdYgJLvnxnAEp9u4VzaaYvkVC39RZXfR9GaCyslc8vjeL3fRUHGC/QXBTmpzhk2DA==")]

def ledgerHost : Host :=
  Host.plain
    (fun bytes => ((ledgerSeals.find? (fun entry => entry.1 == bytes.length)).map (fun entry => entry.2.1)).getD
      Preserve.sampleFingerprint)
    (fun text => (ledgerSeals.find? (fun entry => entry.2.2.2 == text)).map (fun entry => entry.2.2.1))

def ledgerKey : PublicKey where
  raw := Preserve.sampleKey.raw
  accepts := fun signature digest => ledgerSeals.any (fun entry => entry.2.2.1 == signature && entry.2.1 == digest)

def ledgerDigest (n : Nat) : Bytes := (ledgerSeals[n]?.map (fun entry => entry.2.1)).getD []

/-- The hash the event of this index is built on. -/
def ledgerPrevious : Nat → Option Str
  | 0 => none
  | n + 1 => some (hex (ledgerDigest n))

def ledgerContract : ActionContract := ⟨lit "pay", lit "act-7", lit "c0ffee", lit "high", lit "required"⟩

def ledgerStamp (n : Nat) : Stamp :=
  ⟨[101, 48 + n], lit "2026-01-05T09:3" ++ [48 + n] ++ lit ":00.000000Z"⟩

/-- A payment is decided, fails, is confirmed as completed, is then recorded as succeeded,
and confirmed as not completed. -/
def ledgerRecords : List (String × Dict) :=
  [("decision",
      [(lit "approval_mode", .str (lit "required")), (lit "approval_reason", .str (lit "ok")),
        (lit "decision", .str (lit "allowed")), (lit "idempotency_key", .str (lit "k1")),
        (lit "input_hash", .str (lit "ab12")), (lit "parameter_retention", .list []),
        (lit "redacted_input_summary", .str (lit "\x7b\x7d")), (lit "risk", .str (lit "high"))]),
    ("outcome",
      [(lit "decision_event_id", .str (lit "e0")), (lit "exception_type", .str (lit "TimeoutError")),
        (lit "observed_result_type", .null), (lit "sanitized_error_summary", .str (lit "timed out")),
        (lit "status", .str (lit "failed"))]),
    ("resolution",
      [(lit "decision_event_id", .str (lit "e0")), (lit "note", .str (lit "settled at the bank")),
        (lit "resolution", .str (lit "confirmed_completed"))]),
    ("outcome",
      [(lit "decision_event_id", .str (lit "e0")), (lit "observed_result_type", .str (lit "dict")),
        (lit "status", .str (lit "succeeded"))]),
    ("resolution",
      [(lit "decision_event_id", .str (lit "e0")), (lit "note", .str (lit "wrong booking")),
        (lit "resolution", .str (lit "confirmed_not_completed"))])]

def ledgerSigner : Signer where
  keyId := Preserve.sampleSigner.keyId
  sign := fun digest => match ledgerSeals.find? (fun entry => entry.2.1 == digest) with
    | some entry => .ok entry.2.2.2
    | none => .error .typeError

def ledgerPayload (n : Nat) : Dict :=
  let record := ledgerRecords[n]?.getD ("", [])
  recordPayload ledgerSigner (ledgerStamp n) ledgerContract record.1 (ledgerPrevious n) record.2

/-- Each record sealed by its digest and signature. -/
def ledgerEvent (n : Nat) : Dict :=
  Members.put (lit "signature") (.str ((ledgerSeals[n]?.map (fun entry => entry.2.2.2)).getD []))
    (Members.put (lit "event_hash") (.str (hex (ledgerDigest n))) (ledgerPayload n))

/-- The first events of the journal. -/
def ledger (n : Nat) : List Dict := (List.range n).map ledgerEvent

@[irreducible] def ledgerLine (n : Nat) : Bytes := (encodeEvent ledgerHost (ledgerEvent n)).toOption.getD []

theorem ledger_verified : ∀ n < 5, verifyEvent ledgerHost (ledgerEvent n) 0 (ledgerPrevious n)
    (toKeyring ledgerHost [ledgerKey]) [] = .ok [] := by
  decide +kernel

theorem ledger_encoded : ∀ n < 5, encodeEvent ledgerHost (ledgerEvent n) = .ok (ledgerLine n) := by
  decide +kernel

theorem ledger_linked : ∀ n < 5, Journal.Tail.lastHash (ledger n) = ledgerPrevious n ∧
    isCheckpoint (ledgerEvent n) = false := by
  decide +kernel

theorem dictOk_ledgerEvent (host : Host) (n : Nat) : DictOk host (ledgerEvent n) := by
  have values : ∀ record ∈ ledgerRecords, ∀ p ∈ record.2, p.2.Ok host := by
    simp only [ledgerRecords, List.forall_mem_cons, List.not_mem_nil, false_implies, Json.Ok, ItemsOk,
      implies_true, and_self]
  apply dictOk_put _ _ (by simp [Json.Ok])
  apply dictOk_put _ _ (by simp [Json.Ok])
  apply dictOk_recordPayload
  cases found : ledgerRecords[n]? with
  | none => exact List.forall_mem_nil _
  | some record => exact values record (List.mem_of_getElem? found)

theorem checkpointsAfter_ledger {n : Nat} (inside : n ≤ 5) : Extend.checkpointsAfter [] (ledger n) = [] := by
  induction n with
  | zero => rfl
  | succ n ih =>
    have other := (ledger_linked n (by omega)).2
    rw [ledger, List.range_succ, List.map_append, Extend.checkpointsAfter, List.foldl_append]
    have before := ih (by omega)
    rw [ledger, Extend.checkpointsAfter] at before
    simp [before, noteCheckpoint, other]

/-- The first events, each on a line of its own, are a valid file. -/
theorem validFile_ledger {n : Nat} (inside : n ≤ 5) : ∃ content,
    Valid.ValidFile ledgerHost (toKeyring ledgerHost [ledgerKey]) content (ledger n) ∧ Lines.fragment content = [] := by
  induction n with
  | zero => exact ⟨[], ⟨.nil, trivial, by simp [Valid.Covered, ledger]⟩, rfl⟩
  | succ n ih =>
    obtain ⟨content, file, ended⟩ := ih (by omega)
    obtain ⟨linked, other⟩ := ledger_linked n (by omega)
    have clean := verifyEvent_eq_nil.mp (ledger_verified n (by omega))
    rw [← linked, ← checkpointsAfter_ledger (by omega : n ≤ 5)] at clean
    have written := Extend.validFile_written file (by rw [ended]; exact Lines.blank_nil)
      (dictOk_ledgerEvent _ n) (ledger_encoded n (by omega)) clean (by simp [other])
    refine ⟨content ++ (ledgerLine n ++ [10]), ?_, ?_⟩
    · rw [ledger, List.range_succ, List.map_append]
      exact written
    · rw [← List.append_assoc]
      exact Custody.fragment_newline _

theorem loaded_ledger {n : Nat} (inside : n ≤ 5) : ∃ content result,
    loadJournalSnapshot ledgerHost (.readable content none) [ledgerKey] id = .ok (result, ledger n) ∧
      result.valid = true := by
  obtain ⟨content, file, -⟩ := validFile_ledger inside
  obtain ⟨result, verified, valid, -⟩ := Valid.readAndVerify_complete file
  refine ⟨content, result, ?_, valid⟩
  simp only [loadJournalSnapshot, verified, bind, Except.bind, pure, Except.pure, List.map_id]

/-- What the audit says of the first events: the number of issues, and the statuses. -/
def auditedLedger (n : Nat) : Except PyError (Nat × List (Str × InvocationStatus)) :=
  (auditEvents ledgerHost (ledger n)).map (fun report => (report.issues.length,
    report.invocations.map (fun invocation => (invocation.decisionEventId, invocation.status))))

theorem report_of_audited {n issues : Nat} {statuses : List (Str × InvocationStatus)} {result : Result}
    (valid : result.valid = true) (audited : auditedLedger n = .ok (issues, statuses)) :
    ∃ report, auditVerifiedSnapshot ledgerHost (result, ledger n) = .ok report ∧ report.issues.length = issues ∧
      report.invocations.map (fun invocation => (invocation.decisionEventId, invocation.status)) = statuses := by
  unfold auditedLedger at audited
  rcases ran : auditEvents ledgerHost (ledger n) with error | report
  · rw [ran] at audited
    cases audited
  · rw [ran, Except.map, Except.ok.injEq, Prod.mk.injEq] at audited
    exact ⟨report, by rw [auditVerifiedSnapshot, if_pos valid, ran], audited⟩

theorem textIds_ledger : ∀ n < 5, TextIds (ledgerEvent n) := by
  have ids : ∀ n < 5, (asStr (get (ledgerEvent n) "event_id")).isSome = true ∧
      (isEvent "decision" (ledgerEvent n) = true ∨
        (asStr (get (ledgerEvent n) "decision_event_id")).isSome = true) := by
    decide +kernel
  intro n inside
  obtain ⟨id, ref⟩ := ids n inside
  constructor
  · obtain ⟨text, found⟩ := Option.isSome_iff_exists.mp id
    exact ⟨text, asStr_eq_some.mp found⟩
  · intro linking
    rcases ref with decision | ref
    · rw [isEvent_unique decision (by decide), isEvent_unique decision (by decide)] at linking
      simp at linking
    · obtain ⟨text, found⟩ := Option.isSome_iff_exists.mp ref
      exact ⟨text, asStr_eq_some.mp found⟩

/-- The payment up to its first resolution. -/
theorem audit_clean_sample : ∃ result report, auditVerifiedSnapshot ledgerHost (result, ledger 3) = .ok report ∧
    (report.issues = [] ↔ Coherent ledgerHost (ledger 3) report) := by
  obtain ⟨content, result, loaded, valid⟩ := loaded_ledger (by decide : 3 ≤ 5)
  have texts : ∀ event ∈ ledger 3, TextIds event := by
    intro event member
    obtain ⟨n, inside, rfl⟩ := List.mem_map.mp member
    exact textIds_ledger n (by have := List.mem_range.mp inside; omega)
  exact ⟨result, audit_clean_iff loaded valid texts⟩

end Tesera.Audit.Rules
