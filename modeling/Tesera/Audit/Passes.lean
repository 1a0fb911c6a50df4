import Tesera.Audit.Linking

/-!
What the passes of the audit find: when each of them has nothing to report, and the status
it gives to the decisions.
-/

namespace Tesera.Audit.Passes
open Tesera.Text Tesera.Text.Unicode Tesera.Python.Value
open Tesera.Journal.Idempotency Tesera.Verification.Event Tesera.Audit.Report Tesera.Audit.Linking

variable {host : Host} {events : List Dict} {id : Str}

/-! ## Lists -/

/-- A check of each item in turn returns, and finds nothing when each item is in order. -/
theorem gather_spec {α β : Type} {check : α → Except PyError (List β)} {P : α → Prop} {xs : List α}
    (each : ∀ x ∈ xs, ∃ found, check x = .ok found ∧ (found = [] ↔ P x)) :
    ∃ found, gather check xs = .ok found ∧ (found = [] ↔ ∀ x ∈ xs, P x) := by
  induction xs with
  | nil => exact ⟨[], rfl, by simp⟩
  | cons x xs ih =>
    obtain ⟨first, checked, meaning⟩ := each x List.mem_cons_self
    obtain ⟨rest, others, meanings⟩ := ih (fun y member => each y (List.mem_cons_of_mem x member))
    refine ⟨first ++ rest, by simp only [gather, checked, others, bind, Except.bind, pure, Except.pure], ?_⟩
    rw [List.append_eq_nil_iff, meaning, meanings, List.forall_mem_cons]

theorem issueWhen_eq_nil {bad : Bool} {issue : AuditIssue} : issueWhen bad issue = [] ↔ bad = false := by
  cases bad <;> simp [issueWhen]

/-- The items of a dictionary of lists, where an empty list passes. -/
theorem forall_items {α : Type} {m : Ordered (List α)} (distinct : m.Distinct) {Q : Str → List α → Prop}
    (empty : ∀ id, Q id []) : (∀ p ∈ m, Q p.1 p.2) ↔ ∀ id, Q id (m.linked id) := by
  constructor
  · intro all id
    cases found : m.find id with
    | none =>
      have nothing : m.linked id = [] := by rw [Ordered.linked, found, Option.getD_none]
      rw [nothing]
      exact empty id
    | some values =>
      have here : m.linked id = values := by rw [Ordered.linked, found, Option.getD_some]
      rw [here]
      exact all _ (Ordered.mem_of_find found)
  · intro all p member
    have here : m.linked p.1 = p.2 := by
      rw [Ordered.linked, Ordered.find_of_mem distinct member, Option.getD_some]
    rw [← here]
    exact all p.1

theorem disagree_eq_false {texts : List Str} : disagree texts = false ↔ ∀ a ∈ texts, ∀ b ∈ texts, a = b := by
  rw [disagree, decide_eq_false_iff_not, not_lt, ← List.card_toFinset, Finset.card_le_one]
  simp only [List.mem_toFinset]

theorem nodup_filterMap_iff {α β : Type} {f : α → Option β} {l : List α} (distinct : l.Nodup) :
    (l.filterMap f).Nodup ↔ ∀ a ∈ l, ∀ b ∈ l, ∀ value, f a = some value → f b = some value → a = b := by
  constructor
  · intro nodup
    induction l with
    | nil =>
      intro a member
      cases member
    | cons x l ih =>
      obtain ⟨fresh, rest⟩ := List.nodup_cons.mp distinct
      have later : ∀ b ∈ l, ∀ value, f x = some value → f b ≠ some value := by
        intro b member value first second
        rw [List.filterMap_cons_some first] at nodup
        exact (List.nodup_cons.mp nodup).1 (List.mem_filterMap.mpr ⟨b, member, second⟩)
      have others : (l.filterMap f).Nodup := by
        cases first : f x with
        | none => rwa [List.filterMap_cons_none first] at nodup
        | some value =>
          rw [List.filterMap_cons_some first] at nodup
          exact (List.nodup_cons.mp nodup).2
      intro a inA b inB value valueA valueB
      rcases List.mem_cons.mp inA with firstA | laterA
      · rcases List.mem_cons.mp inB with firstB | laterB
        · rw [firstA, firstB]
        · rw [firstA] at valueA
          exact absurd valueB (later b laterB value valueA)
      · rcases List.mem_cons.mp inB with firstB | laterB
        · rw [firstB] at valueB
          exact absurd valueA (later a laterA value valueB)
        · exact ih rest others a laterA b laterB value valueA valueB
  · intro injective
    rw [List.Nodup, List.pairwise_filterMap]
    apply distinct.imp_of_mem
    intro a b inA inB apart value valueA other valueB same
    rw [← same] at valueB
    exact apart (injective a inA b inB value valueA valueB)

theorem filterMap_concat {α β : Type} (f : α → Option β) (l : List α) (x : α) :
    (l ++ [x]).filterMap f = l.filterMap f ++ (f x).toList := by
  rw [List.filterMap_append]
  cases value : f x with
  | none => rw [List.filterMap_cons_none value]; rfl
  | some y => rw [List.filterMap_cons_some value]; rfl

theorem nodup_concat_option {α : Type} {l : List α} {x : Option α} :
    (l ++ x.toList).Nodup ↔ l.Nodup ∧ ∀ y ∈ x, y ∉ l := by
  cases x with
  | none => simp
  | some y =>
    simp only [Option.toList_some, Option.mem_some_iff, forall_eq', List.nodup_append, List.nodup_singleton,
      List.mem_singleton, forall_eq, true_and, and_congr_right_iff]
    exact fun _ => ⟨fun apart member => apart y member rfl, fun fresh a member same => fresh (same ▸ member)⟩

/-! ## Resolutions and outcomes -/

/-- What holds of the resolutions of a decision without an issue. -/
def ResolutionsInOrder (host : Host) (decision : Option Entry) (linked : List Entry) : Prop :=
  ∀ entry ∈ linked, (∃ found ∈ decision, found.2 < entry.2) ∧
    ∀ other ∈ linked, resolutionText host entry.1 = resolutionText host other.1

theorem resolutionIssues_eq_nil {decisions : Ordered Entry} {linked : Str × List Entry} :
    resolutionIssues host decisions linked = [] ↔ ResolutionsInOrder host (decisions.find linked.1) linked.2 := by
  unfold resolutionIssues
  cases found : decisions.find linked.1 with
  | none =>
    rw [List.map_eq_nil_iff, List.eq_nil_iff_forall_not_mem]
    constructor
    · intro nothing entry member
      exact absurd member (nothing entry)
    · intro ordered entry member
      obtain ⟨_, impossible, _⟩ := (ordered entry member).1
      cases impossible
  | some decision =>
    simp only [List.append_eq_nil_iff, issueWhen_eq_nil, disagree_eq_false, List.flatMap_eq_nil_iff,
      decide_eq_false_iff_not, not_le, List.forall_mem_map]
    constructor
    · rintro ⟨agree, later⟩ entry member
      exact ⟨⟨decision, rfl, later entry member⟩, agree entry member⟩
    · intro ordered
      refine ⟨fun entry member => (ordered entry member).2, ?_⟩
      intro entry member
      obtain ⟨_, same, later⟩ := (ordered entry member).1
      cases same
      exact later

/-- What holds of an outcome of a decision without an issue. -/
structure OutcomeInOrder (host : Host) (decision outcome : Entry) : Prop where
  later : decision.2 < outcome.2
  allowed : reads decision.1 "decision" "allowed" = true
  identity : ∀ field ∈ identityFields, pyEq host (get outcome.1 field) (get decision.1 field) = true
  status : neither outcome.1 "status" "succeeded" "failed" = false

theorem mismatchIssues_spec {decision outcome : Dict} {field : String} (mine : has outcome field = true)
    (theirs : has decision field = true) :
    ∃ found, mismatchIssues host decision outcome field = .ok found ∧
      (found = [] ↔ pyEq host (get outcome field) (get decision field) = true) := by
  simp only [mismatchIssues, item_of_has mine, item_of_has theirs, bind, Except.bind, pure, Except.pure]
  exact ⟨_, rfl, by rw [issueWhen_eq_nil, Bool.not_eq_false']⟩

theorem outcomeIssues_spec {decision outcome : Entry} (decided : Fielded decision.1)
    (isDecision : isEvent "decision" decision.1 = true) (fielded : Fielded outcome.1)
    (isOutcome : isEvent "outcome" outcome.1 = true) :
    ∃ found, outcomeIssues host decision outcome = .ok found ∧
      (found = [] ↔ OutcomeInOrder host decision outcome) := by
  have theirs := @Fielded.of_type _ .decision decided isDecision
  have mine := @Fielded.of_type _ .outcome fielded isOutcome
  have value := item_of_has (theirs "decision" (by decide))
  have each : ∀ field ∈ identityFields, ∃ found, mismatchIssues host decision.1 outcome.1 field = .ok found ∧
      (found = [] ↔ pyEq host (get outcome.1 field) (get decision.1 field) = true) := by
    intro field member
    have shared : field ∈ sharedRequiredFields := by
      revert member
      revert field
      decide
    exact mismatchIssues_spec (mine field (List.mem_append_left _ shared))
      (theirs field (List.mem_append_left _ shared))
  obtain ⟨mismatches, gathered, meaning⟩ := gather_spec each
  simp only [outcomeIssues, value, gathered, bind, Except.bind, pure, Except.pure]
  refine ⟨_, rfl, ?_⟩
  simp only [List.append_eq_nil_iff, issueWhen_eq_nil, decide_eq_false_iff_not, not_le, Bool.not_eq_false', meaning]
  constructor
  · rintro ⟨⟨⟨later, allowed⟩, identity⟩, status⟩
    exact ⟨later, allowed, identity, status⟩
  · rintro ⟨later, allowed, identity, status⟩
    exact ⟨⟨⟨later, allowed⟩, identity⟩, status⟩

/-- What holds of the outcomes of a decision without an issue. -/
def OutcomesInOrder (host : Host) (decision : Option Entry) (linked : List Entry) : Prop :=
  linked.length ≤ 1 ∧ ∀ entry ∈ linked, ∃ found ∈ decision, OutcomeInOrder host found entry

theorem linkedOutcomeIssues_spec {decisions : Ordered Entry} {linked : Str × List Entry}
    (decided : ∀ entry ∈ decisions.find linked.1, Fielded entry.1 ∧ isEvent "decision" entry.1 = true)
    (fielded : ∀ entry ∈ linked.2, Fielded entry.1 ∧ isEvent "outcome" entry.1 = true) :
    ∃ found, linkedOutcomeIssues host decisions linked = .ok found ∧
      (found = [] ↔ OutcomesInOrder host (decisions.find linked.1) linked.2) := by
  unfold linkedOutcomeIssues
  cases named : decisions.find linked.1 with
  | none =>
    refine ⟨_, rfl, ?_⟩
    rw [List.map_eq_nil_iff, OutcomesInOrder]
    constructor
    · intro nothing
      rw [nothing]
      exact ⟨Nat.zero_le 1, by simp⟩
    · rintro ⟨-, ordered⟩
      rw [List.eq_nil_iff_forall_not_mem]
      intro entry member
      obtain ⟨_, impossible, _⟩ := ordered entry member
      cases impossible
  | some decision =>
    obtain ⟨decisionFields, isDecision⟩ := decided decision named
    obtain ⟨found, gathered, meaning⟩ := gather_spec (fun entry member =>
      @outcomeIssues_spec host decision entry decisionFields isDecision (fielded entry member).1
        (fielded entry member).2)
    simp only [gathered, bind, Except.bind, pure, Except.pure]
    refine ⟨_, rfl, ?_⟩
    rw [List.append_eq_nil_iff, issueWhen_eq_nil, decide_eq_false_iff_not, not_lt, meaning, OutcomesInOrder]
    apply and_congr_right
    intro _
    constructor
    · exact fun ordered entry member => ⟨decision, rfl, ordered entry member⟩
    · intro ordered entry member
      obtain ⟨_, same, inOrder⟩ := ordered entry member
      cases same
      exact inOrder

/-! ## Decisions -/

/-- The status of a decision by the events that refer to it. -/
def statusIn (host : Host) (events : List Dict) (id : Str) (decision : Dict) : InvocationStatus :=
  statusOf decision (referring host "outcome" events id)
    (resolutionValue host (referring host "resolution" events id))

def contradictedIn (host : Host) (events : List Dict) (id : Str) (decision : Dict) : Bool :=
  contradicted decision (referring host "outcome" events id)
    (resolutionValue host (referring host "resolution" events id))

/-- The marker a decision leaves, where it succeeded. -/
def successMarker (host : Host) (events : List Dict) (listed : Str × Entry) : Option (Str × Str) :=
  (markerOf listed.2.1).filter (fun _ => statusIn host events listed.1 listed.2.1 == .succeeded)

/-- What the last pass holds after some decisions. -/
structure Classified (host : Host) (events : List Dict) (listed : Ordered Entry) (pass : Pass) : Prop where
  marked : pass.marked = listed.filterMap (successMarker host events)
  clean : pass.issues = [] ↔
    (∀ p ∈ listed, neither p.2.1 "decision" "allowed" "denied" = false ∧
      contradictedIn host events p.1 p.2.1 = false) ∧ (listed.filterMap (successMarker host events)).Nodup
  statuses : pass.invocations.map (fun invocation => (invocation.decisionEventId, invocation.status)) =
    listed.map (fun p => (p.1, statusIn host events p.1 p.2.1))

theorem fieldText_eq {event : Dict} {field : String} (present : has event field = true) :
    fieldText host event field = .ok (pyStr host (get event field)) := by
  rw [fieldText, item_of_has present]
  rfl

theorem auditedInvocation_returns {decision : Dict} {outcome : Option Dict} {status : InvocationStatus}
    (decided : ∀ field ∈ EventType.decision.required, has decision field = true)
    (fielded : ∀ event ∈ outcome, ∀ field ∈ EventType.outcome.required, has event field = true) :
    ∃ invocation, auditedInvocation host id decision outcome status = .ok invocation ∧
      invocation.decisionEventId = id ∧ invocation.status = status := by
  have timestamp : ∃ text, outcome.elim (.ok none) (fun outcome =>
      (fieldText host outcome "timestamp_utc").map some) = (.ok text : Except PyError (Option Str)) := by
    cases outcome with
    | none => exact ⟨none, rfl⟩
    | some event =>
      refine ⟨some (pyStr host (get event "timestamp_utc")), ?_⟩
      rw [Option.elim_some, fieldText_eq (fielded event rfl "timestamp_utc" (by decide))]
      rfl
  obtain ⟨text, found⟩ := timestamp
  simp only [auditedInvocation, fieldText_eq (decided "action_name" (by decide)),
    fieldText_eq (decided "action_id" (by decide)), fieldText_eq (decided "contract_hash" (by decide)),
    fieldText_eq (decided "input_hash" (by decide)), fieldText_eq (decided "risk" (by decide)),
    fieldText_eq (decided "approval_mode" (by decide)), fieldText_eq (decided "timestamp_utc" (by decide)),
    found, bind, Except.bind, pure, Except.pure]
  exact ⟨_, rfl, rfl, rfl⟩

theorem mem_of_onlyOutcome {linked : List Entry} {outcome : Dict} (only : onlyOutcome linked = some outcome) :
    ∃ i, linked = [(outcome, i)] := by
  unfold onlyOutcome at only
  split at only
  · cases only
    exact ⟨_, rfl⟩
  · cases only

/-- One more decision. -/
theorem classify_spec {links : Links} (linked : Linked host events links)
    (fielded : ∀ event ∈ events, Fielded event) {listed : Ordered Entry} {pass : Pass}
    (before : Classified host events listed pass) {p : Str × Entry}
    (found : firstDecision host events p.1 = some p.2) :
    ∃ after, classify host links pass p = .ok after ∧ Classified host events (listed ++ [p]) after := by
  obtain ⟨here, isDecision, -⟩ := firstDecision_eq_some found
  have decided := @Fielded.of_type _ .decision (fielded _ (List.mem_of_getElem? here)) isDecision
  have outcomes : ∀ event ∈ onlyOutcome (referring host "outcome" events p.1),
      ∀ field ∈ EventType.outcome.required, has event field = true := by
    intro event only
    obtain ⟨i, alone⟩ := mem_of_onlyOutcome only
    have member : (event, i) ∈ referring host "outcome" events p.1 := by
      rw [alone]
      exact List.mem_singleton_self _
    obtain ⟨there, isOutcome, -⟩ := mem_referring.mp member
    exact @Fielded.of_type _ .outcome (fielded _ (List.mem_of_getElem? there)) isOutcome
  obtain ⟨invocation, audited, named, stated⟩ :=
    @auditedInvocation_returns host p.1 p.2.1 _ (statusIn host events p.1 p.2.1) decided outcomes
  have marker : (markerOf p.2.1).filter (fun _ => statusIn host events p.1 p.2.1 == .succeeded) =
      successMarker host events p := rfl
  unfold statusIn at audited marker
  simp only [classify, linked.outcomes, linked.resolutions, audited, marker, bind, Except.bind, pure, Except.pure]
  refine ⟨_, rfl, ?_, ?_, ?_⟩
  · rw [filterMap_concat, before.marked]
  · have repeated : (successMarker host events p).any pass.marked.contains = false ↔
        ∀ marker ∈ successMarker host events p, marker ∉ listed.filterMap (successMarker host events) := by
      rw [before.marked]
      cases successMarker host events p <;> simp
    rw [List.append_eq_nil_iff, List.append_eq_nil_iff, List.append_eq_nil_iff, issueWhen_eq_nil, issueWhen_eq_nil,
      issueWhen_eq_nil, before.clean, repeated, filterMap_concat, nodup_concat_option]
    constructor
    · rintro ⟨⟨⟨⟨each, distinct⟩, value⟩, settled⟩, fresh⟩
      refine ⟨?_, distinct, fresh⟩
      intro q member
      rcases List.mem_append.mp member with earlier | last
      · exact each q earlier
      · rw [List.mem_singleton.mp last]
        exact ⟨value, settled⟩
    · rintro ⟨each, distinct, fresh⟩
      obtain ⟨value, settled⟩ := each p (List.mem_append_right listed (List.mem_singleton_self p))
      exact ⟨⟨⟨⟨fun q member => each q (List.mem_append_left [p] member), distinct⟩, value⟩, settled⟩, fresh⟩
  · rw [List.map_append, before.statuses, List.map_append, List.map_singleton, List.map_singleton, named, stated]

theorem classified_all {links : Links} (linked : Linked host events links)
    (fielded : ∀ event ∈ events, Fielded event) {listed : Ordered Entry}
    (found : ∀ p ∈ listed, firstDecision host events p.1 = some p.2) :
    ∃ pass, listed.foldlM (classify host links) ⟨[], [], []⟩ = .ok pass ∧ Classified host events listed pass := by
  induction listed using List.reverseRecOn with
  | nil => exact ⟨_, rfl, rfl, by simp, rfl⟩
  | append_singleton listed p ih =>
    obtain ⟨pass, folded, classified⟩ := ih (fun q member => found q (List.mem_append_left [p] member))
    obtain ⟨after, step, next⟩ := classify_spec linked fielded classified
      (found p (List.mem_append_right listed (List.mem_singleton_self p)))
    refine ⟨after, ?_, next⟩
    rw [List.foldlM_append, folded]
    simp only [List.foldlM_cons, List.foldlM_nil, bind, Except.bind, step, pure, Except.pure]

/-! ## The audit -/

/-- The status the report gives to a decision id. -/
def statusFor (report : AuditReport) (id : Str) : Option InvocationStatus :=
  (report.invocations.find? (fun invocation => invocation.decisionEventId == id)).map AuditedInvocation.status

/-- When there is nothing to report, by decision id. -/
structure Sound (host : Host) (events : List Dict) : Prop where
  unique : (events.map (idText host)).Nodup
  resolutions : ∀ id, ResolutionsInOrder host (firstDecision host events id) (referring host "resolution" events id)
  outcomes : ∀ id, OutcomesInOrder host (firstDecision host events id) (referring host "outcome" events id)
  decisions : ∀ id, ∀ entry ∈ firstDecision host events id,
    neither entry.1 "decision" "allowed" "denied" = false ∧ contradictedIn host events id entry.1 = false
  markers : ∀ id, ∀ entry ∈ firstDecision host events id, ∀ other, ∀ second ∈ firstDecision host events other,
    ∀ marker, successMarker host events (id, entry) = some marker →
      successMarker host events (other, second) = some marker → id = other

/-- What a report says of the events it is about. -/
structure Reports (host : Host) (events : List Dict) (report : AuditReport) : Prop where
  clean : report.issues = [] ↔ Sound host events
  status : ∀ id, statusFor report id =
    (firstDecision host events id).map (fun entry => statusIn host events id entry.1)
  member : ∀ invocation ∈ report.invocations, statusFor report invocation.decisionEventId = some invocation.status

/-- The audit of events that have their fields returns. -/
theorem auditEvents_reports (fielded : ∀ event ∈ events, Fielded event) :
    ∃ report, auditEvents host events = .ok report ∧ Reports host events report := by
  have linked := @linked_links host events
  have links := @linkEvents_eq host events fielded
  generalize events.zipIdx.foldl (linkStep host) .empty = found at linked links
  have listed : ∀ p ∈ found.decisions, firstDecision host events p.1 = some p.2 := by
    intro p member
    rw [← linked.decisions]
    exact Ordered.find_of_mem linked.distinctDecisions member
  have items : ∀ p ∈ found.outcomes, p.2 = referring host "outcome" events p.1 := by
    intro p member
    rw [← linked.outcomes, Ordered.linked, Ordered.find_of_mem linked.distinctOutcomes member, Option.getD_some]
  obtain ⟨outcomes, gathered, outcomesMeaning⟩ := gather_spec (fun p member =>
    @linkedOutcomeIssues_spec host found.decisions p
      (fun entry decision => by
        rw [linked.decisions] at decision
        obtain ⟨here, isDecision, -⟩ := firstDecision_eq_some decision
        exact ⟨fielded _ (List.mem_of_getElem? here), isDecision⟩)
      (fun entry inside => by
        rw [items p member] at inside
        obtain ⟨here, isOutcome, -⟩ := mem_referring.mp inside
        exact ⟨fielded _ (List.mem_of_getElem? here), isOutcome⟩))
  obtain ⟨pass, folded, classified⟩ := classified_all linked fielded listed
  let report : AuditReport := ⟨pass.invocations, found.issues ++
    found.resolutions.flatMap (resolutionIssues host found.decisions) ++ outcomes ++ pass.issues⟩
  have returns : auditEvents host events = .ok report := by
    simp only [auditEvents, links, gathered, folded, bind, Except.bind, pure, Except.pure, report]
  have status : ∀ id, statusFor report id =
      (firstDecision host events id).map (fun entry => statusIn host events id entry.1) := by
    intro id
    have pairs : statusFor report id = Ordered.find (report.invocations.map
        (fun invocation => (invocation.decisionEventId, invocation.status))) id := by
      rw [statusFor, Ordered.find, List.find?_map, Option.map_map]
      rfl
    rw [pairs, classified.statuses, ← linked.decisions]
    exact Ordered.find_map (f := fun id (entry : Entry) => statusIn host events id entry.1)
  have member : ∀ invocation ∈ report.invocations,
      statusFor report invocation.decisionEventId = some invocation.status := by
    intro invocation inside
    have pair := List.mem_map_of_mem (f := fun invocation : AuditedInvocation =>
      (invocation.decisionEventId, invocation.status)) inside
    rw [classified.statuses] at pair
    obtain ⟨p, inDecisions, same⟩ := List.mem_map.mp pair
    obtain ⟨named, stated⟩ := Prod.mk.inj same
    rw [status, ← named, listed p inDecisions, ← stated]
    rfl
  have resolutions : (∀ p ∈ found.resolutions, resolutionIssues host found.decisions p = []) ↔
      ∀ id, ResolutionsInOrder host (firstDecision host events id) (referring host "resolution" events id) := by
    simp only [resolutionIssues_eq_nil, linked.decisions, ← linked.resolutions]
    exact forall_items (Q := fun id values => ResolutionsInOrder host (firstDecision host events id) values)
      linked.distinctResolutions (fun id entry impossible => by cases impossible)
  have outcomesInOrder : outcomes = [] ↔
      ∀ id, OutcomesInOrder host (firstDecision host events id) (referring host "outcome" events id) := by
    simp only [outcomesMeaning, linked.decisions, ← linked.outcomes]
    exact forall_items (Q := fun id values => OutcomesInOrder host (firstDecision host events id) values)
      linked.distinctOutcomes (fun id => ⟨Nat.zero_le 1, fun entry impossible => by cases impossible⟩)
  have inDecisions : ∀ id entry, firstDecision host events id = some entry → (id, entry) ∈ found.decisions := by
    intro id entry first
    rw [← linked.decisions] at first
    exact Ordered.mem_of_find first
  refine ⟨report, returns, ?_, status, member⟩
  rw [List.append_eq_nil_iff, List.append_eq_nil_iff, List.append_eq_nil_iff, List.flatMap_eq_nil_iff, resolutions,
    outcomesInOrder, linked.unique, classified.clean, nodup_filterMap_iff (linked.distinctDecisions.of_map)]
  constructor
  · rintro ⟨⟨⟨unique, resolutions⟩, outcomes⟩, each, markers⟩
    refine ⟨unique, resolutions, outcomes, ?_, ?_⟩
    · exact fun id entry first => each (id, entry) (inDecisions id entry first)
    · intro id entry first other second there marker one two
      exact congrArg Prod.fst (markers _ (inDecisions id entry first) _ (inDecisions other second there) marker one two)
  · intro sound
    refine ⟨⟨⟨sound.unique, sound.resolutions⟩, sound.outcomes⟩, ?_, ?_⟩
    · exact fun p member => sound.decisions p.1 p.2 (listed p member)
    · intro p inP q inQ marker one two
      have same := sound.markers p.1 p.2 (listed p inP) q.1 q.2 (listed q inQ) marker one two
      have found := listed p inP
      rw [same, listed q inQ] at found
      exact Prod.ext same (Option.some.inj found).symm

end Tesera.Audit.Passes
