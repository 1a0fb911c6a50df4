import Tesera.Journal.Firsts

/-!
The idempotency index against the full scans. The tables keep of each id the first decision
that is allowed, keyed and no dry run, and of the events that name it those that come later
with a text status or resolution. The scan for a blocking decision judges each id by its
first decision and by every event that names it; the scan for a completed one by its last
decision and by every success.
-/

namespace Tesera.Journal.IndexScan
open Tesera.Text Tesera.Text.Unicode Tesera.Text.Lines Tesera.Python.Value
open Tesera.Journal.Record Tesera.Journal.Idempotency Tesera.Journal.Scan Tesera.Journal.Firsts

/-! ## Completed decisions -/

/-- `decisions[key] = value`, where an assigned key keeps its place. -/
def assign {ν : Type} (m : Ordered ν) (key : Str) (value : ν) : Ordered ν :=
  if m.has key then m.map (fun p => if p.1 = key then (key, value) else p) else m ++ [(key, value)]

/-- What the scan of `find_completed_idempotent_decision` collects. -/
structure CompletedScan where
  decisions : Ordered Dict
  succeeded : List Str

def completedEvent (state : CompletedScan) (event : Dict) : CompletedScan :=
  if isEvent "decision" event then
    match asStr (get event "event_id") with
    | some id => { state with decisions := assign state.decisions id event }
    | none => state
  else if isEvent "outcome" event then
    if asStr (get event "status") == some (lit "succeeded") then
      match asStr (get event "decision_event_id") with
      | some ref => { state with succeeded := state.succeeded ++ [ref] }
      | none => state
    else state
  else state

/-- An allowed decision with the action and the key; here a dry run counts. -/
def matchesCompleted (action key : Str) (event : Dict) : Bool :=
  asStr (get event "decision") == some (lit "allowed") && asStr (get event "action_name") == some action &&
    asStr (get event "idempotency_key") == some key

/-- The answer of the scan over the events of a file. -/
def scanCompletedPrior (events : List Dict) (action key : Str) : Option Dict :=
  let state := events.foldl completedEvent ⟨[], []⟩
  (state.decisions.find? (fun p => matchesCompleted action key p.2 && state.succeeded.contains p.1)).map Prod.snd

/-- The scan of `find_completed_idempotent_decision`. -/
def scanCompletedIdempotent (host : Host) (content : Bytes) (action key : Str) :
    Except PyError (Option Dict) :=
  (readEvents host (records content)).map (fun events => scanCompletedPrior events action key)

/-- `_indexed_completed_prior`. -/
def indexedCompletedPrior (tables : IdemTables) (action key : Str) : Option Dict :=
  let ids := (tables.byKey.filter (fun p => p.1 == (action, key))).map Prod.snd
  let listed := ids.filterMap (fun id => (tables.decisions.find id).map (fun event => (id, event)))
  (listed.find? (fun p => asStr (get p.2 "decision") == some (lit "allowed") &&
    (linkedTo tables.outcomes p.1).any (fun status => asStr status == some (lit "succeeded")))).map Prod.snd

/-! ## What the tables hold -/

/-- A decision the tables keep, when its id is new. -/
def tracked (event : Dict) : Bool :=
  isEvent "decision" event && (mayBlock event && has event "idempotency_key") &&
    (asStr (get event "action_name")).isSome

/-- The action and the key of a decision, where both are texts. -/
def keyOf (event : Dict) : Option (Str × Str) :=
  match asStr (get event "action_name"), asStr (get event "idempotency_key") with
  | some action, some key => some (action, key)
  | _, _ => none

/-- What the events of a kind that name an id hold in a field as a text. -/
def textsFor (kind field : String) (events : List Dict) (id : Str) : List Json :=
  (valuesFor kind field events id).filter (fun value => (asStr value).isSome)

/-- Texts linked to the tracked decisions by the events after each of them. -/
structure Kept (kind field : String) (events : List Dict) (linked : Linked) : Prop where
  later : ∀ i id event, First tracked events i id event →
    linkedTo linked id = textsFor kind field (events.drop (i + 1)) id
  unknown : ∀ id, (firsts tracked events).has id = false → linkedTo linked id = []

structure Tabled (events : List Dict) (tables : IdemTables) : Prop where
  decisions : tables.decisions = firsts tracked events
  byKey : tables.byKey = tables.decisions.filterMap (fun p => (keyOf p.2).map (fun key => (key, p.1)))
  outcomes : Kept "outcome" "status" events tables.outcomes
  resolutions : Kept "resolution" "resolution" events tables.resolutions

variable {host : Host} {events : List Dict} {event : Dict} {tables : IdemTables} {action key id : Str}

theorem tracked_of_matchesKey (decision : isEvent "decision" event = true)
    (matching : matchesKey action key event = true) : tracked event = true := by
  simp only [matchesKey, Bool.and_eq_true, beq_iff_eq] at matching
  obtain ⟨⟨may, named⟩, keyed⟩ := matching
  have present : has event "idempotency_key" = true := by
    apply has_of_get_ne_null
    intro null
    rw [null] at keyed
    cases keyed
  simp [tracked, decision, may, present, named]

theorem decision_of_tracked (kept : tracked event = true) : isEvent "decision" event = true := by
  simp only [tracked, Bool.and_eq_true] at kept
  exact kept.1.1

/-- The first decision with an id, when it is tracked, is the first tracked one. -/
theorem first_tracked {i : Nat} (first : First (isEvent "decision") events i id event)
    (kept : tracked event = true) : First tracked events i id event :=
  ⟨first.here, kept, first.named,
    fun j less earlier found keptEarlier => first.fresh j less earlier found (decision_of_tracked keptEarlier)⟩

theorem matchesKey_iff (kept : tracked event = true) :
    matchesKey action key event = true ↔ keyOf event = some (action, key) := by
  simp only [tracked, Bool.and_eq_true] at kept
  simp only [matchesKey, kept.1.2.1, Bool.true_and, Bool.and_eq_true, beq_iff_eq, keyOf]
  cases asStr (get event "action_name") with
  | none => simp
  | some name =>
    cases asStr (get event "idempotency_key") with
    | none => simp
    | some text => simp

theorem textsFor_append (kind field : String) (events : List Dict) (event : Dict) (id : Str) :
    textsFor kind field (events ++ [event]) id = textsFor kind field events id ++
      (if namesId kind id event && (asStr (get event field)).isSome then [get event field] else []) := by
  rw [textsFor, valuesFor_append, List.filter_append, textsFor]
  congr 1
  by_cases named : namesId kind id event = true
  · rw [if_pos named, List.filter_singleton, named, Bool.true_and, Bool.cond_eq_ite]
  · rw [if_neg named, Bool.eq_false_iff.mpr named, Bool.false_and, List.filter_nil, if_neg Bool.false_ne_true]

/-! ## One event more -/

/-- How the tables link an event of a kind: by a text, to a decision they hold. -/
def linkLater (kind field : String) (decisions : Ordered Dict) (linked : Linked) (event : Dict) : Linked :=
  if isEvent kind event then
    match asStr (get event "decision_event_id"), asStr (get event field) with
    | some id, some text => if decisions.has id then link linked id (.str text) else linked
    | _, _ => linked
  else linked

theorem linkLater_other {kind field : String} {decisions : Ordered Dict} {linked : Linked}
    (other : isEvent kind event = false) : linkLater kind field decisions linked event = linked := by
  rw [linkLater, other, if_neg Bool.false_ne_true]

/-- The ids by action and key after one more decision. -/
def noteKey (tables : IdemTables) (event : Dict) : List ((Str × Str) × Str) :=
  if tracked event && (idOf event).any (fun id => !tables.decisions.has id) then
    tables.byKey ++ ((keyOf event).bind (fun key => (idOf event).map (fun id => (key, id)))).toList
  else tables.byKey

theorem evolve_decision (decision : isEvent "decision" event = true) : evolveIdemTables tables event =
    { tables with decisions := noteFirst tracked tables.decisions event, byKey := noteKey tables event } := by
  unfold evolveIdemTables noteFirst noteKey tracked idOf keyOf
  rw [if_pos decision, decision, Bool.true_and]
  cases action : asStr (get event "action_name") with
  | none => simp
  | some name =>
    cases asStr (get event "event_id") with
    | none => simp
    | some text =>
      simp only [Option.isSome_some, Bool.and_true, Option.elim_some, Option.any_some, Option.map_some,
        Ordered.setDefault]
      by_cases kept : (mayBlock event && has event "idempotency_key") = true
      · rw [kept, Bool.true_and, if_pos rfl]
        by_cases present : tables.decisions.has text = true
        · simp [present]
        · rw [Bool.eq_false_iff.mpr present]
          cases asStr (get event "idempotency_key") <;> simp
      · rw [Bool.eq_false_iff.mpr kept]
        simp

theorem not_tracked (other : isEvent "decision" event = false) : tracked event = false := by
  rw [tracked, other, Bool.false_and, Bool.false_and]

theorem evolve_link (other : isEvent "decision" event = false) : evolveIdemTables tables event =
    { tables with
      outcomes := linkLater "outcome" "status" tables.decisions tables.outcomes event
      resolutions := linkLater "resolution" "resolution" tables.decisions tables.resolutions event } := by
  unfold evolveIdemTables
  rw [other, if_neg Bool.false_ne_true]
  by_cases outcome : isEvent "outcome" event = true
  · rw [if_pos outcome, @linkLater_other _ "resolution" _ _ _ (isEvent_unique outcome (by decide)), linkLater,
      if_pos outcome]
    cases asStr (get event "decision_event_id") with
    | none => rfl
    | some ref =>
      cases asStr (get event "status") with
      | none => rfl
      | some status =>
        simp only
        split_ifs <;> rfl
  · rw [if_neg outcome, @linkLater_other _ "outcome" _ _ _ (Bool.eq_false_iff.mpr outcome), linkLater]
    by_cases resolution : isEvent "resolution" event = true
    · rw [if_pos resolution, if_pos resolution]
      cases asStr (get event "decision_event_id") with
      | none => rfl
      | some ref =>
        cases asStr (get event "resolution") with
        | none => rfl
        | some value =>
          simp only
          split_ifs <;> rfl
    · rw [if_neg resolution, if_neg resolution]

/-- What one event does to the tables. -/
theorem evolve_eq (tables : IdemTables) (event : Dict) : evolveIdemTables tables event =
    ⟨noteFirst tracked tables.decisions event, noteKey tables event,
      linkLater "outcome" "status" tables.decisions tables.outcomes event,
      linkLater "resolution" "resolution" tables.decisions tables.resolutions event⟩ := by
  by_cases decision : isEvent "decision" event = true
  · rw [evolve_decision decision, linkLater_other (isEvent_unique decision (by decide)),
      linkLater_other (isEvent_unique decision (by decide))]
  · have other := Bool.eq_false_iff.mpr decision
    rw [evolve_link other, noteFirst, noteKey, not_tracked other, Bool.false_and, if_neg Bool.false_ne_true,
      if_neg Bool.false_ne_true]

theorem linkedTo_linkLater {kind field : String} {decisions : Ordered Dict} {linked : Linked}
    (known : decisions.has id = true) : linkedTo (linkLater kind field decisions linked event) id =
      linkedTo linked id ++
        (if namesId kind id event && (asStr (get event field)).isSome then [get event field] else []) := by
  unfold linkLater namesId
  by_cases ofKind : isEvent kind event = true
  · rw [if_pos ofKind, ofKind, Bool.true_and]
    cases asStr (get event "decision_event_id") with
    | none => simp
    | some ref =>
      cases value : asStr (get event field) with
      | none => simp
      | some text =>
        rw [asStr_eq_some] at value
        by_cases same : ref = id
        · subst same
          simp [known, linkedTo_link, value]
        · simp only
          split_ifs <;> simp_all [linkedTo_link]
  · simp [ofKind]

theorem linkedTo_linkLater_unknown {kind field : String} {decisions : Ordered Dict} {linked : Linked}
    (unknown : decisions.has id = false) : linkedTo (linkLater kind field decisions linked event) id =
      linkedTo linked id := by
  unfold linkLater
  split_ifs
  · cases asStr (get event "decision_event_id") with
    | none => rfl
    | some ref =>
      cases asStr (get event field) with
      | none => rfl
      | some text =>
        simp only
        split_ifs with known
        · have different : ref ≠ id := by
            rintro rfl
            rw [unknown] at known
            cases known
          rw [linkedTo_link, if_neg different]
        · rfl
  · rfl

/-- What is linked to the tracked decisions, one event on. -/
theorem kept_step {kind field : String} {linked : Linked} (kept : Kept kind field events linked)
    (event : Dict) :
    Kept kind field (events ++ [event]) (linkLater kind field (firsts tracked events) linked event) where
  later := by
    intro i id one first
    rcases first.of_append with before | ⟨rfl, rfl⟩
    · rw [linkedTo_linkLater before.has, kept.later i id one before,
        List.drop_append_of_le_length (Nat.succ_le_of_lt before.lt), textsFor_append]
    · -- a decision that is new has nothing linked to it yet
      have absent := absent_of_first_last first
      rw [linkedTo_linkLater_unknown absent, kept.unknown id absent, List.drop_eq_nil_of_le (by simp)]
      rfl
  unknown := by
    intro id absent
    rw [firsts_append] at absent
    have before : (firsts tracked events).has id = false := by
      by_contra present
      have still := (@has_noteFirst tracked event id _).mpr (.inl (Bool.eq_true_of_not_eq_false present))
      rw [absent] at still
      cases still
    rw [linkedTo_linkLater_unknown before, kept.unknown id before]

theorem byKey_step (byKey : tables.byKey =
      tables.decisions.filterMap (fun p => (keyOf p.2).map (fun key => (key, p.1)))) (event : Dict) :
    noteKey tables event = (noteFirst tracked tables.decisions event).filterMap
      (fun p => (keyOf p.2).map (fun key => (key, p.1))) := by
  unfold noteKey noteFirst
  by_cases kept : tracked event = true
  · rw [if_pos kept, kept, Bool.true_and]
    cases idOf event with
    | none => simp [byKey]
    | some name =>
      simp only [Option.any_some, Option.elim_some, Ordered.setDefault]
      by_cases present : tables.decisions.has name = true
      · simp [present, byKey]
      · cases keyed : keyOf event <;> simp [present, byKey, keyed]
  · rw [if_neg kept, Bool.eq_false_iff.mpr kept, Bool.false_and, if_neg Bool.false_ne_true, byKey]

theorem tabled (events : List Dict) : Tabled events (events.foldl evolveIdemTables .empty) := by
  induction events using List.reverseRecOn with
  | nil => exact ⟨rfl, rfl, ⟨fun i id event first => (nomatch first.here), fun _ _ => rfl⟩,
      ⟨fun i id event first => (nomatch first.here), fun _ _ => rfl⟩⟩
  | append_singleton events event ih =>
    rw [List.foldl_append, List.foldl_cons, List.foldl_nil, evolve_eq]
    generalize events.foldl evolveIdemTables .empty = tables at ih
    refine ⟨?_, byKey_step ih.byKey event, ?_, ?_⟩
    · rw [ih.decisions, firsts_append]
    · rw [ih.decisions]
      exact kept_step ih.outcomes event
    · rw [ih.decisions]
      exact kept_step ih.resolutions event

/-! ## The candidates of a key -/

theorem filterMap_find {m : Ordered Dict} (distinct : m.Distinct) {l : Ordered Dict} (inside : l ⊆ m) :
    (l.map Prod.fst).filterMap (fun id => (m.find id).map (fun event => (id, event))) = l := by
  induction l with
  | nil => rfl
  | cons p l ih =>
    have found := Ordered.find_of_mem distinct (inside List.mem_cons_self)
    have rest := ih (fun q member => inside (List.mem_cons_of_mem p member))
    simp only [List.map_cons, List.filterMap_cons, found, Option.map_some, rest]

/-- The ids of a key name the tracked decisions with the key, in file order. -/
theorem candidates_eq (held : Tabled events tables) (action key : Str) :
    ((tables.byKey.filter (fun p => p.1 == (action, key))).map Prod.snd).filterMap
      (fun id => (tables.decisions.find id).map (fun event => (id, event))) =
    (firsts tracked events).filter (fun p => matchesKey action key p.2) := by
  have ids : ((tables.byKey.filter (fun p => p.1 == (action, key))).map Prod.snd) =
      (tables.decisions.filter (fun p => keyOf p.2 == some (action, key))).map Prod.fst := by
    rw [held.byKey]
    generalize tables.decisions = listed
    induction listed with
    | nil => rfl
    | cons p listed ih =>
      rw [List.filterMap_cons, List.filter_cons]
      cases found : keyOf p.2 with
      | none => simpa using ih
      | some marker =>
        rw [Option.map_some, List.filter_cons]
        by_cases same : marker = (action, key)
        · simp [same, ih]
        · simp [same, ih]
  have same : tables.decisions.filter (fun p => keyOf p.2 == some (action, key)) =
      tables.decisions.filter (fun p => matchesKey action key p.2) := by
    apply List.filter_congr
    intro p member
    rw [held.decisions] at member
    obtain ⟨i, first⟩ := mem_firsts.mp member
    rw [Bool.eq_iff_iff, beq_iff_eq, matchesKey_iff first.kept]
  rw [ids, same, held.decisions]
  exact filterMap_find (distinct_firsts tracked events) (List.filter_subset_self _)

/-! ## The answers, by position -/

/-- An id comes first among those that count, by the position where it counts. -/
def Leads (counts : Nat → Str → Prop) (id : Str) : Prop :=
  ∃ i, counts i id ∧ ∀ j < i, ∀ other, ¬ counts j other

/-- The first search answer in a table of first events, by its id. -/
theorem find?_id {keep : Dict → Bool} {accept : Str × Dict → Bool} {counts : Nat → Str → Prop}
    (meaning : ∀ i id, counts i id ↔ ∃ event, First keep events i id event ∧ accept (id, event) = true) :
    (((firsts keep events).find? accept).map Prod.fst = some id) ↔ Leads counts id := by
  rw [Option.map_eq_some_iff]
  constructor
  · rintro ⟨p, found, rfl⟩
    obtain ⟨i, first, accepted, earliest⟩ := find?_firsts.mp found
    refine ⟨i, (meaning i p.1).mpr ⟨p.2, first, accepted⟩, ?_⟩
    intro j less other counted
    obtain ⟨one, firstOther, acceptedOther⟩ := (meaning j other).mp counted
    have refused := earliest j less other one firstOther
    rw [acceptedOther] at refused
    cases refused
  · rintro ⟨i, counted, earliest⟩
    obtain ⟨event, first, accepted⟩ := (meaning i id).mp counted
    refine ⟨(id, event), find?_firsts.mpr ⟨i, first, accepted, ?_⟩, rfl⟩
    intro j less other one firstOther
    by_contra passes
    exact earliest j less other ((meaning j other).mpr ⟨one, firstOther, Bool.eq_true_of_not_eq_false passes⟩)

/-- The `event_id` of a decision found. -/
def eventId (prior : Option Dict) : Option Json := prior.map (fun decision => get decision "event_id")

theorem get_id (named : idOf event = some id) : get event "event_id" = .str id := asStr_eq_some.mp named

/-- The ids of the events a search returns. -/
theorem eventId_find? {keep : Dict → Bool} {accept : Str × Dict → Bool} :
    eventId (((firsts keep events).find? accept).map Prod.snd) =
      (((firsts keep events).find? accept).map Prod.fst).map Json.str := by
  cases found : (firsts keep events).find? accept with
  | none => rfl
  | some p =>
    obtain ⟨i, first, -⟩ := find?_firsts.mp found
    rw [Option.map_some, eventId, Option.map_some, get_id first.named, Option.map_some, Option.map_some]

/-- A decision is found exactly when an id counts, and it has the id that comes first. -/
def Answers (prior : Option Dict) (counts : Nat → Str → Prop) : Prop :=
  ∃ found : Option Str, eventId prior = found.map Json.str ∧ ∀ id, found = some id ↔ Leads counts id

theorem Answers.eventId_eq_iff {one two : Option Dict} {P Q : Nat → Str → Prop} (first : Answers one P)
    (second : Answers two Q) : eventId one = eventId two ↔ ∀ id, Leads P id ↔ Leads Q id := by
  obtain ⟨foundOne, idOne, leadsOne⟩ := first
  obtain ⟨foundTwo, idTwo, leadsTwo⟩ := second
  have texts : Function.Injective Json.str := fun _ _ same => Json.str.inj same
  rw [idOne, idTwo, (Option.map_injective texts).eq_iff]
  constructor
  · intro same id
    rw [← leadsOne, ← leadsTwo, same]
  · intro same
    apply Option.ext
    intro id
    exact (leadsOne id).trans ((same id).trans (leadsTwo id).symm)

/-- A decision blocks in the scan's reading: it is the first with its id, and blocks by every
event that names it. -/
def ScanBlocks (host : Host) (events : List Dict) (action key : Str) (i : Nat) (id : Str) : Prop :=
  ∃ event, First (isEvent "decision") events i id event ∧ matchesKey action key event = true ∧
    isBlocking host (valuesFor "outcome" "status" events id)
      (valuesFor "resolution" "resolution" events id) = true

/-- A decision blocks in the tables' reading: it is the first tracked one with its id, and
blocks by the events after it that name it with a text. -/
def TableBlocks (host : Host) (events : List Dict) (action key : Str) (i : Nat) (id : Str) : Prop :=
  ∃ event, First tracked events i id event ∧ matchesKey action key event = true ∧
    isBlocking host (textsFor "outcome" "status" (events.drop (i + 1)) id)
      (textsFor "resolution" "resolution" (events.drop (i + 1)) id) = true

theorem scanState_decisions (events : List Dict) :
    (scanState events).decisions = firsts (isEvent "decision") events := by
  induction events using List.reverseRecOn with
  | nil => rfl
  | append_singleton events event ih =>
    rw [scanState, List.foldl_append, List.foldl_cons, List.foldl_nil, scanEvent_decisions, firsts_append, noteFirst,
      ← ih, scanState]

theorem scanned_blocks (host : Host) (events : List Dict) (action key : Str) :
    Answers (scanBlockingPrior host events action key) (ScanBlocks host events action key) := by
  have scanned := scanned_scanState events
  simp only [scanBlockingPrior, blockingPriorFromState, scanned.outcomes, scanned.resolutions, scanState_decisions]
  refine ⟨_, eventId_find?, ?_⟩
  intro id
  apply find?_id
  intro i id
  simp only [ScanBlocks, Bool.and_eq_true]

theorem indexed_blocks (held : Tabled events tables) (host : Host) (action key : Str) :
    Answers (indexedBlockingPrior host tables action key) (TableBlocks host events action key) := by
  simp only [indexedBlockingPrior, blockingPriorFromState, candidates_eq held, List.find?_filter]
  refine ⟨_, eventId_find?, ?_⟩
  intro id
  apply find?_id
  intro i id
  apply exists_congr
  intro event
  apply and_congr_right
  intro first
  rw [held.outcomes.later i id event first, held.resolutions.later i id event first]
  simp only [Bool.and_eq_true, decide_eq_true_eq]
  tauto

/-! ## Completed decisions, by position -/

/-- The last decision with an id. -/
def lastDecision (events : List Dict) (id : Str) : Option Dict :=
  (events.filter (fun event => isEvent "decision" event && idOf event == some id)).getLast?

/-- An outcome that says an id has succeeded. -/
def succeedsFor (id : Str) (event : Dict) : Bool :=
  namesId "outcome" id event && asStr (get event "status") == some (lit "succeeded")

/-- What the scan for completed decisions holds after some events. -/
structure Completed (events : List Dict) (state : CompletedScan) : Prop where
  decisions : state.decisions =
    (firsts (isEvent "decision") events).map (fun p => (p.1, (lastDecision events p.1).getD p.2))
  succeeded : ∀ id, id ∈ state.succeeded ↔ ∃ event ∈ events, succeedsFor id event = true

theorem lastDecision_append (events : List Dict) (event : Dict) (id : Str) :
    lastDecision (events ++ [event]) id =
      if isEvent "decision" event && idOf event == some id then some event else lastDecision events id := by
  rw [lastDecision, List.filter_append, List.filter_singleton, Bool.cond_eq_ite]
  split_ifs
  · rw [List.getLast?_concat]
  · rw [List.append_nil, lastDecision]

theorem completedEvent_eq (state : CompletedScan) (event : Dict) : completedEvent state event =
    ⟨if isEvent "decision" event then (idOf event).elim state.decisions
        (fun id => assign state.decisions id event) else state.decisions,
      if isEvent "outcome" event && asStr (get event "status") == some (lit "succeeded") then
        state.succeeded ++ (asStr (get event "decision_event_id")).toList else state.succeeded⟩ := by
  unfold completedEvent idOf
  by_cases decision : isEvent "decision" event = true
  · rw [if_pos decision, if_pos decision, isEvent_unique decision (by decide), Bool.false_and,
      if_neg Bool.false_ne_true]
    cases asStr (get event "event_id") <;> rfl
  · rw [if_neg decision, if_neg decision]
    by_cases outcome : isEvent "outcome" event = true
    · rw [if_pos outcome, outcome, Bool.true_and]
      split_ifs
      · cases asStr (get event "decision_event_id") <;> simp
      · rfl
    · rw [if_neg outcome, Bool.eq_false_iff.mpr outcome, Bool.false_and, if_neg Bool.false_ne_true]

/-- The values under the ids of a table, where one id is assigned anew. -/
theorem assign_map {m : Ordered Dict} {value : Str → Dict → Dict} :
    assign (m.map (fun p => (p.1, value p.1 p.2))) id event =
      (m.setDefault id event).map (fun p => (p.1, if p.1 = id then event else value p.1 p.2)) := by
  have same : Ordered.has (m.map (fun p => (p.1, value p.1 p.2))) id = m.has id := by
    simp [Ordered.has, List.any_map, Function.comp_def]
  rw [assign, same, Ordered.setDefault]
  split_ifs with present
  · rw [List.map_map]
    apply List.map_congr_left
    intro p _
    by_cases here : p.1 = id
    · simp [here]
    · simp [here]
  · rw [List.map_append]
    have absent : ∀ p ∈ m, p.1 ≠ id := by
      intro p member named
      exact present (Ordered.has_iff.mpr (List.mem_map.mpr ⟨p, member, named⟩))
    congr 1
    · apply List.map_congr_left
      intro p member
      rw [if_neg (absent p member)]
    · simp

theorem completed (events : List Dict) : Completed events (events.foldl completedEvent ⟨[], []⟩) := by
  induction events using List.reverseRecOn with
  | nil => exact ⟨rfl, by simp⟩
  | append_singleton events event ih =>
    rw [List.foldl_append, List.foldl_cons, List.foldl_nil, completedEvent_eq]
    generalize events.foldl completedEvent ⟨[], []⟩ = state at ih
    constructor
    · dsimp only
      rw [firsts_append, noteFirst]
      have kept (absent : ∀ id, (isEvent "decision" event && idOf event == some id) = false) :
          state.decisions = (firsts (isEvent "decision") events).map
            (fun p => (p.1, (lastDecision (events ++ [event]) p.1).getD p.2)) := by
        rw [ih.decisions]
        apply List.map_congr_left
        intro p _
        rw [lastDecision_append, absent p.1, if_neg Bool.false_ne_true]
      by_cases decision : isEvent "decision" event = true
      · rw [if_pos decision, if_pos decision]
        cases named : idOf event with
        | none =>
          apply kept
          intro id
          rw [named, Bool.and_eq_false_iff]
          exact .inr rfl
        | some name =>
          rw [Option.elim_some, Option.elim_some, ih.decisions,
            @assign_map event name _ (fun id one => (lastDecision events id).getD one)]
          apply List.map_congr_left
          intro p _
          rw [lastDecision_append, decision, named, Bool.true_and]
          by_cases here : p.1 = name
          · simp [here]
          · have other : (some name == some p.1) = false := by
              simpa using fun same => here same.symm
            rw [if_neg here, other, if_neg Bool.false_ne_true]
      · rw [if_neg decision, if_neg decision]
        apply kept
        intro id
        rw [Bool.eq_false_iff.mpr decision, Bool.false_and]
    · intro id
      have last : (∃ one ∈ events ++ [event], succeedsFor id one = true) ↔
          (∃ one ∈ events, succeedsFor id one = true) ∨ succeedsFor id event = true := by
        simp [or_and_right, exists_or]
      rw [last, ← ih.succeeded]
      simp only [succeedsFor, namesId]
      by_cases outcome : (isEvent "outcome" event && asStr (get event "status") == some (lit "succeeded")) = true
      · rw [if_pos outcome, List.mem_append]
        rw [Bool.and_eq_true] at outcome
        simp only [outcome, Bool.true_and, Bool.and_true, Option.mem_toList, beq_iff_eq]
      · rw [if_neg outcome]
        simp only [Bool.and_eq_true, not_and] at outcome
        constructor
        · exact Or.inl
        · rintro (before | now)
          · exact before
          · simp only [Bool.and_eq_true] at now
            exact absurd now.2 (outcome now.1.1)

/-- A decision has completed in the scan's reading: the last with its id is allowed and has
the action and the key, and some success names the id. -/
def ScanCompleted (events : List Dict) (action key : Str) (i : Nat) (id : Str) : Prop :=
  ∃ event, First (isEvent "decision") events i id event ∧
    (∃ last ∈ lastDecision events id, matchesCompleted action key last = true) ∧
    ∃ outcome ∈ events, succeedsFor id outcome = true

/-- A decision has completed in the tables' reading: it is the first tracked one with its
id, and a success after it names the id. -/
def TableCompleted (events : List Dict) (action key : Str) (i : Nat) (id : Str) : Prop :=
  ∃ event, First tracked events i id event ∧ matchesKey action key event = true ∧
    ∃ outcome ∈ events.drop (i + 1), succeedsFor id outcome = true

theorem lastDecision_named {last : Dict} (found : lastDecision events id = some last) :
    idOf last = some id := by
  have member := List.mem_of_getLast? found
  simp only [List.mem_filter, Bool.and_eq_true, beq_iff_eq] at member
  exact member.2.2

theorem lastDecision_of_first {i : Nat} (first : First (isEvent "decision") events i id event) :
    ∃ last, lastDecision events id = some last := by
  have member : event ∈ events.filter (fun one => isEvent "decision" one && idOf one == some id) := by
    rw [List.mem_filter, first.kept, first.named]
    exact ⟨List.mem_of_getElem? first.here, by simp⟩
  exact ⟨_, List.getLast?_eq_some_getLast (List.ne_nil_of_mem member)⟩

theorem scanned_completed (events : List Dict) (action key : Str) :
    Answers (scanCompletedPrior events action key) (ScanCompleted events action key) := by
  have held := completed events
  rw [scanCompletedPrior]
  generalize events.foldl completedEvent ⟨[], []⟩ = state at held
  rw [held.decisions, List.find?_map, Option.map_map]
  have ids {accept : Str × Dict → Bool} :
      eventId (((firsts (isEvent "decision") events).find? accept).map
        (Prod.snd ∘ fun p => (p.1, (lastDecision events p.1).getD p.2))) =
        (((firsts (isEvent "decision") events).find? accept).map Prod.fst).map Json.str := by
    cases found : (firsts (isEvent "decision") events).find? accept with
    | none => rfl
    | some p =>
      obtain ⟨i, first, -⟩ := find?_firsts.mp found
      obtain ⟨last, isLast⟩ := lastDecision_of_first first
      simp only [Option.map_some, eventId, Function.comp_apply, isLast, Option.getD_some,
        get_id (lastDecision_named isLast)]
  refine ⟨_, ids, ?_⟩
  intro id
  apply find?_id
  intro i id
  apply exists_congr
  intro event
  apply and_congr_right
  intro first
  obtain ⟨last, isLast⟩ := lastDecision_of_first first
  simp only [Function.comp_apply, isLast, Option.getD_some, Bool.and_eq_true, List.contains_iff_mem, held.succeeded,
    Option.mem_def, Option.some.injEq, exists_eq_left']

theorem any_succeeded (events : List Dict) (id : Str) :
    (textsFor "outcome" "status" events id).any (fun status => asStr status == some (lit "succeeded")) = true ↔
      ∃ outcome ∈ events, succeedsFor id outcome = true := by
  simp only [textsFor, valuesFor, List.any_eq_true, List.mem_filter, List.mem_map, succeedsFor, Bool.and_eq_true]
  constructor
  · rintro ⟨_, ⟨⟨outcome, ⟨member, named⟩, rfl⟩, -⟩, succeeded⟩
    exact ⟨outcome, member, named, succeeded⟩
  · rintro ⟨outcome, member, named, succeeded⟩
    refine ⟨_, ⟨⟨outcome, ⟨member, named⟩, rfl⟩, ?_⟩, succeeded⟩
    rw [beq_iff_eq] at succeeded
    rw [succeeded, Option.isSome_some]

theorem indexed_completed (held : Tabled events tables) (action key : Str) :
    Answers (indexedCompletedPrior tables action key) (TableCompleted events action key) := by
  simp only [indexedCompletedPrior, candidates_eq held, List.find?_filter]
  refine ⟨_, eventId_find?, ?_⟩
  intro id
  apply find?_id
  intro i id
  apply exists_congr
  intro event
  apply and_congr_right
  intro first
  rw [held.outcomes.later i id event first]
  simp only [Bool.and_eq_true, decide_eq_true_eq, any_succeeded]
  constructor
  · rintro ⟨matching, succeeded⟩
    have allowed := matching
    simp only [matchesKey, mayBlock, Bool.and_eq_true] at allowed
    exact ⟨matching, allowed.1.1.1, succeeded⟩
  · rintro ⟨matching, -, succeeded⟩
    exact ⟨matching, succeeded⟩

/-! ## Agreement -/

section Leading

variable {P Q : Nat → Str → Prop}

theorem exists_leads (some : ∃ i id, P i id) : ∃ id, Leads P id := by
  classical
  obtain ⟨id, counts⟩ := Nat.find_spec some
  refine ⟨id, Nat.find some, counts, ?_⟩
  intro j less other earlier
  exact Nat.find_min some less ⟨other, earlier⟩

theorem leads_unique (apart : ∀ i id other, P i id → P i other → id = other) {id other : Str}
    (first : Leads P id) (second : Leads P other) : id = other := by
  obtain ⟨i, counts, earliest⟩ := first
  obtain ⟨j, countsOther, earliestOther⟩ := second
  rcases Nat.lt_trichotomy i j with less | same | more
  · exact absurd counts (earliestOther i less id)
  · exact apart i id other counts (same ▸ countsOther)
  · exact absurd countsOther (earliest j more other)

/-- Two readings that count an id at the same position have the same first id exactly when
the first position that counts in one counts in both. -/
theorem leads_iff_same (position : ∀ i j id, P i id ∨ Q i id → P j id ∨ Q j id → i = j) :
    (∀ id, Leads P id ↔ Leads Q id) ↔
      ∀ i id, (∀ j < i, ∀ other, ¬ P j other ∧ ¬ Q j other) → (P i id ↔ Q i id) := by
  classical
  constructor
  · intro same i id earliest
    constructor
    · intro counts
      obtain ⟨j, countsToo, -⟩ := (same id).mp ⟨i, counts, fun j less other => (earliest j less other).1⟩
      exact position i j id (.inl counts) (.inr countsToo) ▸ countsToo
    · intro counts
      obtain ⟨j, countsToo, -⟩ := (same id).mpr ⟨i, counts, fun j less other => (earliest j less other).2⟩
      exact position i j id (.inr counts) (.inl countsToo) ▸ countsToo
  · intro aligned id
    -- the least position that counts in either reading
    have least (some : ∃ i id, P i id ∨ Q i id) : ∃ m, (∃ id, P m id ∨ Q m id) ∧
        ∀ j < m, ∀ other, ¬ P j other ∧ ¬ Q j other := by
      refine ⟨Nat.find some, Nat.find_spec some, ?_⟩
      intro j less other
      have none := Nat.find_min some less
      exact ⟨fun earlier => none ⟨other, .inl earlier⟩, fun earlier => none ⟨other, .inr earlier⟩⟩
    constructor
    · rintro ⟨i, counts, earliest⟩
      obtain ⟨m, ⟨one, either⟩, before⟩ := least ⟨i, id, .inl counts⟩
      have both : P m one := either.elim (fun here => here) (aligned m one before).mpr
      have index : m = i := by
        rcases Nat.lt_trichotomy m i with less | same | more
        · exact absurd both (earliest m less one)
        · exact same
        · exact absurd counts (before i more id).1
      subst index
      exact ⟨m, (aligned m id before).mp counts, fun j less other => (before j less other).2⟩
    · rintro ⟨i, counts, earliest⟩
      obtain ⟨m, ⟨one, either⟩, before⟩ := least ⟨i, id, .inr counts⟩
      have both : Q m one := either.elim (aligned m one before).mp (fun here => here)
      have index : m = i := by
        rcases Nat.lt_trichotomy m i with less | same | more
        · exact absurd both (earliest m less one)
        · exact same
        · exact absurd counts (before i more id).2
      subst index
      exact ⟨m, (aligned m id before).mpr counts, fun j less other => (before j less other).1⟩

/-- Two readings have the same first id exactly when the first id of the one is that of the
other, and the other counts none where the one does not. -/
theorem leads_iff (apart : ∀ i id other, Q i id → Q i other → id = other) :
    (∀ id, Leads P id ↔ Leads Q id) ↔
      (∀ id, Leads P id → Leads Q id) ∧ ((∀ i id, ¬ P i id) → ∀ i id, ¬ Q i id) := by
  constructor
  · intro same
    refine ⟨fun id => (same id).mp, ?_⟩
    intro none i id counts
    obtain ⟨first, leads⟩ := exists_leads ⟨i, id, counts⟩
    obtain ⟨j, impossible, -⟩ := (same first).mpr leads
    exact none j first impossible
  · rintro ⟨forward, empty⟩ id
    refine ⟨forward id, ?_⟩
    intro leads
    have some : ∃ i id, P i id := by
      by_contra none
      obtain ⟨i, counts, -⟩ := leads
      exact empty (fun j other here => none ⟨j, other, here⟩) i id counts
    obtain ⟨first, leadsFirst⟩ := exists_leads some
    rwa [leads_unique apart leads (forward first leadsFirst)]

end Leading

/-- The answers of the index and of the scans over one file. -/
def Agrees (host : Host) (content : Bytes) (action key : Str) : Prop :=
  (collectIdemTables host content).map (fun tables => eventId (indexedBlockingPrior host tables action key)) =
      (scanBlockingIdempotent host content action key).map (Option.map Json.str) ∧
    (collectIdemTables host content).map (fun tables => eventId (indexedCompletedPrior tables action key)) =
      (scanCompletedIdempotent host content action key).map eventId

/-- When the two readings of the events have the same first decision. -/
structure Aligned (host : Host) (events : List Dict) (action key : Str) : Prop where
  blocking : ∀ i id, (∀ j < i, ∀ other, ¬ ScanBlocks host events action key j other ∧
    ¬ TableBlocks host events action key j other) →
      (ScanBlocks host events action key i id ↔ TableBlocks host events action key i id)
  completed : ∀ id, Leads (ScanCompleted events action key) id → Leads (TableCompleted events action key) id
  incomplete : (∀ i id, ¬ ScanCompleted events action key i id) →
    ∀ i id, ¬ TableCompleted events action key i id

/-- An id blocks in either reading only where its first tracked decision stands. -/
theorem tracked_of_blocks {i : Nat} (blocks : ScanBlocks host events action key i id ∨
    TableBlocks host events action key i id) : ∃ event, First tracked events i id event := by
  rcases blocks with ⟨event, first, matching, -⟩ | ⟨event, first, -⟩
  · exact ⟨event, first_tracked first (tracked_of_matchesKey first.kept matching)⟩
  · exact ⟨event, first⟩

/-- The index answers as the scans do exactly when the readings of the events are aligned. -/
theorem index_agrees_iff (host : Host) (content : Bytes) (action key : Str) :
    Agrees host content action key ↔
      ∀ events, readEvents host (records content) = .ok events → Aligned host events action key := by
  unfold Agrees collectIdemTables scanBlockingIdempotent scanCompletedIdempotent
  cases read : readEvents host (records content) with
  | error e => exact iff_of_true ⟨rfl, rfl⟩ (fun events impossible => nomatch impossible)
  | ok events =>
    have held := tabled events
    have text : ((scanBlockingPrior host events action key).bind idOf).map Json.str =
        eventId (scanBlockingPrior host events action key) := by
      obtain ⟨found, isText, -⟩ := scanned_blocks host events action key
      cases prior : scanBlockingPrior host events action key with
      | none => rfl
      | some decision =>
        rw [prior, eventId, Option.map_some] at isText
        cases found with
        | none => cases isText
        | some id => rw [Option.bind_some, idOf, eventId, Option.map_some, Option.some.inj isText]; rfl
    simp only [Except.map, Except.ok.injEq, text]
    rw [(indexed_blocks held host action key).eventId_eq_iff (scanned_blocks host events action key),
      (indexed_completed held action key).eventId_eq_iff (scanned_completed events action key)]
    have blocking := leads_iff_same (P := ScanBlocks host events action key) (Q := TableBlocks host events action key)
      (fun i j id one two => by
        obtain ⟨_, first⟩ := tracked_of_blocks one
        obtain ⟨_, second⟩ := tracked_of_blocks two
        exact first.unique second)
    have completed := leads_iff (P := ScanCompleted events action key) (Q := TableCompleted events action key)
      (fun i id other one two => by
        obtain ⟨_, first, -⟩ := one
        obtain ⟨_, second, -⟩ := two
        have same := first.event_eq second
        exact Option.some.inj (first.named.symm.trans (same ▸ second.named)))
    simp only [iff_comm (a := Leads (TableBlocks host events action key) _),
      iff_comm (a := Leads (TableCompleted events action key) _)]
    rw [blocking, completed]
    constructor
    · rintro ⟨same, forward, empty⟩ others isRead
      cases isRead
      exact ⟨same, forward, empty⟩
    · intro aligned
      have here := aligned events rfl
      exact ⟨here.blocking, here.completed, here.incomplete⟩

/-! ## Journals in order -/

/-- Decision ids do not repeat; what names a decision follows it with a text; and no dry run
is said to have succeeded. -/
structure Orderly (events : List Dict) : Prop where
  unique : ∀ (i j : Nat) (one two : Dict) (id : Str), events[i]? = some one → events[j]? = some two →
    isEvent "decision" one = true → isEvent "decision" two = true → idOf one = some id → idOf two = some id → i = j
  later : ∀ kind field, (kind, field) ∈ [("outcome", "status"), ("resolution", "resolution")] →
    ∀ (i j : Nat) (decision event : Dict) (id : Str), events[i]? = some decision →
      isEvent "decision" decision = true → idOf decision = some id → events[j]? = some event →
        namesId kind id event = true → i < j ∧ (asStr (get event field)).isSome = true
  wet : ∀ decision ∈ events, isEvent "decision" decision = true → get decision "dry_run" = .bool true →
    ∀ id ∈ idOf decision, ∀ outcome ∈ events, succeedsFor id outcome = false

variable {i : Nat}

/-- In order, what names a decision is what follows it with a text. -/
theorem Orderly.values (orderly : Orderly events) {kind field : String}
    (listed : (kind, field) ∈ [("outcome", "status"), ("resolution", "resolution")])
    (first : First (isEvent "decision") events i id event) :
    valuesFor kind field events id = textsFor kind field (events.drop (i + 1)) id := by
  have split : valuesFor kind field events id =
      valuesFor kind field (events.take (i + 1)) id ++ valuesFor kind field (events.drop (i + 1)) id := by
    rw [valuesFor, valuesFor, valuesFor, ← List.map_append, ← List.filter_append, List.take_append_drop]
  have before : valuesFor kind field (events.take (i + 1)) id = [] := by
    rw [valuesFor, List.map_eq_nil_iff, List.filter_eq_nil_iff]
    intro one member named
    obtain ⟨j, less, rfl⟩ := List.mem_iff_getElem.mp member
    rw [List.length_take, lt_min_iff] at less
    rw [List.getElem_take] at named
    have bound := (orderly.later kind field listed i j event _ id first.here first.kept first.named
      (List.getElem?_eq_getElem less.2) named).1
    omega
  rw [split, before, List.nil_append, textsFor, List.filter_eq_self.mpr]
  intro value member
  obtain ⟨one, inside, rfl⟩ := List.mem_map.mp member
  rw [List.mem_filter] at inside
  obtain ⟨j, found⟩ := List.mem_iff_getElem?.mp (List.mem_of_mem_drop inside.1)
  exact (orderly.later kind field listed i j event one id first.here first.kept first.named found inside.2).2

theorem Orderly.first_decision (orderly : Orderly events) (first : First tracked events i id event) :
    First (isEvent "decision") events i id event := by
  have decision := decision_of_tracked first.kept
  refine ⟨first.here, decision, first.named, ?_⟩
  intro j less earlier found keptEarlier named
  have same := orderly.unique j i earlier event id found first.here keptEarlier decision named first.named
  omega

theorem Orderly.last_eq (orderly : Orderly events) (first : First (isEvent "decision") events i id event) :
    lastDecision events id = some event := by
  obtain ⟨last, found⟩ := lastDecision_of_first first
  have member := List.mem_of_getLast? found
  simp only [List.mem_filter, Bool.and_eq_true, beq_iff_eq] at member
  obtain ⟨j, here⟩ := List.mem_iff_getElem?.mp member.1
  have same := orderly.unique i j event last id first.here here first.kept member.2.1 first.named member.2.2
  subst same
  rw [found]
  exact here.symm.trans first.here

/-- A journal in order has aligned readings for every action and key. -/
theorem aligned_of_orderly (host : Host) (orderly : Orderly events) (action key : Str) :
    Aligned host events action key := by
  have blocks (i : Nat) (id : Str) :
      ScanBlocks host events action key i id ↔ TableBlocks host events action key i id := by
    constructor
    · rintro ⟨event, first, matching, blocking⟩
      have kept := tracked_of_matchesKey first.kept matching
      rw [orderly.values (by decide) first, orderly.values (by decide) first] at blocking
      exact ⟨event, first_tracked first kept, matching, blocking⟩
    · rintro ⟨event, first, matching, blocking⟩
      have firstDecision := orderly.first_decision first
      rw [← orderly.values (by decide) firstDecision, ← orderly.values (by decide) firstDecision] at blocking
      exact ⟨event, firstDecision, matching, blocking⟩
  have completes (i : Nat) (id : Str) :
      ScanCompleted events action key i id ↔ TableCompleted events action key i id := by
    constructor
    · rintro ⟨event, first, ⟨last, isLast, matching⟩, outcome, member, succeeded⟩
      have sameLast : event = last := Option.some.inj ((orderly.last_eq first).symm.trans isLast)
      subst sameLast
      have notDry : get event "dry_run" ≠ .bool true := by
        intro dry
        have none := orderly.wet event (List.mem_of_getElem? first.here) first.kept dry id first.named outcome member
        rw [succeeded] at none
        cases none
      have keyed : matchesKey action key event = true := by
        simp only [matchesCompleted, Bool.and_eq_true] at matching
        simp only [matchesKey, mayBlock, matching.1.1, matching.1.2, matching.2, Bool.true_and, Bool.and_true,
          Bool.not_eq_true']
      have kept := tracked_of_matchesKey first.kept keyed
      refine ⟨event, first_tracked first kept, keyed, outcome, ?_, succeeded⟩
      obtain ⟨j, found⟩ := List.mem_iff_getElem?.mp member
      simp only [succeedsFor, Bool.and_eq_true] at succeeded
      have after := (orderly.later "outcome" "status" (by decide) i j event outcome id first.here first.kept
        first.named found succeeded.1).1
      apply List.mem_of_getElem? (i := j - (i + 1))
      rw [List.getElem?_drop, Nat.add_sub_cancel' after, found]
    · rintro ⟨event, first, matching, outcome, member, succeeded⟩
      have firstDecision := orderly.first_decision first
      refine ⟨event, firstDecision, ⟨event, orderly.last_eq firstDecision, ?_⟩, outcome,
        List.mem_of_mem_drop member, succeeded⟩
      simp only [matchesKey, mayBlock, Bool.and_eq_true] at matching
      simp only [matchesCompleted, matching.1.1.1, matching.1.2, matching.2, Bool.and_self]
  refine ⟨fun i id _ => blocks i id, ?_, ?_⟩
  · rintro id ⟨i, counts, earliest⟩
    refine ⟨i, (completes i id).mp counts, ?_⟩
    exact fun j less other here => earliest j less other ((completes j other).mpr here)
  · exact fun none i id here => none i id ((completes i id).mpr here)

/-! ## An outcome without a text -/

/-- A keyed decision, and an outcome of it whose status is null. -/
def nullContent : Bytes :=
  (utf8Encode (lit "\x7b\"action_name\":\"pay\",\"decision\":\"allowed\",\"event_id\":\"d1\",\"event_type\":\"decision\",\"idempotency_key\":\"k1\"\x7d\n\x7b\"decision_event_id\":\"d1\",\"event_type\":\"outcome\",\"status\":null\x7d\n")).getD []

def nullHost : Host := .plain (fun bytes => bytes) (fun _ => none)

/-- The tables drop the outcome and take the decision as blocking; the scan does not. -/
theorem null_status_disagrees : ¬ ∀ host content action key, Agrees host content action key := by
  intro all
  have blocking := (all nullHost nullContent (lit "pay") (lit "k1")).1
  have texts := congrArg (fun answer => answer.toOption.map (Option.bind · asStr)) blocking
  exact absurd texts (by decide +kernel)

end Tesera.Journal.IndexScan
