import Tesera.Journal.Ordered

/-!
The answer of a full scan for blocking decisions, in terms of the events it has read: a
decision blocks by the outcomes and resolutions that name its id, whatever their order.
-/

namespace Tesera.Journal.Scan
open Tesera.Text Tesera.Text.Unicode Tesera.Text.Lines Tesera.Python.Value
open Tesera.Journal.Record Tesera.Journal.Idempotency

variable {host : Host} {events : List Dict} {event : Dict} {id : Str}

/-- The events of a file whose lines all decode. -/
theorem readEvents_decoded {lines : List Bytes} (decoded : Decoded host lines events) :
    readEvents host lines = .ok events := by
  induction decoded with
  | nil => rfl
  | cons first _ ih =>
    simp only [readEvents, first, ih]
    rfl

theorem linkedTo_link {linked : Linked} {ref : Str} {value : Json} :
    linkedTo (link linked ref value) id = if ref = id then linkedTo linked id ++ [value] else linkedTo linked id := by
  unfold link
  by_cases same : ref = id
  · rw [if_pos same, linkedTo, same, Members.get_put_self]
    rfl
  · rw [if_neg same, linkedTo, Members.get_put_of_ne (Ne.symm same)]
    rfl

/-- Whether an event of a kind names an id. -/
def namesId (kind : String) (id : Str) (event : Dict) : Bool :=
  isEvent kind event && asStr (get event "decision_event_id") == some id

/-- What the events of a kind that name an id hold in a field. -/
def valuesFor (kind field : String) (events : List Dict) (id : Str) : List Json :=
  (events.filter (namesId kind id)).map (fun event => get event field)

/-- The types an event is tested for exclude each other. -/
theorem isEvent_unique {first second : String} (one : isEvent first event = true) (apart : first ≠ second) :
    isEvent second event = false := by
  simp only [isEvent, beq_iff_eq, asStr_eq_some] at one
  simp [isEvent, one, asStr, apart]

/-- What the scan holds after some events. -/
structure Scanned (events : List Dict) (state : ScanState) : Prop where
  outcomes : ∀ id, linkedTo state.outcomes id = valuesFor "outcome" "status" events id
  resolutions : ∀ id, linkedTo state.resolutions id = valuesFor "resolution" "resolution" events id
  listed : ∀ p ∈ state.decisions, p.2 ∈ events ∧ isEvent "decision" p.2 = true ∧ idOf p.2 = some p.1
  found : ∀ event ∈ events, isEvent "decision" event = true → ∀ id ∈ idOf event, state.decisions.has id = true

theorem valuesFor_append (kind field : String) (events : List Dict) (event : Dict) (id : Str) :
    valuesFor kind field (events ++ [event]) id =
      valuesFor kind field events id ++ (if namesId kind id event then [get event field] else []) := by
  rw [valuesFor, List.filter_append, List.map_append, List.filter_singleton, Bool.cond_eq_ite]
  split_ifs <;> rfl

theorem linked_step {kind field : String} {linked after : Linked}
    (before : ∀ id, linkedTo linked id = valuesFor kind field events id)
    (step : after = if isEvent kind event then
      (asStr (get event "decision_event_id")).elim linked (fun ref => link linked ref (get event field)) else linked)
    (id : Str) : linkedTo after id = valuesFor kind field (events ++ [event]) id := by
  rw [valuesFor_append, namesId, step, ← before]
  by_cases here : isEvent kind event = true
  · rw [if_pos here, here, Bool.true_and]
    cases ref : asStr (get event "decision_event_id") with
    | none => simp
    | some text =>
      rw [Option.elim_some, linkedTo_link]
      by_cases same : text = id
      · simp [same]
      · simp [same]
  · rw [if_neg here, Bool.eq_false_iff.mpr here, Bool.false_and]
    simp

theorem scanEvent_outcomes (state : ScanState) (event : Dict) : (scanEvent state event).outcomes =
    if isEvent "outcome" event then (asStr (get event "decision_event_id")).elim state.outcomes
      (fun ref => link state.outcomes ref (get event "status")) else state.outcomes := by
  unfold scanEvent
  by_cases decision : isEvent "decision" event = true
  · rw [if_pos decision, isEvent_unique decision (by decide), if_neg Bool.false_ne_true]
    cases asStr (get event "event_id") with
    | none => rfl
    | some text =>
      simp only
      split_ifs <;> rfl
  · rw [if_neg decision]
    by_cases outcome : isEvent "outcome" event = true
    · rw [if_pos outcome, if_pos outcome]
      cases asStr (get event "decision_event_id") <;> rfl
    · rw [if_neg outcome, if_neg outcome]
      split_ifs
      · cases asStr (get event "decision_event_id") <;> rfl
      · rfl

theorem scanEvent_resolutions (state : ScanState) (event : Dict) : (scanEvent state event).resolutions =
    if isEvent "resolution" event then (asStr (get event "decision_event_id")).elim state.resolutions
      (fun ref => link state.resolutions ref (get event "resolution")) else state.resolutions := by
  unfold scanEvent
  by_cases decision : isEvent "decision" event = true
  · rw [if_pos decision, isEvent_unique decision (by decide), if_neg Bool.false_ne_true]
    cases asStr (get event "event_id") with
    | none => rfl
    | some text =>
      simp only
      split_ifs <;> rfl
  · rw [if_neg decision]
    by_cases outcome : isEvent "outcome" event = true
    · rw [if_pos outcome, isEvent_unique outcome (by decide), if_neg Bool.false_ne_true]
      cases asStr (get event "decision_event_id") <;> rfl
    · rw [if_neg outcome]
      split_ifs
      · cases asStr (get event "decision_event_id") <;> rfl
      · rfl

theorem scanEvent_decisions (state : ScanState) (event : Dict) : (scanEvent state event).decisions =
    if isEvent "decision" event then (idOf event).elim state.decisions
      (fun id => Ordered.setDefault state.decisions id event) else state.decisions := by
  unfold scanEvent idOf
  by_cases decision : isEvent "decision" event = true
  · rw [if_pos decision, if_pos decision]
    cases asStr (get event "event_id") with
    | none => rfl
    | some text =>
      simp only [Option.elim_some, Ordered.setDefault]
      split_ifs <;> rfl
  · rw [if_neg decision, if_neg decision]
    split_ifs
    · cases asStr (get event "decision_event_id") <;> rfl
    · cases asStr (get event "decision_event_id") <;> rfl
    · rfl

theorem scanned_scanState (events : List Dict) : Scanned events (scanState events) := by
  induction events using List.reverseRecOn with
  | nil => exact ⟨fun _ => rfl, fun _ => rfl, List.forall_mem_nil _, List.forall_mem_nil _⟩
  | append_singleton events event ih =>
    rw [scanState, List.foldl_append, List.foldl_cons, List.foldl_nil]
    rw [scanState] at ih
    generalize events.foldl scanEvent ⟨[], [], []⟩ = state at ih
    refine ⟨?_, ?_, ?_, ?_⟩
    · exact linked_step ih.outcomes (scanEvent_outcomes state event)
    · exact linked_step ih.resolutions (scanEvent_resolutions state event)
    · have old : ∀ p ∈ state.decisions, p.2 ∈ events ++ [event] ∧ isEvent "decision" p.2 = true ∧
          idOf p.2 = some p.1 := by
        intro p member
        obtain ⟨inEvents, isDecision, isId⟩ := ih.listed p member
        exact ⟨List.mem_append_left [event] inEvents, isDecision, isId⟩
      rw [scanEvent_decisions]
      split_ifs with decision
      · cases text : idOf event with
        | none => exact old
        | some id =>
          intro p member
          rcases Ordered.mem_setDefault member with before | rfl
          · exact old p before
          · exact ⟨List.mem_append_right events (List.mem_singleton_self event), decision, text⟩
      · exact old
    · intro other inEvents isDecision id isId
      rw [scanEvent_decisions]
      rcases List.mem_append.mp inEvents with before | last
      · have present := ih.found other before isDecision id isId
        split_ifs
        · cases idOf event with
          | none => exact present
          | some text => exact Ordered.has_setDefault.mpr (.inl present)
        · exact present
      · rw [List.mem_singleton] at last
        rw [← last, if_pos isDecision, Option.mem_def.mp isId]
        exact Ordered.has_setDefault.mpr (.inr rfl)

/-! ## The blocking decision -/

/-- Whether a decision blocks by the events that name its id. -/
def blocks (host : Host) (events : List Dict) (action key : Str) (decision : Dict) : Prop :=
  isEvent "decision" decision = true ∧ matchesKey action key decision = true ∧ ∃ id, idOf decision = some id ∧
    isBlocking host (valuesFor "outcome" "status" events id) (valuesFor "resolution" "resolution" events id) = true

/-- Where ids do not repeat, the scan finds a blocking decision exactly when there is one. -/
theorem scanBlockingPrior_isSome {action key : Str}
    (unique : ∀ a ∈ events, ∀ b ∈ events, isEvent "decision" a = true → isEvent "decision" b = true →
      idOf a = idOf b → idOf a ≠ none → a = b) :
    ((scanBlockingPrior host events action key).bind idOf).isSome = true ↔
      ∃ decision ∈ events, blocks host events action key decision := by
  have scanned := scanned_scanState events
  unfold scanBlockingPrior blockingPriorFromState
  generalize scanState events = state at scanned
  simp only [scanned.outcomes, scanned.resolutions]
  constructor
  · intro some
    obtain ⟨id, found⟩ := Option.isSome_iff_exists.mp some
    obtain ⟨prior, chosen, isId⟩ := Option.bind_eq_some_iff.mp found
    obtain ⟨p, first, rfl⟩ := Option.map_eq_some_iff.mp chosen
    have passes := List.find?_some first
    obtain ⟨inEvents, isDecision, named⟩ := scanned.listed p (List.mem_of_find?_eq_some first)
    rw [Bool.and_eq_true] at passes
    exact ⟨p.2, inEvents, isDecision, passes.1, p.1, named, passes.2⟩
  · rintro ⟨decision, inEvents, isDecision, matching, id, isId, blocking⟩
    have present := scanned.found decision inEvents isDecision id isId
    obtain ⟨p, member, named⟩ := List.mem_map.mp (Ordered.has_iff.mp present)
    obtain ⟨inHistory, isOne, isSame⟩ := scanned.listed p member
    have same : p.2 = decision := by
      apply unique p.2 inHistory decision inEvents isOne isDecision
      · rw [isSame, isId, named]
      · rw [isSame]
        exact Option.some_ne_none _
    have exists_ : (state.decisions.find? (fun p => matchesKey action key p.2 &&
        isBlocking host (valuesFor "outcome" "status" events p.1)
          (valuesFor "resolution" "resolution" events p.1))).isSome = true := by
      rw [List.find?_isSome]
      refine ⟨p, member, ?_⟩
      rw [same, named, matching, blocking]
      rfl
    obtain ⟨q, first⟩ := Option.isSome_iff_exists.mp exists_
    obtain ⟨-, -, isText⟩ := scanned.listed q (List.mem_of_find?_eq_some first)
    rw [first, Option.map_some, Option.bind_some, isText]
    rfl

end Tesera.Journal.Scan
