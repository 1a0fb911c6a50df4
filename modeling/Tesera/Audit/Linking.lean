import Tesera.Audit.Report
import Tesera.Journal.Scan
import Tesera.Verification.Valid

/-!
What the first pass of the audit holds after some events: under each id the first decision
that carries it, and the outcomes and resolutions that refer to it, in file order.
-/

namespace Tesera.Audit.Linking
open Tesera.Text Tesera.Text.Unicode Tesera.Python.Value
open Tesera.Journal.Idempotency Tesera.Journal.Scan Tesera.Verification Tesera.Verification.Event Tesera.Audit.Report

variable {host : Host} {events : List Dict} {event : Dict} {id : Str}

/-! ## Fields -/

/-- An event of a known type with the fields of its type. -/
def Fielded (event : Dict) : Prop :=
  ∃ type : EventType, get event "event_type" = .str (lit type.name) ∧ ∀ field ∈ type.required, has event field = true

/-- The fields the audit reads from an event of any type. -/
theorem Fielded.shared (fielded : Fielded event) : has event "event_id" = true ∧ has event "event_type" = true := by
  obtain ⟨type, -, present⟩ := fielded
  constructor <;> apply present <;> cases type <;> decide

theorem Fielded.of_type {type : EventType} (fielded : Fielded event) (named : isEvent type.name event = true) :
    ∀ field ∈ type.required, has event field = true := by
  obtain ⟨found, typed, present⟩ := fielded
  simp only [isEvent, beq_iff_eq, asStr_eq_some] at named
  rw [named, Json.str.injEq, lit_inj] at typed
  have same : found = type := by
    revert typed
    cases found <;> cases type <;> decide
  rwa [← same]

theorem fielded_of_clean {trusted : Keyring} {previous : Option Str} {checkpoints : Checkpoints}
    (clean : Valid.IsClean host trusted previous checkpoints event) : Fielded event := by
  obtain ⟨type, _, _, clean⟩ := clean
  have fields := clean.fields
  rw [missingFields, List.append_eq_nil_iff, List.filter_eq_nil_iff] at fields
  refine ⟨type, clean.typed, ?_⟩
  intro field required
  simpa using fields.1 field required

/-! ## One event -/

/-- The links after one more event that has its fields. -/
def linkStep (host : Host) (links : Links) (entry : Entry) : Links :=
  let noted := links.note (idText host entry.1)
  if isEvent "decision" entry.1 then
    { noted with decisions := noted.decisions.setDefault (idText host entry.1) entry }
  else if isEvent "outcome" entry.1 then
    { noted with outcomes := Ordered.push noted.outcomes (refText host entry.1) entry }
  else if isEvent "resolution" entry.1 then
    { noted with resolutions := Ordered.push noted.resolutions (refText host entry.1) entry }
  else noted

theorem linkEvent_eq {links : Links} {entry : Entry} (fielded : Fielded entry.1) :
    linkEvent host links entry = .ok (linkStep host links entry) := by
  have id := item_of_has fielded.shared.1
  have type := item_of_has fielded.shared.2
  simp only [linkEvent, id, type, bind, Except.bind]
  unfold linkStep
  split_ifs with decision outcome resolution
  · rfl
  · have ref := item_of_has (@Fielded.of_type _ .outcome fielded outcome "decision_event_id" (by decide))
    rw [ref]
    rfl
  · have ref := item_of_has (@Fielded.of_type _ .resolution fielded resolution "decision_event_id" (by decide))
    rw [ref]
    rfl
  · rfl

theorem linkEvents_eq (fielded : ∀ event ∈ events, Fielded event) :
    linkEvents host events = .ok (events.zipIdx.foldl (linkStep host) .empty) := by
  unfold linkEvents
  generalize Links.empty = links
  have all : ∀ entry ∈ events.zipIdx, Fielded entry.1 := by
    intro entry member
    exact fielded entry.1 (List.fst_mem_of_mem_zipIdx member)
  revert all links
  induction events.zipIdx with
  | nil => exact fun _ _ => rfl
  | cons entry entries ih =>
    intro links all
    rw [List.foldlM_cons, linkEvent_eq (all entry List.mem_cons_self)]
    exact ih _ (fun other member => all other (List.mem_cons_of_mem entry member))

/-! ## After all events -/

def isDecisionOf (host : Host) (id : Str) (entry : Entry) : Bool :=
  isEvent "decision" entry.1 && idText host entry.1 == id

def refersTo (host : Host) (kind : String) (id : Str) (entry : Entry) : Bool :=
  isEvent kind entry.1 && refText host entry.1 == id

/-- The first decision with an id. -/
def firstDecision (host : Host) (events : List Dict) (id : Str) : Option Entry :=
  events.zipIdx.find? (isDecisionOf host id)

/-- The events of a kind that refer to a decision. -/
def referring (host : Host) (kind : String) (events : List Dict) (id : Str) : List Entry :=
  events.zipIdx.filter (refersTo host kind id)

structure Linked (host : Host) (events : List Dict) (links : Links) : Prop where
  seen : links.seen = events.map (idText host)
  unique : links.issues = [] ↔ (events.map (idText host)).Nodup
  decisions : ∀ id, links.decisions.find id = firstDecision host events id
  outcomes : ∀ id, Ordered.linked links.outcomes id = referring host "outcome" events id
  resolutions : ∀ id, Ordered.linked links.resolutions id = referring host "resolution" events id
  distinctDecisions : links.decisions.Distinct
  distinctOutcomes : links.outcomes.Distinct
  distinctResolutions : links.resolutions.Distinct

theorem mem_referring {kind : String} {entry : Entry} : entry ∈ referring host kind events id ↔
    events[entry.2]? = some entry.1 ∧ isEvent kind entry.1 = true ∧ refText host entry.1 = id := by
  simp only [referring, List.mem_filter, List.mem_zipIdx_iff_getElem?, refersTo, Bool.and_eq_true, beq_iff_eq]

theorem nodup_referring (kind : String) : (referring host kind events id).Nodup := by
  have indices := @List.nodup_zipIdx_map_snd _ events
  exact indices.of_map.filter _

theorem firstDecision_eq_some {entry : Entry} (found : firstDecision host events id = some entry) :
    events[entry.2]? = some entry.1 ∧ isEvent "decision" entry.1 = true ∧ idText host entry.1 = id := by
  have member := List.mem_of_find?_eq_some found
  have isOne := List.find?_some found
  rw [List.mem_zipIdx_iff_getElem?] at member
  simp only [isDecisionOf, Bool.and_eq_true, beq_iff_eq] at isOne
  exact ⟨member, isOne⟩

/-- A decision in the journal, or an earlier one, is the first with its id. -/
theorem firstDecision_isSome {i : Nat} (here : events[i]? = some event) (decision : isEvent "decision" event = true) :
    (firstDecision host events (idText host event)).isSome = true := by
  unfold firstDecision
  rw [List.find?_isSome]
  refine ⟨(event, i), List.mem_zipIdx_iff_getElem?.mpr here, ?_⟩
  simp [isDecisionOf, decision]

/-- Where ids do not repeat, an event is known by its id. -/
theorem index_unique (distinct : (events.map (idText host)).Nodup) {i j : Nat} {other : Dict}
    (first : events[i]? = some event) (second : events[j]? = some other) (same : idText host event = idText host other) :
    i = j := by
  have left : (events.map (idText host))[i]? = some (idText host event) := by rw [List.getElem?_map, first]; rfl
  have right : (events.map (idText host))[j]? = some (idText host event) := by
    rw [List.getElem?_map, second, same]
    rfl
  have inside : i < (events.map (idText host)).length := by
    by_contra outside
    rw [List.getElem?_eq_none (Nat.le_of_not_lt outside)] at left
    cases left
  exact (List.getElem?_inj inside distinct).mp (left.trans right.symm)

theorem firstDecision_of_unique (distinct : (events.map (idText host)).Nodup) {i : Nat}
    (here : events[i]? = some event) (decision : isEvent "decision" event = true) :
    firstDecision host events (idText host event) = some (event, i) := by
  obtain ⟨entry, found⟩ := Option.isSome_iff_exists.mp (@firstDecision_isSome host _ _ _ here decision)
  obtain ⟨there, -, named⟩ := firstDecision_eq_some found
  have index := index_unique distinct there here named
  have event_eq : entry.1 = event := by
    rw [index, here] at there
    exact (Option.some.inj there).symm
  rw [found, ← index, ← event_eq]

theorem linkStep_seen (links : Links) (entry : Entry) :
    (linkStep host links entry).seen = links.seen ++ [idText host entry.1] := by
  unfold linkStep
  split_ifs <;> rfl

theorem linkStep_issues (links : Links) (entry : Entry) :
    (linkStep host links entry).issues = (links.note (idText host entry.1)).issues := by
  unfold linkStep
  split_ifs <;> rfl

theorem linkStep_decisions (links : Links) (entry : Entry) : (linkStep host links entry).decisions =
    if isEvent "decision" entry.1 then links.decisions.setDefault (idText host entry.1) entry
    else links.decisions := by
  unfold linkStep
  split_ifs <;> rfl

theorem linkStep_outcomes (links : Links) (entry : Entry) : (linkStep host links entry).outcomes =
    if isEvent "outcome" entry.1 then Ordered.push links.outcomes (refText host entry.1) entry
    else links.outcomes := by
  unfold linkStep
  split_ifs with decision outcome outcome
  · rw [isEvent_unique decision (by decide)] at outcome
    cases outcome
  all_goals rfl

theorem linkStep_resolutions (links : Links) (entry : Entry) : (linkStep host links entry).resolutions =
    if isEvent "resolution" entry.1 then Ordered.push links.resolutions (refText host entry.1) entry
    else links.resolutions := by
  unfold linkStep
  split_ifs with decision resolution outcome resolution resolution
  · rw [isEvent_unique decision (by decide)] at resolution
    cases resolution
  · rfl
  · rw [isEvent_unique outcome (by decide)] at resolution
    cases resolution
  all_goals rfl

theorem note_issues (links : Links) (id : Str) :
    (links.note id).issues = [] ↔ links.issues = [] ∧ id ∉ links.seen := by
  simp only [Links.note, List.append_eq_nil_iff]
  apply and_congr_right
  intro _
  split_ifs with seen
  · simpa using List.contains_iff_mem.mp seen
  · simpa using fun member => seen (List.contains_iff_mem.mpr member)

theorem referring_append (kind : String) (events : List Dict) (event : Dict) (id : Str) :
    referring host kind (events ++ [event]) id = referring host kind events id ++
      (if refersTo host kind id (event, events.length) then [(event, events.length)] else []) := by
  simp only [referring, List.zipIdx_append, List.filter_append, List.zipIdx_singleton, Nat.zero_add,
    List.filter_singleton, Bool.cond_eq_ite]

theorem firstDecision_append (events : List Dict) (event : Dict) (id : Str) :
    firstDecision host (events ++ [event]) id = (firstDecision host events id).or
      (if isDecisionOf host id (event, events.length) then some (event, events.length) else none) := by
  simp only [firstDecision, List.zipIdx_append, List.find?_append, List.zipIdx_singleton, Nat.zero_add,
    List.find?_singleton]

/-- Linking by reference, one event on. -/
theorem linked_step {kind : String} {linked after : Ordered (List Entry)}
    (before : ∀ id, linked.linked id = referring host kind events id)
    (step : after = if isEvent kind event then Ordered.push linked (refText host event) (event, events.length)
      else linked) (id : Str) : after.linked id = referring host kind (events ++ [event]) id := by
  rw [referring_append, step, refersTo, ← before]
  by_cases here : isEvent kind event = true
  · rw [if_pos here, Ordered.linked_push, here, Bool.true_and]
    simp only [beq_iff_eq]
    split_ifs with same
    · rfl
    · rw [List.append_nil]
  · rw [if_neg here, Bool.eq_false_iff.mpr here, Bool.false_and]
    simp

theorem linked_links (events : List Dict) :
    Linked host events (events.zipIdx.foldl (linkStep host) .empty) := by
  induction events using List.reverseRecOn with
  | nil =>
    exact ⟨rfl, by simp [Links.empty], fun _ => rfl, fun _ => rfl, fun _ => rfl, List.nodup_nil, List.nodup_nil,
      List.nodup_nil⟩
  | append_singleton events event ih =>
    rw [List.zipIdx_append, List.foldl_append, List.zipIdx_singleton, Nat.zero_add, List.foldl_cons, List.foldl_nil]
    generalize events.zipIdx.foldl (linkStep host) .empty = links at ih
    refine ⟨?_, ?_, ?_, ?_, ?_, ?_, ?_, ?_⟩
    · rw [linkStep_seen, ih.seen, List.map_append]
      rfl
    · rw [linkStep_issues, note_issues, ih.unique, ih.seen, List.map_append, List.nodup_append]
      simp
    · intro id
      rw [linkStep_decisions, firstDecision_append, isDecisionOf, ← ih.decisions]
      by_cases here : isEvent "decision" event = true
      · rw [if_pos here, Ordered.find_setDefault, here, Bool.true_and]
        simp only [beq_iff_eq]
        split_ifs with same
        · subst same
          cases links.decisions.find (idText host event) <;> rfl
        · exact Option.or_none.symm
      · rw [if_neg here, Bool.eq_false_iff.mpr here, Bool.false_and]
        simp
    · exact linked_step ih.outcomes (linkStep_outcomes links _)
    · exact linked_step ih.resolutions (linkStep_resolutions links _)
    · rw [linkStep_decisions]
      split_ifs
      · exact Ordered.distinct_setDefault ih.distinctDecisions
      · exact ih.distinctDecisions
    · rw [linkStep_outcomes]
      split_ifs
      · exact Ordered.distinct_push ih.distinctOutcomes
      · exact ih.distinctOutcomes
    · rw [linkStep_resolutions]
      split_ifs
      · exact Ordered.distinct_push ih.distinctResolutions
      · exact ih.distinctResolutions

end Tesera.Audit.Linking
