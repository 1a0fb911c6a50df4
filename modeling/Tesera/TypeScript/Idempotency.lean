import Tesera.Journal.Ordered
import Tesera.TypeScript.Verdict
import Tesera.TypeScript.Witness

/-!
`Idempotency.ts`: what a scan of the journal collects, and the decision that blocks a key. A scan that
finds none has found every allowed decision for the key released: it has outcomes and none succeeded, or
it has none and its last resolution says that it was not completed.
-/

namespace Tesera.TypeScript.Idempotency
open Tesera.Text Tesera.Text.Unicode Tesera.Text.Lines Tesera.Text.Json
open Tesera.Journal.Idempotency (Ordered)
open Tesera.TypeScript.Value Tesera.TypeScript.Canonical Tesera.TypeScript.FileJournal Tesera.TypeScript.LineRoundTrip
open Tesera.TypeScript.Witness Tesera.TypeScript.Verify Tesera.TypeScript.Verdict

/-! ## The scan -/

/-- The object on a line. An array has none of the fields that are read. -/
def recordOn (engine : Engine) (line : Str) : Option Record :=
  match parseJson engine line with
  | some (.obj record) => some record
  | _ => none

def events (engine : Engine) (content : Bytes) : List Record := (logLines content).filterMap (recordOn engine)

structure JournalState where
  decisions : Ordered Record
  outcomes : Ordered (List Record)
  resolutions : Ordered (List Record)

def emptyState : JournalState := ⟨[], [], []⟩

def isEvent (kind : String) (record : Record) : Bool := isText (item record "event_type") kind

def idOf (record : Record) : Option Str := text (item record "event_id")

/-- The decision that an event is about. -/
def refOf (record : Record) : Option Str := text (item record "decision_event_id")

/-- The loop of `readState`. -/
def noteRecord (state : JournalState) (record : Record) : JournalState :=
  if isEvent "decision" record then
    { state with decisions := (idOf record).elim state.decisions (fun id => state.decisions.setDefault id record) }
  else if isEvent "outcome" record then
    { state with outcomes := (refOf record).elim state.outcomes (fun id => state.outcomes.push id record) }
  else if isEvent "resolution" record then
    { state with resolutions := (refOf record).elim state.resolutions (fun id => state.resolutions.push id record) }
  else state

def readState (engine : Engine) (content : Bytes) : JournalState := (events engine content).foldl noteRecord emptyState

/-! ## The blocking decision -/

/-- An allowed decision for the action and the key that is no dry run. -/
def matchesKey (actionName key : Str) (event : Record) : Bool :=
  isText (item event "decision") "allowed" && strictEqual (item event "action_name") (some (.str actionName)) &&
    strictEqual (item event "idempotency_key") (some (.str key)) && !strictEqual (item event "dry_run") (some (.bool true))

/-- The decisions that have resolutions, and whether the last one clears them; `String` throws on a value that has no
text. -/
def clearedOf : Ordered (List Record) → Option (Ordered Bool)
  | [] => some []
  | (decisionId, linked) :: rest =>
      match linked.getLast? with
      | none => clearedOf rest
      | some last =>
          (shown (item last "resolution")).bind (fun text =>
            (clearedOf rest).map ((decisionId, text == lit "confirmed_not_completed") :: ·))

def isBlocking (state : JournalState) (cleared : Ordered Bool) (eventId : Str) : Bool :=
  let linked := state.outcomes.linked eventId
  linked.any (fun outcome => isText (item outcome "status") "succeeded") ||
    (linked.isEmpty && cleared.find eventId != some true)

/-- `findBlocking`; none where it throws. -/
def findBlocking (state : JournalState) (actionName key : Str) : Option (Option Record) :=
  (clearedOf state.resolutions).map (fun cleared =>
    (state.decisions.find? (fun p => matchesKey actionName key p.2 && isBlocking state cleared p.1)).map Prod.snd)

/-- `scanBlocking`, of a file that can be read. -/
def scanBlocking (engine : Engine) (content : Bytes) (actionName key : Str) : Option (Option Record) :=
  findBlocking (readState engine content) actionName key

/-- `CompletionRegistry.key`, of one journal. -/
def registryKey (actionName key : Str) : Str := actionName ++ 0 :: key

/-! ## What a scan collects -/

section Scan

variable {history : List Record} {record : Record} {id : Str}

/-- The records of a kind that are about a decision. -/
def linkedTo (kind : String) (history : List Record) (id : Str) : List Record :=
  history.filter (fun record => isEvent kind record && refOf record == some id)

theorem linkedTo_append (kind : String) (history : List Record) (record : Record) (id : Str) :
    linkedTo kind (history ++ [record]) id =
      linkedTo kind history id ++ (if isEvent kind record && refOf record == some id then [record] else []) := by
  rw [linkedTo, List.filter_append, List.filter_singleton, Bool.cond_eq_ite]
  rfl

theorem isEvent_unique {kind other : String} (here : isEvent kind record = true) (different : kind ≠ other) :
    isEvent other record = false := by
  rw [isEvent, isText_iff] at here
  rw [isEvent, Bool.eq_false_iff, ne_eq, isText_iff, here, Option.some.injEq, Json.str.injEq, lit_inj]
  exact different

/-- What the scan holds after some records. -/
structure Scanned (history : List Record) (state : JournalState) : Prop where
  outcomes : ∀ id, state.outcomes.linked id = linkedTo "outcome" history id
  resolutions : ∀ id, state.resolutions.linked id = linkedTo "resolution" history id
  distinct : state.resolutions.Distinct
  listed : ∀ p ∈ state.decisions, p.2 ∈ history ∧ isEvent "decision" p.2 = true ∧ idOf p.2 = some p.1
  found : ∀ event ∈ history, isEvent "decision" event = true → ∀ id, idOf event = some id → state.decisions.has id = true

theorem linked_push {kind : String} {linked : Ordered (List Record)}
    (before : ∀ id, linked.linked id = linkedTo kind history id) (here : isEvent kind record = true) (id : Str) :
    Ordered.linked ((refOf record).elim linked (fun ref => linked.push ref record)) id =
      linkedTo kind (history ++ [record]) id := by
  rw [linkedTo_append, here, Bool.true_and, ← before]
  cases ref : refOf record with
  | none => simp
  | some other =>
    rw [Option.elim_some, Ordered.linked_push]
    by_cases same : other = id
    · simp [same]
    · simp [same]

theorem linked_same {kind : String} {linked : Ordered (List Record)}
    (before : ∀ id, linked.linked id = linkedTo kind history id) (other : isEvent kind record = false) (id : Str) :
    linked.linked id = linkedTo kind (history ++ [record]) id := by
  rw [linkedTo_append, other, Bool.false_and, before]
  simp

theorem Scanned.note {state : JournalState} (scanned : Scanned history state) (record : Record) :
    Scanned (history ++ [record]) (noteRecord state record) := by
  have listed : ∀ p ∈ state.decisions, p.2 ∈ history ++ [record] ∧ isEvent "decision" p.2 = true ∧ idOf p.2 = some p.1 := by
    intro p member
    obtain ⟨inside, isDecision, named⟩ := scanned.listed p member
    exact ⟨List.mem_append_left _ inside, isDecision, named⟩
  have found : isEvent "decision" record = false → ∀ event ∈ history ++ [record], isEvent "decision" event = true →
      ∀ id, idOf event = some id → state.decisions.has id = true := by
    intro other event member isDecision
    apply scanned.found event _ isDecision
    apply (List.mem_append.mp member).resolve_right
    intro last
    rw [List.mem_singleton.mp last, other] at isDecision
    cases isDecision
  unfold noteRecord
  by_cases decision : isEvent "decision" record = true
  · rw [if_pos decision]
    have noOutcome := isEvent_unique decision (by decide : "decision" ≠ "outcome")
    have noResolution := isEvent_unique decision (by decide : "decision" ≠ "resolution")
    refine ⟨linked_same scanned.outcomes noOutcome, linked_same scanned.resolutions noResolution, scanned.distinct, ?_, ?_⟩
    · cases named : idOf record with
      | none => exact listed
      | some id =>
        intro p member
        apply (Ordered.mem_setDefault member).elim (listed p)
        intro new
        subst new
        exact ⟨List.mem_append_right _ (List.mem_singleton_self _), decision, named⟩
    · intro event member isDecision id named
      apply (List.mem_append.mp member).elim
      · intro before
        have known := scanned.found event before isDecision id named
        cases idOf record with
        | none => exact known
        | some other => exact Ordered.has_setDefault.mpr (.inl known)
      · intro last
        rw [List.mem_singleton.mp last] at named
        simp only [named, Option.elim_some]
        exact Ordered.has_setDefault.mpr (.inr rfl)
  · rw [if_neg decision]
    have noDecision := Bool.eq_false_iff.mpr decision
    by_cases outcome : isEvent "outcome" record = true
    · rw [if_pos outcome]
      have noResolution := isEvent_unique outcome (by decide : "outcome" ≠ "resolution")
      exact ⟨linked_push scanned.outcomes outcome, linked_same scanned.resolutions noResolution, scanned.distinct, listed,
        found noDecision⟩
    · rw [if_neg outcome]
      have noOutcome := Bool.eq_false_iff.mpr outcome
      by_cases resolution : isEvent "resolution" record = true
      · rw [if_pos resolution]
        refine ⟨linked_same scanned.outcomes noOutcome, linked_push scanned.resolutions resolution, ?_, listed,
          found noDecision⟩
        cases refOf record with
        | none => exact scanned.distinct
        | some ref => exact Ordered.distinct_push scanned.distinct
      · rw [if_neg resolution]
        exact ⟨linked_same scanned.outcomes noOutcome, linked_same scanned.resolutions (Bool.eq_false_iff.mpr resolution),
          scanned.distinct, listed, found noDecision⟩

theorem scanned_fold (history : List Record) : Scanned history (history.foldl noteRecord emptyState) := by
  induction history using List.reverseRecOn with
  | nil =>
    exact ⟨fun _ => rfl, fun _ => rfl, List.nodup_nil, fun _ member => absurd member List.not_mem_nil,
      fun _ member => absurd member List.not_mem_nil⟩
  | append_singleton history record ih =>
    rw [List.foldl_append, List.foldl_cons, List.foldl_nil]
    exact ih.note record

/-! ## What a scan that finds nothing says -/

theorem find_clearedOf {resolutions : Ordered (List Record)} {cleared : Ordered Bool} (asked : clearedOf resolutions = some cleared)
    (found : cleared.find id = some true) :
    ∃ linked last, (id, linked) ∈ resolutions ∧ linked.getLast? = some last ∧
      shown (item last "resolution") = some (lit "confirmed_not_completed") := by
  induction resolutions generalizing cleared with
  | nil =>
    cases asked
    cases found
  | cons p rest ih =>
    obtain ⟨decisionId, linked⟩ := p
    rw [clearedOf] at asked
    cases ends : linked.getLast? with
    | none =>
      rw [ends] at asked
      obtain ⟨later, last, member, known⟩ := ih asked found
      exact ⟨later, last, List.mem_cons_of_mem _ member, known⟩
    | some last =>
      rw [ends] at asked
      obtain ⟨text, textual, more⟩ := Option.bind_eq_some_iff.mp asked
      obtain ⟨others, askedRest, rfl⟩ := Option.map_eq_some_iff.mp more
      rw [Ordered.find_cons] at found
      split_ifs at found with same
      · have clears := Option.some.inj found
        rw [beq_iff_eq] at clears
        subst clears same
        exact ⟨linked, last, List.mem_cons_self, ends, textual⟩
      · obtain ⟨later, lastOne, member, known⟩ := ih askedRest found
        exact ⟨later, lastOne, List.mem_cons_of_mem _ member, known⟩

/-- A decision that blocks no longer. -/
def Released (history : List Record) (id : Str) : Prop :=
  (linkedTo "outcome" history id ≠ [] ∧
    ∀ outcome ∈ linkedTo "outcome" history id, isText (item outcome "status") "succeeded" = false) ∨
  (linkedTo "outcome" history id = [] ∧ ∃ last, (linkedTo "resolution" history id).getLast? = some last ∧
    shown (item last "resolution") = some (lit "confirmed_not_completed"))

/-- Decisions with one id are one decision. -/
def Unrepeated (history : List Record) : Prop :=
  ∀ one ∈ history, ∀ other ∈ history, isEvent "decision" one = true → isEvent "decision" other = true →
    ∀ id, idOf one = some id → idOf other = some id → one = other

/-- Where ids do not repeat, a scan that finds nothing has found every decision for the key released. -/
theorem released_of_scan {actionName key : Str} (unrepeated : Unrepeated history)
    (scan : findBlocking (history.foldl noteRecord emptyState) actionName key = some none) {event : Record}
    (member : event ∈ history) (isDecision : isEvent "decision" event = true)
    (reserves : matchesKey actionName key event = true) (named : idOf event = some id) : Released history id := by
  have scanned := scanned_fold history
  generalize history.foldl noteRecord emptyState = state at scan scanned
  obtain ⟨cleared, asked, nothing⟩ := Option.map_eq_some_iff.mp scan
  have present := scanned.found event member isDecision id named
  obtain ⟨p, listed, isId⟩ := List.mem_map.mp (Ordered.has_iff.mp present)
  obtain ⟨inside, isOne, namedOne⟩ := scanned.listed p listed
  have same : p.2 = event := by
    apply unrepeated p.2 inside event member isOne isDecision id _ named
    rw [namedOne, isId]
  have free : isBlocking state cleared id = false := by
    have passes := List.find?_eq_none.mp (Option.map_eq_none_iff.mp nothing) p listed
    rw [same, isId, reserves, Bool.true_and, Bool.not_eq_true] at passes
    exact passes
  simp only [isBlocking, scanned.outcomes, Bool.or_eq_false_iff, List.any_eq_false, Bool.not_eq_true, Bool.and_eq_false_iff,
    List.isEmpty_eq_false_iff, bne_eq_false_iff_eq] at free
  obtain ⟨unsuccessful, some | clears⟩ := free
  · exact .inl ⟨some, unsuccessful⟩
  · by_cases none : linkedTo "outcome" history id = []
    · right
      obtain ⟨linked, last, inResolutions, ends, textual⟩ := find_clearedOf asked clears
      refine ⟨none, last, ?_, textual⟩
      rw [← scanned.resolutions, Ordered.linked, Ordered.find_of_mem scanned.distinct inResolutions]
      exact ends
    · exact .inl ⟨none, unsuccessful⟩

end Scan

/-! ## A line more -/

/-- An event that a line holds and a scan reads back: its numbers are doubles, and no string of it has the letters
`u2028` or `u2029` after a backslash. -/
structure Legible (engine : Engine) (event : Record) : Prop where
  ok : (Json.obj event).Ok engine
  units : (Json.obj event).Strings Units
  unmarked : (Json.obj event).Strings Unmarked

section Written

variable {engine : Engine} {content : Bytes} {event : Record} {line : Str}

/-- Past a line of the file, a scan finds what stands on it after the events before. -/
theorem events_line (terminated : Terminated content) (one : OneLine line) (solid : trim line ≠ []) :
    events engine (written content line) = events engine content ++ (recordOn engine line).toList := by
  rw [events, logLines_written terminated one solid, List.filterMap_append]
  cases found : recordOn engine line with
  | none =>
    rw [List.filterMap_cons_none found]
    rfl
  | some record =>
    rw [List.filterMap_cons_some found]
    rfl

theorem events_written (terminated : Terminated content) (legible : Legible engine event)
    (encoded : canonical (.obj event) = some line) :
    events engine (written content line) = events engine content ++ [event] ∧ Terminated (written content line) := by
  have same : line = render (toTree (.obj event)) :=
    Option.some.inj (encoded.symm.trans (canonical_eq engine _ legible.ok))
  subst same
  have one := oneLine_render legible.units legible.unmarked
  have solid : trim (render (toTree (.obj event))) ≠ [] := by
    rw [trim_render]
    exact one.nonempty
  have read : recordOn engine (render (toTree (.obj event))) = some event := by
    rw [recordOn, (parseJson_canonical engine legible.ok).mpr legible.unmarked]
  refine ⟨?_, terminated_written content one.wellFormed⟩
  rw [events_line terminated one solid, read]
  rfl

end Written

end Tesera.TypeScript.Idempotency
