import Tesera.Commands.Operator
import Tesera.Engine.Events
import Tesera.Journal.IndexCache
import Tesera.Journal.IndexScan

/-!
Guarded calls of several processes on one journal. A call with an idempotency key looks for a
blocking decision and appends its own under one lock, runs its target and appends the outcome;
resolutions and the records of other commands come in between. An allowed decision is only
appended where every earlier one for its key is settled as not completed.
-/

namespace Tesera.Engine.Reservation
open Tesera.Text Tesera.Text.Unicode Tesera.Text.Lines Tesera.Python.Value Tesera.Canonical Tesera.Transition
open Tesera.Journal.Record Tesera.Journal.Payloads Tesera.Journal.Tail Tesera.Journal.Idempotency
open Tesera.Journal.Append Tesera.Journal.Scan Tesera.Journal.Firsts Tesera.Journal.IndexScan Tesera.Journal.IndexCache
open Tesera.Commands.Operator Tesera.Approval Tesera.Engine.Events

/-! ## Calls on one file -/

/-- The file, the tables each process keeps of it, and the decisions whose target runs. -/
structure World where
  file : Bytes
  caches : Nat → IdemCache
  running : List Str

def World.empty : World := ⟨[], fun _ => none, []⟩

/-- What happens next, in any order. An append of a call may also fail, or raise once its line
is in the file. -/
inductive Action where
  /-- The check before the approval has found a duplicate. -/
  | duplicate (process : Nat) (call : Call) (prior : Option Str) (stamp : Stamp) (raises : Bool)
  /-- The seventh step of `_prepare_execution`, after the approval; the call may be known to be
  completed in this process. -/
  | prepare (process : Nat) (call : Call) (decision : ApprovalDecision) (stamp : Stamp) (completed raises : Bool)
  /-- The target of a call has ended. -/
  | outcome (process : Nat) (signer : Signer) (contract : ActionContract) (stamp : Stamp) (id : Str) (ending : Ending)
      (raises : Bool)
  /-- A process ends while the target of a call runs, or no outcome can be made of its end. -/
  | lost (id : Str)
  /-- `resolve_journal`. The file only grows, so what it has found it still finds when it appends. -/
  | resolve (process : Nat) (signer : Signer) (stamp : Stamp) (id resolution note : Str) (raises : Bool)
  /-- A record of another command. -/
  | maintain (process : Nat) (build : Option Str → Except PyError Dict) (raises : Bool)
  /-- The tables of a process are dropped. -/
  | evict (process : Nat)

section Steps

variable (host : Host) (name : String) (indexed : Nat → Bool)

/-- The tail read, the write and the note of an append, with the tables a look has left; and
whether the call returns. -/
def World.append (world : World) (process : Nat) (looked : IdemCache) (build : Option Str → Except PyError Dict)
    (raises : Bool) : World × Bool :=
  match appendBuilt host name world.file build with
  | .error _ => (⟨world.file, Function.update world.caches process looked, world.running⟩, false)
  | .ok appended =>
      let noted := if raises then looked else
        noteIdemAppend (indexed process) looked appended.event world.file.length appended.previous
          appended.content.length (asStr (get appended.event "event_hash"))
      (⟨appended.content, Function.update world.caches process noted, world.running⟩, !raises)

/-- The action and the key that a call looks up. -/
def query (call : Call) : Option (Str × Str) := call.resolvedKey.map (fun key => (call.contract.actionName, key))

/-- A call with a key is a duplicate if a decision blocks or it is known to be completed. -/
def isDuplicate (call : Call) (completed : Bool) (blocking : Option Str) : Bool :=
  call.resolvedKey.isSome && (blocking.isSome || completed)

/-- The decision that is appended after the approval. -/
def buildDecision (call : Call) (decision : ApprovalDecision) (stamp : Stamp) (completed : Bool)
    (blocking previous : Option Str) : Except PyError Dict :=
  match call.resolvedKey with
  | some _ => buildAtomic host call decision stamp completed previous blocking
  | none => buildEvent host call.signer stamp call.contract "decision" (allowedExtra call decision) previous

/-- Whether a call whose decision has been appended goes on to its target. -/
def proceeds (call : Call) (decision : ApprovalDecision) (completed : Bool) (blocking : Option Str) : Bool :=
  !isDuplicate call completed blocking && decision.allowed && !call.dryRun

def World.prepare (world : World) (process : Nat) (call : Call) (decision : ApprovalDecision) (stamp : Stamp)
    (completed raises : Bool) : World :=
  match blockingFor host (indexed process) name (world.caches process) world.file (query call) with
  | .error _ => world
  | .ok (blocking, looked) =>
      let appended := world.append host name indexed process looked
        (buildDecision host call decision stamp completed blocking) raises
      if appended.2 && proceeds call decision completed blocking then
        { appended.1 with running := stamp.eventId :: world.running }
      else appended.1

/-- `resolve_journal` on a decision of the file. -/
def World.resolve (world : World) (process : Nat) (signer : Signer) (stamp : Stamp) (id resolution note : Str)
    (raises : Bool) : World :=
  match findDecisionIn host id (records world.file) with
  | .ok (some decision) =>
      if knownResolutions.contains resolution && (unresolvable host id decision).isNone then
        (world.append host name indexed process (world.caches process)
          (buildResolution host signer stamp decision id resolution (boundedNote note)) raises).1
      else world
  | _ => world

def step (world : World) : Action → Option World
  | .duplicate process call prior stamp raises =>
      if call.resolvedKey.isSome then
        some (world.append host name indexed process (world.caches process)
          (buildEvent host call.signer stamp call.contract "decision" (duplicateExtra call prior)) raises).1
      else none
  | .prepare process call decision stamp completed raises =>
      some (world.prepare host name indexed process call decision stamp completed raises)
  | .outcome process signer contract stamp id ending raises =>
      if world.running.contains id then
        some { (world.append host name indexed process (world.caches process)
          (buildEvent host signer stamp contract "outcome" (outcomeExtra (.str id) ending)) raises).1 with
            running := world.running.filter (fun other => other != id) }
      else none
  | .lost id => some { world with running := world.running.filter (fun other => other != id) }
  | .resolve process signer stamp id resolution note raises =>
      some (world.resolve host name indexed process signer stamp id resolution note raises)
  | .maintain process build raises =>
      some (world.append host name indexed process (world.caches process) build raises).1
  | .evict process => some { world with caches := Function.update world.caches process none }

end Steps

/-! ## What is assumed of a step -/

/-- No event of the file has the id or names it. -/
def Fresh (host : Host) (world : World) (id : Str) : Prop :=
  ∀ events, readEvents host (records world.file) = .ok events → ∀ event ∈ events,
    idOf event ≠ some id ∧ asStr (get event "decision_event_id") ≠ some id

/-- The id of a new decision is new, values are well formed, and the records of other commands
are no decisions, outcomes or resolutions. -/
def Assumed (host : Host) (world : World) : Action → Prop
  | .duplicate _ call _ stamp _ => Fresh host world stamp.eventId ∧ ∀ v ∈ call.metadata, v.Ok host
  | .prepare _ call _ stamp _ _ => Fresh host world stamp.eventId ∧ ∀ v ∈ call.metadata, v.Ok host
  | .outcome _ _ _ _ _ ending _ => ∀ v ∈ ending.receipt, v.Ok host
  | .maintain _ build _ => ∀ previous event, build previous = .ok event → DictOk host event ∧
      ∀ kind ∈ ["decision", "outcome", "resolution"], isEvent kind event = false
  | _ => True

/-- A decision is not resolved as not completed while its target runs. -/
def Waits (world : World) : Action → Prop
  | .resolve _ _ _ id resolution _ _ => resolution = lit "confirmed_not_completed" → id ∉ world.running
  | _ => True

/-! ## What holds of the file -/

/-- An allowed decision for the action and the key that is no dry run. -/
def Reserves (action key : Str) (event : Dict) : Prop :=
  isEvent "decision" event = true ∧ matchesKey action key event = true

/-- A decision is settled as not completed: it has outcomes, all failed, or none, and its latest
resolution says so. -/
def Settled (events : List Dict) (id : Str) : Prop :=
  (valuesFor "outcome" "status" events id ≠ [] ∧
    ∀ status ∈ valuesFor "outcome" "status" events id, status = .str (lit "failed")) ∨
  (valuesFor "outcome" "status" events id = [] ∧
    (valuesFor "resolution" "resolution" events id).getLast? = some (.str (lit "confirmed_not_completed")))

/-- Where a decision reserves a key, every earlier one that does is settled. -/
def Reserved (events : List Dict) : Prop :=
  ∀ (action key : Str) (j : Nat) (later : Dict), events[j]? = some later → Reserves action key later →
    ∀ (i : Nat) (earlier : Dict), i < j → events[i]? = some earlier → Reserves action key earlier →
      ∃ id, idOf earlier = some id ∧ Settled (events.take j) id

/-- A decision on the action and the key that some outcome says has succeeded. -/
def Succeeds (events : List Dict) (action key : Str) (event : Dict) : Prop :=
  isEvent "decision" event = true ∧ asStr (get event "action_name") = some action ∧
    asStr (get event "idempotency_key") = some key ∧
      ∃ id, idOf event = some id ∧ ∃ outcome ∈ events, succeedsFor id outcome = true

/-- At most one decision on an action and a key succeeds. -/
def Once (events : List Dict) : Prop :=
  ∀ (action key : Str) (i j : Nat) (one two : Dict), events[i]? = some one → events[j]? = some two →
    Succeeds events action key one → Succeeds events action key two → i = j

/-! ## The invariant of the events -/

/-- What the events of the file and the running targets are like. With `patient`, no running
call has been resolved as not completed, and no outcome follows such a resolution. -/
structure Kept (patient : Prop) (events : List Dict) (running : List Str) : Prop where
  orderly : Orderly events
  named : ∀ event ∈ events, isEvent "decision" event = true → ∃ id, idOf event = some id
  ended : ∀ event ∈ events, isEvent "outcome" event = true →
    get event "status" = .str (lit "succeeded") ∨ get event "status" = .str (lit "failed")
  wet : ∀ id, (id ∈ running ∨ valuesFor "outcome" "status" events id ≠ []) →
    ∃ decision ∈ events, isEvent "decision" decision = true ∧ idOf decision = some id ∧ mayBlock decision = true
  once : ∀ id, (valuesFor "outcome" "status" events id).length ≤ 1
  unended : ∀ id ∈ running, valuesFor "outcome" "status" events id = []
  reserved : Reserved events
  quiet : patient → ∀ id ∈ running, ∀ event ∈ events, namesId "resolution" id event = true →
    get event "resolution" ≠ .str (lit "confirmed_not_completed")
  final : patient → ∀ (p q : Nat) (resolution outcome : Dict) (id : Str), events[p]? = some resolution →
    namesId "resolution" id resolution = true →
      get resolution "resolution" = .str (lit "confirmed_not_completed") → events[q]? = some outcome →
        namesId "outcome" id outcome = true → q < p

section Events

variable {host : Host} {patient : Prop} {events : List Dict} {event : Dict} {running : List Str} {action key id : Str}

/-- What stands in a history of one event more stood there before, or is that event. -/
theorem snoc_cases {i : Nat} {one : Dict} (found : (events ++ [event])[i]? = some one) :
    (i < events.length ∧ events[i]? = some one) ∨ (i = events.length ∧ one = event) := by
  by_cases before : i < events.length
  · rw [List.getElem?_append_left before] at found
    exact .inl ⟨before, found⟩
  · right
    have inside := (List.getElem?_eq_some_iff.mp found).1
    rw [List.length_append, List.length_singleton] at inside
    have index : i = events.length := by omega
    rw [index, List.getElem?_concat_length, Option.some.injEq] at found
    exact ⟨index, found.symm⟩

theorem mem_snoc {one : Dict} (member : one ∈ events ++ [event]) : one ∈ events ∨ one = event := by
  rcases List.mem_append.mp member with before | last
  · exact .inl before
  · exact .inr (List.mem_singleton.mp last)

/-- A decision that runs or that an outcome names may block. -/
theorem Kept.blocks (kept : Kept patient events running)
    (either : id ∈ running ∨ valuesFor "outcome" "status" events id ≠ []) :
    ∀ decision ∈ events, isEvent "decision" decision = true → idOf decision = some id → mayBlock decision = true := by
  intro decision member isDecision named
  obtain ⟨other, memberOther, isOther, namedOther, may⟩ := kept.wet id either
  obtain ⟨i, here⟩ := List.mem_iff_getElem?.mp member
  obtain ⟨j, hereOther⟩ := List.mem_iff_getElem?.mp memberOther
  have same := kept.orderly.unique i j decision other id here hereOther isDecision isOther named namedOther
  rw [same, hereOther] at here
  exact Option.some.inj here ▸ may

theorem not_dry_of_mayBlock (may : mayBlock event = true) : get event "dry_run" ≠ .bool true := by
  intro dry
  rw [mayBlock, dry, Bool.and_eq_true] at may
  exact absurd may.2 (by decide)

/-- A history in order stays so with one event more: a decision with a new id, or an event that
names decisions that stand before it, with a text. -/
theorem orderly_append (orderly : Orderly events)
    (fresh : ∀ id, isEvent "decision" event = true → idOf event = some id → ∀ earlier ∈ events,
      idOf earlier ≠ some id ∧ asStr (get earlier "decision_event_id") ≠ some id)
    (texts : ∀ kind field, (kind, field) ∈ [("outcome", "status"), ("resolution", "resolution")] →
      isEvent kind event = true → (asStr (get event field)).isSome = true)
    (wet : ∀ id, namesId "outcome" id event = true → ∀ decision ∈ events, isEvent "decision" decision = true →
      idOf decision = some id → mayBlock decision = true) : Orderly (events ++ [event]) := by
  have names_of_listed : ∀ kind field, (kind, field) ∈ [("outcome", "status"), ("resolution", "resolution")] →
      kind ≠ "decision" := by
    simp only [List.mem_cons, List.not_mem_nil, or_false, Prod.mk.injEq]
    rintro kind field (⟨rfl, -⟩ | ⟨rfl, -⟩) <;> decide
  constructor
  · intro i j one two id atOne atTwo isOne isTwo namedOne namedTwo
    rcases snoc_cases atOne with ⟨less, before⟩ | ⟨index, rfl⟩ <;>
      rcases snoc_cases atTwo with ⟨lessTwo, beforeTwo⟩ | ⟨indexTwo, rfl⟩
    · exact orderly.unique i j one two id before beforeTwo isOne isTwo namedOne namedTwo
    · exact absurd namedOne (fresh id isTwo namedTwo one (List.mem_of_getElem? before)).1
    · exact absurd namedTwo (fresh id isOne namedOne two (List.mem_of_getElem? beforeTwo)).1
    · omega
  · intro kind field listed i j decision one id atDecision isDecision named atOne names
    rcases snoc_cases atDecision with ⟨less, before⟩ | ⟨index, rfl⟩ <;>
      rcases snoc_cases atOne with ⟨lessOne, beforeOne⟩ | ⟨indexOne, rfl⟩
    · exact orderly.later kind field listed i j decision one id before isDecision named beforeOne names
    · rw [namesId, Bool.and_eq_true] at names
      exact ⟨by omega, texts kind field listed names.1⟩
    · rw [namesId, Bool.and_eq_true, beq_iff_eq] at names
      exact absurd names.2 (fresh id isDecision named one (List.mem_of_getElem? beforeOne)).2
    · rw [namesId, isEvent_unique isDecision (Ne.symm (names_of_listed kind field listed)), Bool.false_and] at names
      cases names
  · intro decision member isDecision dry id named outcome inside
    by_contra succeeds
    have names : namesId "outcome" id outcome = true := by
      simp only [Bool.not_eq_false, succeedsFor, Bool.and_eq_true] at succeeds
      exact succeeds.1
    rcases mem_snoc member with before | rfl <;> rcases mem_snoc inside with beforeOutcome | rfl
    · have none := orderly.wet decision before isDecision dry id named outcome beforeOutcome
      exact succeeds none
    · exact not_dry_of_mayBlock (wet id names decision before isDecision named) dry
    · rw [namesId, Bool.and_eq_true, beq_iff_eq] at names
      exact (fresh id isDecision named outcome beforeOutcome).2 names.2
    · rw [namesId, isEvent_unique isDecision (by decide), Bool.false_and] at names
      cases names

/-- A reservation is added where every earlier one for its key is settled. -/
theorem reserved_append (reserved : Reserved events)
    (settled : ∀ action key, Reserves action key event → ∀ earlier ∈ events, Reserves action key earlier →
      ∃ id, idOf earlier = some id ∧ Settled events id) : Reserved (events ++ [event]) := by
  intro action key j later atLater reservesLater i earlier less atEarlier reservesEarlier
  rcases snoc_cases atEarlier with ⟨inside, before⟩ | ⟨index, rfl⟩
  · rcases snoc_cases atLater with ⟨insideLater, beforeLater⟩ | ⟨indexLater, rfl⟩
    · rw [List.take_append_of_le_length (Nat.le_of_lt insideLater)]
      exact reserved action key j later beforeLater reservesLater i earlier less before reservesEarlier
    · rw [indexLater, List.take_left']
      · exact settled action key reservesLater earlier (List.mem_of_getElem? before) reservesEarlier
      · rfl
  · have bound := (List.getElem?_eq_some_iff.mp atLater).1
    rw [List.length_append, List.length_singleton] at bound
    omega

/-- What one event more is like: it has a text where it names a decision; a new decision has a
new id and reserves only what is settled; an outcome is one of a running call; and the calls that
run after it ran before, or run by this decision. -/
structure Extends (patient : Prop) (events : List Dict) (running : List Str) (event : Dict) (after : List Str) :
    Prop where
  fresh : ∀ id, isEvent "decision" event = true → idOf event = some id → ∀ earlier ∈ events,
    idOf earlier ≠ some id ∧ asStr (get earlier "decision_event_id") ≠ some id
  texts : ∀ kind field, (kind, field) ∈ [("outcome", "status"), ("resolution", "resolution")] →
    isEvent kind event = true → (asStr (get event field)).isSome = true
  named : isEvent "decision" event = true → ∃ id, idOf event = some id
  ended : isEvent "outcome" event = true →
    get event "status" = .str (lit "succeeded") ∨ get event "status" = .str (lit "failed")
  settled : ∀ action key, Reserves action key event → ∀ earlier ∈ events, Reserves action key earlier →
    ∃ id, idOf earlier = some id ∧ Settled events id
  outcomes : ∀ id, namesId "outcome" id event = true → id ∈ running
  runs : ∀ id ∈ after, (id ∈ running ∧ namesId "outcome" id event = false) ∨
    (isEvent "decision" event = true ∧ idOf event = some id ∧ mayBlock event = true)
  waits : patient → ∀ id ∈ after, namesId "resolution" id event = true →
    get event "resolution" ≠ .str (lit "confirmed_not_completed")

variable {after : List Str}

theorem Extends.unnamed (extension : Extends patient events running event after) (isDecision : isEvent "decision" event = true)
    (named : idOf event = some id) (kind : String) : ∀ earlier ∈ events, namesId kind id earlier = false := by
  intro earlier member
  by_contra names
  rw [Bool.not_eq_false, namesId, Bool.and_eq_true, beq_iff_eq] at names
  exact (extension.fresh id isDecision named earlier member).2 names.2

/-- One event more of this kind keeps the invariant. -/
theorem kept_append (kept : Kept patient events running) (extension : Extends patient events running event after) :
    Kept patient (events ++ [event]) after where
  orderly := by
    apply orderly_append kept.orderly extension.fresh extension.texts
    intro id names
    exact kept.blocks (.inl (extension.outcomes id names))
  named := by
    intro one member isDecision
    rcases mem_snoc member with before | rfl
    · exact kept.named one before isDecision
    · exact extension.named isDecision
  ended := by
    intro one member isOutcome
    rcases mem_snoc member with before | rfl
    · exact kept.ended one before isOutcome
    · exact extension.ended isOutcome
  wet := by
    have old : ∀ id, (id ∈ running ∨ valuesFor "outcome" "status" events id ≠ []) →
        ∃ decision ∈ events ++ [event], isEvent "decision" decision = true ∧ idOf decision = some id ∧
          mayBlock decision = true := by
      intro id either
      obtain ⟨decision, member, facts⟩ := kept.wet id either
      exact ⟨decision, List.mem_append_left _ member, facts⟩
    rintro id (runs | some)
    · rcases extension.runs id runs with ⟨before, -⟩ | ⟨isDecision, named, may⟩
      · exact old id (.inl before)
      · exact ⟨event, List.mem_append_right _ (List.mem_singleton_self _), isDecision, named, may⟩
    · by_cases names : namesId "outcome" id event = true
      · exact old id (.inl (extension.outcomes id names))
      · rw [valuesFor_append, if_neg names, List.append_nil] at some
        exact old id (.inr some)
  once := by
    intro id
    rw [valuesFor_append]
    by_cases names : namesId "outcome" id event = true
    · rw [kept.unended id (extension.outcomes id names), if_pos names]
      exact Nat.le_refl 1
    · rw [if_neg names, List.append_nil]
      exact kept.once id
  unended := by
    intro id runs
    rw [valuesFor_append]
    rcases extension.runs id runs with ⟨before, other⟩ | ⟨isDecision, named, -⟩
    · rw [kept.unended id before, other, if_neg Bool.false_ne_true, List.append_nil]
    · have none : valuesFor "outcome" "status" events id = [] := by
        rw [valuesFor, List.map_eq_nil_iff, List.filter_eq_nil_iff]
        intro earlier member names
        rw [extension.unnamed isDecision named "outcome" earlier member] at names
        cases names
      rw [none, namesId, isEvent_unique isDecision (by decide), Bool.false_and, if_neg Bool.false_ne_true,
        List.append_nil]
  reserved := reserved_append kept.reserved extension.settled
  quiet := by
    intro patience id runs one member names
    rcases mem_snoc member with before | rfl
    · rcases extension.runs id runs with ⟨ran, -⟩ | ⟨isDecision, named, -⟩
      · exact kept.quiet patience id ran one before names
      · rw [extension.unnamed isDecision named "resolution" one before] at names
        cases names
    · exact extension.waits patience id runs names
  final := by
    intro patience p q resolution outcome id atResolution names clears atOutcome namesOutcome
    rcases snoc_cases atResolution with ⟨inside, before⟩ | ⟨index, rfl⟩ <;>
      rcases snoc_cases atOutcome with ⟨insideOutcome, beforeOutcome⟩ | ⟨indexOutcome, rfl⟩
    · exact kept.final patience p q resolution outcome id before names clears beforeOutcome namesOutcome
    · have runs := extension.outcomes id namesOutcome
      exact absurd clears (kept.quiet patience id runs resolution (List.mem_of_getElem? before) names)
    · omega
    · rw [namesId, Bool.and_eq_true] at names namesOutcome
      rw [isEvent_unique names.1 (by decide)] at namesOutcome
      cases namesOutcome.1

theorem Kept.fewer (kept : Kept patient events running) (sub : ∀ id ∈ after, id ∈ running) :
    Kept patient events after where
  orderly := kept.orderly
  named := kept.named
  ended := kept.ended
  wet := fun id either => kept.wet id (either.imp_left (sub id))
  once := kept.once
  unended := fun id runs => kept.unended id (sub id runs)
  reserved := kept.reserved
  quiet := fun patience id runs => kept.quiet patience id (sub id runs)
  final := kept.final

/-! ## The events of each kind -/

/-- An event of another kind is none of the two that name decisions. -/
theorem names_other {kind other : String} (isOther : isEvent other event = true) (apart : other ≠ kind) :
    namesId kind id event = false := by
  rw [namesId, isEvent_unique isOther apart, Bool.false_and]

theorem extends_decision {call : Call} {stamp : Stamp} {verdict : Verdict} {dryRun : Bool}
    (decides : Decides call stamp verdict dryRun event)
    (fresh : ∀ earlier ∈ events, idOf earlier ≠ some stamp.eventId ∧
      asStr (get earlier "decision_event_id") ≠ some stamp.eventId)
    (settled : ∀ action key, Reserves action key event → ∀ earlier ∈ events, Reserves action key earlier →
      ∃ id, idOf earlier = some id ∧ Settled events id)
    (started : ∀ id ∈ after, id ∈ running ∨ (id = stamp.eventId ∧ verdict = .allowed ∧ dryRun = false)) :
    Extends patient events running event after where
  fresh := by
    intro id isDecision named
    rw [decides.named, Option.some.injEq] at named
    exact named ▸ fresh
  texts := by
    simp only [List.mem_cons, List.not_mem_nil, or_false, Prod.mk.injEq]
    rintro kind field (⟨rfl, -⟩ | ⟨rfl, -⟩) isKind
    · rw [isEvent_unique decides.decision (by decide)] at isKind
      cases isKind
    · rw [isEvent_unique decides.decision (by decide)] at isKind
      cases isKind
  named := fun _ => ⟨_, decides.named⟩
  ended := by
    intro isOutcome
    rw [isEvent_unique decides.decision (by decide)] at isOutcome
    cases isOutcome
  settled := settled
  outcomes := by
    intro id names
    rw [names_other decides.decision (by decide)] at names
    cases names
  runs := by
    intro id runs
    rcases started id runs with before | ⟨rfl, allowed, wet⟩
    · exact .inl ⟨before, names_other decides.decision (by decide)⟩
    · right
      refine ⟨decides.decision, decides.named, ?_⟩
      rw [mayBlock, decides.verdict, decides.dry, allowed, wet]
      rfl
  waits := by
    intro patience id runs names
    rw [names_other decides.decision (by decide)] at names
    cases names

/-- An event that is no decision reserves nothing and starts no call. -/
theorem extends_other (other : isEvent "decision" event = false)
    (texts : ∀ kind field, (kind, field) ∈ [("outcome", "status"), ("resolution", "resolution")] →
      isEvent kind event = true → (asStr (get event field)).isSome = true)
    (ended : isEvent "outcome" event = true →
      get event "status" = .str (lit "succeeded") ∨ get event "status" = .str (lit "failed"))
    (outcomes : ∀ id, namesId "outcome" id event = true → id ∈ running ∧ id ∉ after)
    (sub : ∀ id ∈ after, id ∈ running)
    (waits : patient → ∀ id ∈ after, namesId "resolution" id event = true →
      get event "resolution" ≠ .str (lit "confirmed_not_completed")) :
    Extends patient events running event after where
  fresh := by
    intro id isDecision
    rw [other] at isDecision
    cases isDecision
  texts := texts
  named := by
    intro isDecision
    rw [other] at isDecision
    cases isDecision
  ended := ended
  settled := by
    intro action key reserves
    have isDecision := reserves.1
    rw [other] at isDecision
    cases isDecision
  outcomes := fun id names => (outcomes id names).1
  runs := by
    intro id runs
    refine .inl ⟨sub id runs, ?_⟩
    by_contra names
    exact (outcomes id (Bool.eq_true_of_not_eq_false names)).2 runs
  waits := waits

/-! ## What a look under the lock finds -/

/-- Where the scan finds no blocking decision, every reservation of the key is settled. -/
theorem settled_of_unblocked (kept : Kept patient events running)
    (unblocked : (scanBlockingPrior host events action key).bind idOf = none) :
    ∀ earlier ∈ events, Reserves action key earlier → ∃ id, idOf earlier = some id ∧ Settled events id := by
  obtain ⟨found, isText, leads⟩ := scanned_blocks host events action key
  have nothing : found = none := by
    cases prior : scanBlockingPrior host events action key with
    | none =>
      rw [prior, eventId, Option.map_none] at isText
      exact Option.map_eq_none_iff.mp isText.symm
    | some decision =>
      rw [prior, eventId, Option.map_some] at isText
      cases found with
      | none => rfl
      | some id =>
        rw [prior, Option.bind_some, idOf, Option.some.inj isText] at unblocked
        cases unblocked
  intro earlier member reserves
  obtain ⟨id, named⟩ := kept.named earlier member reserves.1
  obtain ⟨i, here⟩ := List.mem_iff_getElem?.mp member
  have first : First (isEvent "decision") events i id earlier := by
    refine ⟨here, reserves.1, named, ?_⟩
    intro j less other found isDecision namedOther
    have same := kept.orderly.unique j i other earlier id found here isDecision reserves.1 namedOther named
    omega
  have free : isBlocking host (valuesFor "outcome" "status" events id)
      (valuesFor "resolution" "resolution" events id) = false := by
    by_contra blocking
    have blocks : ∃ i id, ScanBlocks host events action key i id :=
      ⟨i, id, earlier, first, reserves.2, Bool.eq_true_of_not_eq_false blocking⟩
    obtain ⟨leader, leading⟩ := exists_leads blocks
    have impossible := (leads leader).mpr leading
    rw [nothing] at impossible
    cases impossible
  refine ⟨id, named, ?_⟩
  unfold isBlocking at free
  split_ifs at free with succeeded empty
  · right
    rw [List.isEmpty_iff] at empty
    refine ⟨empty, ?_⟩
    cases last : (valuesFor "resolution" "resolution" events id).getLast? with
    | none =>
      rw [last] at free
      cases free
    | some value =>
      rw [last] at free
      -- what names a decision names it with a text
      have inside := List.mem_of_getLast? last
      obtain ⟨one, memberOne, rfl⟩ := List.mem_map.mp inside
      rw [List.mem_filter] at memberOne
      obtain ⟨j, atOne⟩ := List.mem_iff_getElem?.mp memberOne.1
      have isText := (kept.orderly.later "resolution" "resolution" (by decide) i j earlier one id here reserves.1 named
        atOne memberOne.2).2
      obtain ⟨text, same⟩ := Option.isSome_iff_exists.mp isText
      rw [asStr_eq_some] at same
      rw [same] at free ⊢
      simp only [pyStr, bne_eq_false_iff_eq] at free
      rw [free]
  · left
    rw [List.isEmpty_iff] at empty
    refine ⟨empty, ?_⟩
    intro status inside
    obtain ⟨one, memberOne, rfl⟩ := List.mem_map.mp inside
    rw [List.mem_filter, namesId, Bool.and_eq_true] at memberOne
    rcases kept.ended one memberOne.1 memberOne.2.1 with isSucceeded | isFailed
    · exfalso
      apply succeeded
      rw [List.any_eq_true]
      exact ⟨_, inside, by rw [isSucceeded]; simp [asStr]⟩
    · exact isFailed

end Events

/-! ## The tables of the processes -/

/-- The tables of a process are those of what the file was when it had their size. -/
def Describes (host : Host) (file : Bytes) (cache : IdemCache) : Prop :=
  ∀ entry ∈ cache, ∃ before, before <+: file ∧ before.length = entry.size ∧
    collectIdemTables host before = .ok entry.tables

section Tables

variable {host : Host} {name : String} {useIndex : Bool} {file content : Bytes} {cache : IdemCache} {events : List Dict}
  {action key : Str}

theorem describes_none : Describes host file none := by
  intro entry member
  cases member

theorem Describes.grow (describes : Describes host file cache) (grows : file <+: content) :
    Describes host content cache := by
  intro entry member
  obtain ⟨before, inside, size, tables⟩ := describes entry member
  exact ⟨before, inside.trans grows, size, tables⟩

theorem Describes.here (describes : Describes host file cache) {entry : CacheEntry} (member : entry ∈ cache)
    (size : entry.size = file.length) : collectIdemTables host file = .ok entry.tables := by
  obtain ⟨before, inside, length, tables⟩ := describes entry member
  rw [inside.eq_of_length (length.trans size)] at tables
  exact tables

/-- The index answers a file in order as the scan does. -/
theorem indexed_eq_scan {tables : IdemTables} (read : readEvents host (records file) = .ok events)
    (orderly : Orderly events) (collected : collectIdemTables host file = .ok tables) :
    (indexedBlockingPrior host tables action key).bind idOf = (scanBlockingPrior host events action key).bind idOf := by
  have agrees : Agrees host file action key := by
    rw [index_agrees_iff]
    intro others same
    rw [read] at same
    cases same
    exact aligned_of_orderly host orderly action key
  have texts := agrees.1
  rw [collected, scanBlockingIdempotent, read] at texts
  simp only [Except.map, Except.ok.injEq] at texts
  generalize (scanBlockingPrior host events action key).bind idOf = answer at texts ⊢
  cases prior : indexedBlockingPrior host tables action key with
  | none =>
    rw [prior, eventId, Option.map_none] at texts
    exact (Option.map_eq_none_iff.mp texts.symm).symm
  | some decision =>
    rw [prior, eventId, Option.map_some] at texts
    obtain ⟨id, found, same⟩ := Option.map_eq_some_iff.mp texts.symm
    rw [Option.bind_some, idOf, ← same, found]
    rfl

/-- A look under the lock answers as the scan of the file does, by the index or without it. -/
theorem looked_eq_scan {answer : Option Str × IdemCache} (describes : Describes host file cache)
    (read : readEvents host (records file) = .ok events) (orderly : Orderly events)
    (looked : lockedBlockingPriorId host useIndex name cache file action key = .ok answer) :
    answer.1 = (scanBlockingPrior host events action key).bind idOf := by
  have scanned : ∀ {found : Option Str × IdemCache},
      (scanBlockingIdempotent host file action key).map (fun id => (id, cache)) = .ok found →
        found.1 = (scanBlockingPrior host events action key).bind idOf := by
    intro found same
    rw [scanBlockingIdempotent, read] at same
    cases same
    rfl
  unfold lockedBlockingPriorId at looked
  split_ifs at looked with indexed
  · cases answered : indexedBlockingPriorId host name cache file action key with
    | error e =>
      simp only [answered] at looked
      split_ifs at looked
      exact scanned looked
    | ok found =>
      simp only [answered, Except.ok.injEq] at looked
      subst looked
      obtain ⟨head, tail, rest⟩ := bind_eq_ok.mp answered
      cases hit : cachedIdemTables cache file.length head with
      | some tables =>
        simp only [hit] at rest
        cases rest
        obtain ⟨entry, kept, rfl⟩ := Option.map_eq_some_iff.mp hit
        rw [Option.filter_eq_some_iff, decide_eq_true_eq] at kept
        exact indexed_eq_scan read orderly (describes.here kept.1 kept.2.1)
      | none =>
        simp only [hit] at rest
        obtain ⟨tables, collected, same⟩ := bind_eq_ok.mp rest
        cases same
        exact indexed_eq_scan read orderly collected
  · exact scanned looked

/-- A look leaves tables that describe the file. -/
theorem describes_looked {answer : Option Str × IdemCache} (describes : Describes host file cache)
    (looked : lockedBlockingPriorId host useIndex name cache file action key = .ok answer) :
    Describes host file answer.2 := by
  cases useIndex with
  | false =>
    rw [lockedBlockingPriorId, if_neg Bool.false_ne_true] at looked
    cases answered : scanBlockingIdempotent host file action key with
    | error e =>
      rw [answered] at looked
      cases looked
    | ok id =>
      rw [answered] at looked
      cases looked
      exact describes
  | true =>
    rcases lockedBlockingPriorId_cache looked with same | ⟨head, tables, same, -, collected⟩
    · rw [same]
      exact describes
    · rw [same]
      rintro entry ⟨⟩
      exact ⟨file, List.prefix_refl file, rfl, collected⟩

/-- The note of an append leaves tables that describe the file with its line. -/
theorem describes_noted {event : Dict} {line : Bytes} {previous postHead : Option Str} (describes : Describes host file cache)
    (blank : Blank (fragment file)) (ok : DictOk host event) (encoded : encodeEvent host event = .ok line) :
    Describes host (file ++ (line ++ [10]))
      (noteIdemAppend useIndex cache event file.length previous (file ++ (line ++ [10])).length postHead) := by
  cases useIndex with
  | false => exact describes.grow (List.prefix_append file _)
  | true =>
    intro entry noted
    obtain ⟨head, before, -, inCache, size, -, rfl⟩ := noteIdemAppend_cache noted
    exact ⟨_, List.prefix_refl _, rfl, collect_written (describes.here inCache size) blank ok encoded⟩

end Tables

/-! ## Runs -/

/-- The file holds whole lines that are read as the events, and the tables of every process
describe it. -/
structure Sound (host : Host) (patient : Prop) (world : World) : Prop where
  blank : Blank (fragment world.file)
  events : ∃ events, readEvents host (records world.file) = .ok events ∧ Kept patient events world.running
  tables : ∀ process, Describes host world.file (world.caches process)

section Runs

variable {host : Host} {name : String} {indexed : Nat → Bool} {patient : Prop} {world after : World} {process : Nat}
  {looked : IdemCache} {build : Option Str → Except PyError Dict} {raises : Bool}

theorem sound_empty : Sound host patient .empty where
  blank := blank_nil
  events := by
    refine ⟨[], rfl, ?_⟩
    constructor
    · constructor <;> simp
    · simp
    · simp
    · simp [World.empty, valuesFor]
    · simp [valuesFor]
    · simp [World.empty]
    · simp [Reserved]
    · simp
    · simp
  tables := fun _ => describes_none

theorem describes_update {file : Bytes} {caches : Nat → IdemCache} {cache : IdemCache}
    (others : ∀ process, Describes host file (caches process)) (here : Describes host file cache) :
    ∀ other, Describes host file (Function.update caches process cache other) := by
  intro other
  by_cases same : other = process
  · rw [same, Function.update_self]
    exact here
  · rw [Function.update_of_ne same]
    exact others other

/-- An append adds a built event and its line, or nothing; in both cases the tables describe the
file. What runs afterwards is up to the call. -/
theorem sound_append (sound : Sound host patient world) (describes : Describes host world.file looked)
    (running : List Str)
    (ok : ∀ previous event, build previous = .ok event → DictOk host event)
    (failed : (world.append host name indexed process looked build raises).2 = false →
      ∀ id ∈ running, id ∈ world.running)
    (built : ∀ events previous event, readEvents host (records world.file) = .ok events →
      Kept patient events world.running → build previous = .ok event →
        Extends patient events world.running event running) :
    Sound host patient ⟨(world.append host name indexed process looked build raises).1.file,
      (world.append host name indexed process looked build raises).1.caches, running⟩ := by
  obtain ⟨events, read, kept⟩ := sound.events
  unfold World.append at failed ⊢
  cases result : appendBuilt host name world.file build with
  | error e =>
    rw [result] at failed
    exact ⟨sound.blank, ⟨events, read, kept.fewer (failed rfl)⟩, describes_update sound.tables describes⟩
  | ok appended =>
    obtain ⟨line, -, made, encoded, content⟩ := appendBuilt_eq_ok.mp result
    have isOk := ok _ _ made
    have solid := solid_encodeEvent encoded
    have grown : readEvents host (records (world.file ++ (line ++ [10]))) = .ok (events ++ [appended.event]) := by
      rw [records_written_of_blank solid sound.blank]
      exact readEvents_append read (decodeLine_encodeEvent isOk encoded)
    have grows : world.file <+: world.file ++ (line ++ [10]) := List.prefix_append world.file _
    constructor
    · have whole : fragment (world.file ++ (line ++ [10])) = [] := by
        rw [← List.append_assoc, fragment, List.rtakeWhile_concat_neg]
        decide
      simp only [content, whole]
      exact blank_nil
    · simp only [content]
      exact ⟨_, grown, kept_append kept (built events _ _ read kept made)⟩
    · simp only [content]
      apply describes_update (fun other => (sound.tables other).grow grows)
      split_ifs
      · exact describes.grow grows
      · exact describes_noted describes sound.blank isOk encoded

theorem append_running : (world.append host name indexed process looked build raises).1.running = world.running := by
  unfold World.append
  cases appendBuilt host name world.file build <;> rfl

/-- An append that no call runs by. -/
theorem sound_append_quiet (sound : Sound host patient world)
    (ok : ∀ previous event, build previous = .ok event → DictOk host event)
    (built : ∀ events previous event, readEvents host (records world.file) = .ok events →
      Kept patient events world.running → build previous = .ok event →
        Extends patient events world.running event world.running) :
    Sound host patient (world.append host name indexed process (world.caches process) build raises).1 := by
  have kept := @sound_append host name indexed patient world process _ build raises sound (sound.tables process)
    world.running ok (fun _ id runs => runs) built
  rw [← @append_running host name indexed world process (world.caches process) build raises] at kept
  exact kept

theorem dictOk_built {signer : Signer} {stamp : Stamp} {contract : ActionContract} {type : String} {extra event : Dict}
    {previous : Option Str} (built : buildEvent host signer stamp contract type extra previous = .ok event)
    (values : ValuesOk host extra) : DictOk host event :=
  dictOk_finalized built (dictOk_recordPayload signer stamp contract type previous values)

theorem sound_duplicate {call : Call} {prior : Option Str} {stamp : Stamp} (sound : Sound host patient world)
    (fresh : Fresh host world stamp.eventId) (metadata : ∀ v ∈ call.metadata, v.Ok host) :
    Sound host patient (world.append host name indexed process (world.caches process)
      (buildEvent host call.signer stamp call.contract "decision" (duplicateExtra call prior)) raises).1 := by
  apply sound_append_quiet sound
  · intro previous event made
    exact dictOk_built made (valuesOk_duplicateExtra metadata)
  · intro events previous event read kept made
    have decides := decides_duplicate made
    apply extends_decision decides (fresh events read)
    · intro action key reserves
      have impossible := (decides.matchesKey_iff.mp reserves.2).1
      cases impossible
    · exact fun id runs => .inl runs

/-- The decision of a call is a duplicate, or the one of the approval. -/
theorem buildDecision_cases {call : Call} {decision : ApprovalDecision} {stamp : Stamp} {completed : Bool}
    {blocking previous : Option Str} {event : Dict}
    (made : buildDecision host call decision stamp completed blocking previous = .ok event) :
    (isDuplicate call completed blocking = true ∧
      ∃ prior, buildEvent host call.signer stamp call.contract "decision" (duplicateExtra call prior) previous = .ok event) ∨
    (isDuplicate call completed blocking = false ∧
      buildEvent host call.signer stamp call.contract "decision" (allowedExtra call decision) previous = .ok event) := by
  unfold buildDecision at made
  cases keyed : call.resolvedKey with
  | none =>
    rw [keyed] at made
    exact .inr ⟨by rw [isDuplicate, keyed]; rfl, made⟩
  | some key =>
    rw [keyed] at made
    simp only [buildAtomic] at made
    have same : isDuplicate call completed blocking = (blocking.isSome || completed) := by
      rw [isDuplicate, keyed, Option.isSome_some, Bool.true_and]
    by_cases duplicate : (blocking.isSome || completed) = true
    · rw [if_pos duplicate] at made
      exact .inl ⟨same.trans duplicate, blocking, made⟩
    · rw [if_neg duplicate] at made
      exact .inr ⟨same.trans (Bool.eq_false_iff.mpr duplicate), made⟩

/-- The decision that is appended after a look is a duplicate, or it reserves what the look has
found free. -/
theorem extends_prepare {call : Call} {decision : ApprovalDecision} {stamp : Stamp} {completed : Bool}
    {blocking previous : Option Str} {events : List Dict} {event : Dict} {running : List Str}
    (sound : Sound host patient world) (fresh : Fresh host world stamp.eventId)
    (found : blockingFor host (indexed process) name (world.caches process) world.file (query call) =
      .ok (blocking, looked)) (read : readEvents host (records world.file) = .ok events)
    (kept : Kept patient events world.running)
    (made : buildDecision host call decision stamp completed blocking previous = .ok event)
    (started : ∀ id ∈ running, id ∈ world.running ∨
      (id = stamp.eventId ∧ proceeds call decision completed blocking = true)) :
    Extends patient events world.running event running := by
  rcases buildDecision_cases made with ⟨duplicate, prior, built⟩ | ⟨free, built⟩
  · have decides := decides_duplicate built
    apply extends_decision decides (fresh events read)
    · intro action key reserves
      have impossible := (decides.matchesKey_iff.mp reserves.2).1
      cases impossible
    · intro id runs
      rcases started id runs with before | ⟨-, goes⟩
      · exact .inl before
      · rw [proceeds, duplicate] at goes
        cases goes
  · have decides := decides_allowed built
    apply extends_decision decides (fresh events read)
    · intro action key reserves
      obtain ⟨-, -, named, keyed⟩ := decides.matchesKey_iff.mp reserves.2
      have unblocked : blocking = none := by
        rw [isDuplicate, keyed, Option.isSome_some, Bool.true_and, Bool.or_eq_false_iff] at free
        exact Option.isSome_eq_false_iff.mp free.1 |> Option.isNone_iff_eq_none.mp
      rw [query, keyed, Option.map_some, named] at found
      have answered := looked_eq_scan (sound.tables process) read kept.orderly found
      exact settled_of_unblocked kept (answered.symm.trans unblocked)
    · intro id runs
      rcases started id runs with before | ⟨same, goes⟩
      · exact .inl before
      · right
        rw [proceeds, Bool.and_eq_true, Bool.and_eq_true, ApprovalDecision.allowed, decide_eq_true_eq,
          Bool.not_eq_true'] at goes
        rw [Bool.not_eq_true'] at goes
        exact ⟨same, goes.1.2, goes.2⟩

theorem sound_prepare {call : Call} {decision : ApprovalDecision} {stamp : Stamp} {completed : Bool}
    (sound : Sound host patient world) (fresh : Fresh host world stamp.eventId)
    (metadata : ∀ v ∈ call.metadata, v.Ok host) :
    Sound host patient (world.prepare host name indexed process call decision stamp completed raises) := by
  unfold World.prepare
  cases found : blockingFor host (indexed process) name (world.caches process) world.file (query call) with
  | error e => exact sound
  | ok answer =>
    obtain ⟨blocking, looked⟩ := answer
    have describes : Describes host world.file looked := by
      cases asked : query call with
      | none =>
        rw [asked] at found
        cases found
        exact sound.tables process
      | some pair =>
        rw [asked] at found
        exact describes_looked (sound.tables process) found
    have ok : ∀ previous event, buildDecision host call decision stamp completed blocking previous = .ok event →
        DictOk host event := by
      intro previous event made
      rcases buildDecision_cases made with ⟨-, prior, built⟩ | ⟨-, built⟩
      · exact dictOk_built built (valuesOk_duplicateExtra metadata)
      · exact dictOk_built built (valuesOk_allowedExtra metadata)
    by_cases goes : ((world.append host name indexed process looked
        (buildDecision host call decision stamp completed blocking) raises).2 &&
          proceeds call decision completed blocking) = true
    · simp only [goes, if_true]
      rw [Bool.and_eq_true] at goes
      apply sound_append sound describes _ ok
      · intro failed
        rw [goes.1] at failed
        cases failed
      · intro events previous event read kept made
        apply extends_prepare sound fresh found read kept made
        intro id runs
        rcases List.mem_cons.mp runs with same | before
        · exact .inr ⟨same, goes.2⟩
        · exact .inl before
    · rw [Bool.not_eq_true] at goes
      simp only [goes, Bool.false_eq_true, if_false]
      have kept := @sound_append host name indexed patient world process looked _ raises sound describes world.running ok
        (fun _ id runs => runs) (fun events previous event read kept made =>
          extends_prepare sound fresh found read kept made (fun id runs => .inl runs))
      rw [← @append_running host name indexed world process looked
        (buildDecision host call decision stamp completed blocking) raises] at kept
      exact kept

theorem sound_outcome {signer : Signer} {contract : ActionContract} {stamp : Stamp} {id : Str} {ending : Ending}
    (sound : Sound host patient world) (runs : id ∈ world.running) (receipt : ∀ v ∈ ending.receipt, v.Ok host) :
    Sound host patient ⟨(world.append host name indexed process (world.caches process)
        (buildEvent host signer stamp contract "outcome" (outcomeExtra (.str id) ending)) raises).1.file,
      (world.append host name indexed process (world.caches process)
        (buildEvent host signer stamp contract "outcome" (outcomeExtra (.str id) ending)) raises).1.caches,
      world.running.filter (fun other => other != id)⟩ := by
  have fewer : ∀ other ∈ world.running.filter (fun other => other != id), other ∈ world.running ∧ other ≠ id := by
    intro other member
    rw [List.mem_filter, bne_iff_ne] at member
    exact member
  apply sound_append sound (sound.tables process)
  · intro previous event made
    exact dictOk_built made (valuesOk_outcomeExtra receipt)
  · exact fun _ other member => (fewer other member).1
  · intro events previous event read kept made
    have isOutcome := outcome_type made
    have status : get event "status" = .str ending.status := outcome_status made
    apply extends_other (isEvent_unique isOutcome (by decide))
    · simp only [List.mem_cons, List.not_mem_nil, or_false, Prod.mk.injEq]
      rintro kind field (⟨rfl, rfl⟩ | ⟨rfl, rfl⟩) isKind
      · rw [status]
        rfl
      · rw [isEvent_unique isOutcome (by decide)] at isKind
        cases isKind
    · intro _
      rw [status]
      cases ending with
      | returned type outputHash given => exact .inl rfl
      | raised type summary => exact .inr rfl
    · intro other names
      rw [namesId, isOutcome, Bool.true_and, outcome_ref made, beq_iff_eq] at names
      have same : id = other := Option.some.inj names
      exact ⟨same ▸ runs, fun member => (fewer other member).2 same.symm⟩
    · exact fun other member => (fewer other member).1
    · intro patience other member names
      rw [names_other isOutcome (by decide)] at names
      cases names

theorem dictOk_found {id : Str} {lines : List Bytes} {decision : Dict}
    (found : findDecisionIn host id lines = .ok (some decision)) : DictOk host decision := by
  induction lines with
  | nil => cases found
  | cons line lines ih =>
    rw [findDecisionIn] at found
    cases decoded : decodeLine host line with
    | error e =>
      simp only [decoded] at found
      split_ifs at found
      exact ih found
    | ok value =>
      cases value with
      | dict event =>
        simp only [decoded] at found
        split_ifs at found
        · cases found
          exact dictOk_of_decodeLine decoded
        · exact ih found
      | _ =>
        simp only [decoded] at found
        exact ih found

theorem sound_resolve {signer : Signer} {stamp : Stamp} {id resolution note : Str} (sound : Sound host patient world)
    (waits : patient → resolution = lit "confirmed_not_completed" → id ∉ world.running) :
    Sound host patient (world.resolve host name indexed process signer stamp id resolution note raises) := by
  unfold World.resolve
  cases found : findDecisionIn host id (records world.file) with
  | error e => exact sound
  | ok result =>
    cases result with
    | none => exact sound
    | some decision =>
      simp only
      split_ifs
      · have payload : ∀ previous event,
            buildResolution host signer stamp decision id resolution (boundedNote note) previous = .ok event →
              ∃ actionId actionName contractHash, actionId.Ok host ∧ actionName.Ok host ∧ contractHash.Ok host ∧
                finalizeEvent host (resolutionPayload signer stamp actionId actionName contractHash id resolution
                  (boundedNote note) previous) signer.sign = .ok event := by
          intro previous event made
          simp only [buildResolution, bind_eq_ok] at made
          obtain ⟨actionId, one, actionName, two, contractHash, three, final⟩ := made
          have values := (dictOk_iff.mp (dictOk_found found)).2
          refine ⟨actionId, actionName, contractHash, ?_, ?_, ?_, final⟩
          · exact values _ (Members.mem_of_get (item_eq_ok one).1)
          · exact values _ (Members.mem_of_get (item_eq_ok two).1)
          · exact values _ (Members.mem_of_get (item_eq_ok three).1)
        apply sound_append_quiet sound
        · intro previous event made
          obtain ⟨actionId, actionName, contractHash, one, two, three, final⟩ := payload previous event made
          exact dictOk_finalized final (dictOk_resolutionPayload signer stamp id resolution _ previous one two three)
        · intro events previous event read kept made
          obtain ⟨actionId, actionName, contractHash, -, -, -, final⟩ := payload previous event made
          have type : get event "event_type" = .str (lit "resolution") := by
            rw [get_finalized final (by decide) (by decide)]
            simp [Python.Value.get, resolutionPayload, Members.get]
          have ref : get event "decision_event_id" = .str id := by
            rw [get_finalized final (by decide) (by decide)]
            simp [Python.Value.get, resolutionPayload, Members.get]
          have value : get event "resolution" = .str resolution := by
            rw [get_finalized final (by decide) (by decide)]
            simp [Python.Value.get, resolutionPayload, Members.get]
          have isResolution : isEvent "resolution" event = true := by
            rw [isEvent, type]
            simp [asStr]
          apply extends_other (isEvent_unique isResolution (by decide))
          · simp only [List.mem_cons, List.not_mem_nil, or_false, Prod.mk.injEq]
            rintro kind field (⟨rfl, rfl⟩ | ⟨rfl, rfl⟩) isKind
            · rw [isEvent_unique isResolution (by decide)] at isKind
              cases isKind
            · rw [value]
              rfl
          · intro isOutcome
            rw [isEvent_unique isResolution (by decide)] at isOutcome
            cases isOutcome
          · intro other names
            rw [names_other isResolution (by decide)] at names
            cases names
          · exact fun _ runs => runs
          · intro patience other runs names clears
            rw [value, Json.str.injEq] at clears
            rw [namesId, isResolution, Bool.true_and, ref, beq_iff_eq] at names
            have same : id = other := Option.some.inj names
            exact waits patience clears (same ▸ runs)
      · exact sound

theorem sound_maintain (sound : Sound host patient world)
    (foreign : ∀ previous event, build previous = .ok event → DictOk host event ∧
      ∀ kind ∈ ["decision", "outcome", "resolution"], isEvent kind event = false) :
    Sound host patient (world.append host name indexed process (world.caches process) build raises).1 := by
  apply sound_append_quiet sound
  · exact fun previous event made => (foreign previous event made).1
  · intro events previous event read kept made
    have none := (foreign previous event made).2
    have unnamed : ∀ kind ∈ ["decision", "outcome", "resolution"], ∀ id, namesId kind id event = false := by
      intro kind listed id
      rw [namesId, none kind listed, Bool.false_and]
    apply extends_other (none "decision" (by decide))
    · simp only [List.mem_cons, List.not_mem_nil, or_false, Prod.mk.injEq]
      rintro kind field (⟨rfl, rfl⟩ | ⟨rfl, rfl⟩) isKind
      · rw [none "outcome" (by decide)] at isKind
        cases isKind
      · rw [none "resolution" (by decide)] at isKind
        cases isKind
    · intro isOutcome
      rw [none "outcome" (by decide)] at isOutcome
      cases isOutcome
    · intro id names
      rw [unnamed "outcome" (by decide)] at names
      cases names
    · exact fun _ runs => runs
    · intro patience id runs names
      rw [unnamed "resolution" (by decide)] at names
      cases names

theorem step_keeps {action : Action} (assumed : Assumed host world action) (waits : patient → Waits world action)
    (sound : Sound host patient world) (taken : step host name indexed world action = some after) :
    Sound host patient after := by
  cases action with
  | duplicate process call prior stamp raises =>
    rw [step] at taken
    split_ifs at taken
    cases taken
    exact sound_duplicate sound assumed.1 assumed.2
  | prepare process call decision stamp completed raises =>
    cases taken
    exact sound_prepare sound assumed.1 assumed.2
  | outcome process signer contract stamp id ending raises =>
    rw [step] at taken
    split_ifs at taken with runs
    cases taken
    exact sound_outcome sound (List.contains_iff_mem.mp runs) assumed
  | lost id =>
    cases taken
    obtain ⟨events, read, kept⟩ := sound.events
    refine ⟨sound.blank, ⟨events, read, kept.fewer ?_⟩, sound.tables⟩
    exact fun other member => (List.mem_filter.mp member).1
  | resolve process signer stamp id resolution note raises =>
    cases taken
    exact sound_resolve sound waits
  | maintain process build raises =>
    cases taken
    exact sound_maintain sound assumed
  | evict process =>
    cases taken
    exact ⟨sound.blank, sound.events, describes_update sound.tables describes_none⟩

/-- Where no running call is resolved as not completed, one decision for a key succeeds at most. -/
theorem Kept.succeeds_once {events : List Dict} {running : List Str} (kept : Kept True events running) : Once events := by
  have reserves : ∀ {action key event}, event ∈ events → Succeeds events action key event →
      Reserves action key event := by
    rintro action key event member ⟨isDecision, named, keyed, id, identified, outcome, inside, succeeds⟩
    rw [succeedsFor, Bool.and_eq_true] at succeeds
    have some : valuesFor "outcome" "status" events id ≠ [] := by
      apply List.ne_nil_of_mem
      exact List.mem_map.mpr ⟨outcome, List.mem_filter.mpr ⟨inside, succeeds.1⟩, rfl⟩
    have may := kept.blocks (.inr some) event member isDecision identified
    refine ⟨isDecision, ?_⟩
    rw [matchesKey, may, named, keyed]
    simp
  -- an earlier decision that succeeds is not settled where a later one reserves the key
  have apart : ∀ {action key : Str} {i j : Nat} {one two : Dict}, events[i]? = some one → events[j]? = some two →
      Succeeds events action key one → Succeeds events action key two → ¬ i < j := by
    intro action key i j one two atOne atTwo first second less
    obtain ⟨id, named, settled⟩ := kept.reserved action key j two atTwo
      (reserves (List.mem_of_getElem? atTwo) second) i one less atOne (reserves (List.mem_of_getElem? atOne) first)
    obtain ⟨-, -, -, other, identified, outcome, inside, succeeds⟩ := first
    rw [named, Option.some.injEq] at identified
    subst identified
    rw [succeedsFor, Bool.and_eq_true, beq_iff_eq, asStr_eq_some] at succeeds
    obtain ⟨q, atOutcome⟩ := List.mem_iff_getElem?.mp inside
    have split : valuesFor "outcome" "status" events id =
        valuesFor "outcome" "status" (events.take j) id ++ valuesFor "outcome" "status" (events.drop j) id := by
      rw [valuesFor, valuesFor, valuesFor, ← List.map_append, ← List.filter_append, List.take_append_drop]
    rcases settled with ⟨some, failed⟩ | ⟨none, cleared⟩
    · -- there is one outcome, and it has failed
      have only := kept.once id
      obtain ⟨status, before⟩ := List.exists_mem_of_ne_nil _ some
      have length : 0 < (valuesFor "outcome" "status" (events.take j) id).length := List.length_pos_of_mem before
      have noneLater : valuesFor "outcome" "status" (events.drop j) id = [] := by
        rw [split, List.length_append] at only
        exact List.eq_nil_of_length_eq_zero (by omega)
      have member : Json.str (lit "succeeded") ∈ valuesFor "outcome" "status" events id :=
        List.mem_map.mpr ⟨outcome, List.mem_filter.mpr ⟨inside, succeeds.1⟩, succeeds.2⟩
      rw [split, noneLater, List.append_nil] at member
      have impossible := failed _ member
      simp at impossible
    · -- the outcome would follow a resolution as not completed
      have last := List.mem_of_getLast? cleared
      obtain ⟨resolution, memberTake, clears⟩ := List.mem_map.mp last
      rw [List.mem_filter] at memberTake
      obtain ⟨p, atTake⟩ := List.mem_iff_getElem?.mp memberTake.1
      have before : p < j := by
        have bound := (List.getElem?_eq_some_iff.mp atTake).1
        rw [List.length_take] at bound
        omega
      rw [List.getElem?_take_of_lt before] at atTake
      have less := kept.final trivial p q resolution outcome id atTake memberTake.2 clears atOutcome succeeds.1
      have member : outcome ∈ events.take j := by
        apply List.mem_of_getElem? (i := q)
        rw [List.getElem?_take_of_lt (less.trans before), atOutcome]
      have there : Json.str (lit "succeeded") ∈ valuesFor "outcome" "status" (events.take j) id :=
        List.mem_map.mpr ⟨outcome, List.mem_filter.mpr ⟨member, succeeds.1⟩, succeeds.2⟩
      rw [none] at there
      cases there
  intro action key i j one two atOne atTwo first second
  rcases Nat.lt_trichotomy i j with less | same | more
  · exact absurd less (apart atOne atTwo first second)
  · exact same
  · exact absurd more (apart atTwo atOne second first)

/-- In every run from an empty file, its lines are read as events where each decision that
reserves a key follows only settled ones; and if no running call is ever resolved as not
completed, at most one decision for a key succeeds. -/
theorem reserved_at_most_once {last : World} {actions : List Action}
    (run : Run (step host name indexed) (Assumed host) .empty actions last) :
    ∃ events, readEvents host (records last.file) = .ok events ∧ Reserved events ∧
      (Run (step host name indexed) (fun world action => Assumed host world action ∧ Waits world action)
        .empty actions last → Once events) := by
  have sound : Sound host False last := by
    apply run.keeps _ sound_empty
    intro before action after assumed kept taken
    exact step_keeps assumed False.elim kept taken
  obtain ⟨events, read, kept⟩ := sound.events
  refine ⟨events, read, kept.reserved, ?_⟩
  intro waiting
  have strict : Sound host True last := by
    apply waiting.keeps _ sound_empty
    intro before action after assumed kept taken
    exact step_keeps assumed.1 (fun _ => assumed.2) kept taken
  obtain ⟨others, same, keptOthers⟩ := strict.events
  rw [read, Except.ok.injEq] at same
  exact same ▸ keptOthers.succeeds_once

end Runs

/-! ## A call that is made again -/

def payHost : Host := .plain (fun bytes => [UInt8.ofNat bytes.length]) (fun _ => none)

/-- A keyed call without arguments. -/
def payCall : Call where
  contract := ⟨lit "pay", lit "a1", lit "c1", lit "high", lit "required"⟩
  signer := ⟨lit "k1", fun _ => .ok (lit "s")⟩
  inputHash := lit "h"
  inputSummary := []
  retention := []
  resolvedKey := some (lit "order-1")
  spendCents := none
  dryRun := false
  metadata := none
  raws := []
  patterns := []

def payStamp (n : Nat) : Stamp := ⟨lit "e" ++ [48 + n], lit "t"⟩

def payAllowed : ApprovalDecision := ⟨.allowed, lit "ok", none⟩

/-- The call fails in one process, and is made again in another. -/
def payActions : List Action :=
  [.prepare 0 payCall payAllowed (payStamp 0) false false,
    .outcome 0 payCall.signer payCall.contract (payStamp 1) (payStamp 0).eventId
      (.raised (lit "TimeoutError") (lit "timed out")) false,
    .prepare 1 payCall payAllowed (payStamp 2) false false]

/-- An event and its line. -/
def payWritten (event : Except PyError Dict) : Option (Dict × Bytes) :=
  event.toOption.bind (fun event => (encodeEvent payHost event).toOption.map (fun line => (event, line)))

def payDecision : Except PyError Dict :=
  buildEvent payHost payCall.signer (payStamp 0) payCall.contract "decision" (allowedExtra payCall payAllowed) none

def payOutcome (previous : Option Str) : Except PyError Dict :=
  buildEvent payHost payCall.signer (payStamp 1) payCall.contract "outcome"
    (outcomeExtra (.str (payStamp 0).eventId) (.raised (lit "TimeoutError") (lit "timed out"))) previous

theorem pay_writes : ((payWritten payDecision).bind
    (fun first => payWritten (payOutcome (asStr (get first.1 "event_hash"))))).isSome = true := by
  decide +kernel

theorem payWritten_eq_some {event : Except PyError Dict} {written : Dict × Bytes}
    (found : payWritten event = some written) : event = .ok written.1 ∧ encodeEvent payHost written.1 = .ok written.2 := by
  cases event with
  | error e => cases found
  | ok one =>
    obtain ⟨line, encoded, rfl⟩ := Option.map_eq_some_iff.mp found
    refine ⟨rfl, ?_⟩
    cases result : encodeEvent payHost one with
    | error e =>
      rw [result] at encoded
      cases encoded
    | ok bytes =>
      rw [result] at encoded
      cases encoded
      rfl

/-- A call that appends its decision after a look, and goes on to its target. -/
theorem prepare_of_built {host : Host} {name : String} {indexed : Nat → Bool} {world : World} {process : Nat} {call : Call}
    {decision : ApprovalDecision} {stamp : Stamp} {completed : Bool} {blocking : Option Str} {looked : IdemCache}
    {appended : Appended}
    (found : blockingFor host (indexed process) name (world.caches process) world.file (query call) =
      .ok (blocking, looked))
    (built : appendBuilt host name world.file (buildDecision host call decision stamp completed blocking) = .ok appended)
    (goes : proceeds call decision completed blocking = true) :
    ∃ caches, world.prepare host name indexed process call decision stamp completed false =
      ⟨appended.content, caches, stamp.eventId :: world.running⟩ := by
  simp only [World.prepare, found, World.append, built, goes, Bool.not_false, Bool.and_self, if_true]
  exact ⟨_, rfl⟩

theorem reserved_at_most_once_sample : ∃ last, play (step payHost "journal" (fun _ => true)) .empty payActions = some last ∧
    ∃ events, readEvents payHost (records last.file) = .ok events ∧ Reserved events ∧ Once events := by
  obtain ⟨second, both⟩ := Option.isSome_iff_exists.mp pay_writes
  obtain ⟨first, writtenFirst, writtenSecond⟩ := Option.bind_eq_some_iff.mp both
  obtain ⟨made, encoded⟩ := payWritten_eq_some writtenFirst
  obtain ⟨madeSecond, encodedSecond⟩ := payWritten_eq_some writtenSecond
  have noMetadata : ∀ v ∈ payCall.metadata, v.Ok payHost := by
    intro v found
    cases found
  have ok : DictOk payHost first.1 := dictOk_built made (valuesOk_allowedExtra noMetadata)
  have noReceipt : ∀ v ∈ (Ending.raised (lit "TimeoutError") (lit "timed out")).receipt, v.Ok payHost := by
    intro v found
    cases found
  have okSecond : DictOk payHost second.1 := dictOk_built madeSecond (valuesOk_outcomeExtra noReceipt)
  have looked : blockingFor payHost true "journal" none [] (query payCall) = .ok (none, some ⟨0, none, .empty⟩) := rfl
  have keyed : payCall.resolvedKey = some (lit "order-1") := rfl
  have decided : buildDecision payHost payCall payAllowed (payStamp 0) false none none = .ok first.1 := by
    rw [buildDecision, keyed]
    simp only [buildAtomic, Option.isSome_none, Bool.or_self, Bool.false_eq_true, if_false]
    exact made
  have empty : readLastEventHash payHost "journal" [] = .ok none := rfl
  have built : appendBuilt payHost "journal" [] (buildDecision payHost payCall payAllowed (payStamp 0) false none) =
      .ok ⟨first.2 ++ [10], first.1, none⟩ := appendBuilt_eq_ok.mpr ⟨first.2, empty, decided, encoded, rfl⟩
  have goes : proceeds payCall payAllowed false none = true := by decide
  obtain ⟨caches, prepared⟩ := @prepare_of_built payHost "journal" (fun _ => true) .empty 0 payCall payAllowed (payStamp 0)
    false none _ _ looked built goes
  -- the outcome is appended on the hash of the decision
  have final := made
  unfold payDecision buildEvent at final
  obtain ⟨digest, signature, -, -, shape⟩ := finalizeEvent_eq_ok.mp final
  have stored : Members.get first.1 (lit "event_hash") = some (.str (hex digest)) := by
    rw [shape, Members.get_put_of_ne (by simp), Members.get_put_self]
  have whole : fragment [] = [] := rfl
  have tail : readLastEventHash payHost "journal" (first.2 ++ [10]) = .ok (some (hex digest)) :=
    @readLastEventHash_written payHost [] first.2 [10] first.1 _ "journal" whole ok encoded (by simp [isLineEnd]) stored
  rw [Python.Value.get, stored] at madeSecond
  have builtSecond : appendBuilt payHost "journal" (first.2 ++ [10]) payOutcome =
      .ok ⟨(first.2 ++ [10]) ++ (second.2 ++ [10]), second.1, some (hex digest)⟩ :=
    appendBuilt_eq_ok.mpr ⟨second.2, tail, madeSecond, encodedSecond, rfl⟩
  have read : readEvents payHost (records (first.2 ++ [10])) = .ok [first.1] := by
    have lines := @records_written_of_blank [] first.2 (solid_encodeEvent encoded) blank_nil
    rw [List.nil_append] at lines
    rw [lines]
    exact @readEvents_append payHost first.2 first.1 (records []) [] rfl (decodeLine_encodeEvent ok encoded)
  have blank : Blank (fragment (first.2 ++ [10])) := by
    rw [fragment, List.rtakeWhile_concat_neg _ _ _ (by decide)]
    exact blank_nil
  have readBoth : readEvents payHost (records ((first.2 ++ [10]) ++ (second.2 ++ [10]))) = .ok ([first.1] ++ [second.1]) := by
    rw [records_written_of_blank (solid_encodeEvent encodedSecond) blank]
    exact readEvents_append read (decodeLine_encodeEvent okSecond encodedSecond)
  have ref : get first.1 "decision_event_id" = .null := by
    rw [get_built made (by decide) (by decide)]
    simp [allowedExtra, payCall, payAllowed, approver, last_append, last_optional, Members.last, recordPayload, update,
      Members.get]
  have refSecond : get second.1 "decision_event_id" = .str (payStamp 0).eventId := outcome_ref madeSecond
  have named : idOf first.1 = some (payStamp 0).eventId := (decides_allowed made).named
  have namedSecond : idOf second.1 = some (payStamp 1).eventId :=
    record_id madeSecond (by simp [outcomeExtra, Ending.fields, Members.last])
  let middle : World := ⟨first.2 ++ [10], caches, [(payStamp 0).eventId]⟩
  obtain ⟨ended, taken, file⟩ : ∃ ended : World, step payHost "journal" (fun _ => true) middle
      (.outcome 0 payCall.signer payCall.contract (payStamp 1) (payStamp 0).eventId
        (.raised (lit "TimeoutError") (lit "timed out")) false) = some ended ∧
          ended.file = (first.2 ++ [10]) ++ (second.2 ++ [10]) := by
    have appended : (middle.append payHost "journal" (fun _ => true) 0 (middle.caches 0) payOutcome false).1.file =
        (first.2 ++ [10]) ++ (second.2 ++ [10]) := by
      simp only [World.append, middle, builtSecond]
    have running : middle.running.contains (payStamp 0).eventId = true := by
      rw [List.contains_iff_mem]
      exact List.mem_singleton_self _
    rw [step, if_pos running]
    exact ⟨_, rfl, appended⟩
  have start : Fresh payHost .empty (payStamp 0).eventId := by
    intro events none
    cases none
    exact List.forall_mem_nil _
  have fresh : Fresh payHost ended (payStamp 2).eventId := by
    intro events found
    rw [file, readBoth, Except.ok.injEq] at found
    rw [← found]
    simp only [List.mem_append, List.mem_singleton]
    rintro event (rfl | rfl)
    · rw [named, ref]
      decide
    · rw [namedSecond, refSecond]
      decide
  have run : Run (step payHost "journal" (fun _ => true))
      (fun world action => Assumed payHost world action ∧ Waits world action) .empty payActions
        (ended.prepare payHost "journal" (fun _ => true) 1 payCall payAllowed (payStamp 2) false false) := by
    apply Run.cons ⟨⟨start, noMetadata⟩, trivial⟩ (congrArg some prepared)
    apply Run.cons ⟨noReceipt, trivial⟩ taken
    exact Run.cons ⟨⟨fresh, noMetadata⟩, trivial⟩ rfl (.nil _)
  obtain ⟨events, readLast, reserved, once⟩ := reserved_at_most_once (run.mono (fun _ _ both => both.1))
  exact ⟨_, run.played, events, readLast, reserved, once run⟩

end Tesera.Engine.Reservation
