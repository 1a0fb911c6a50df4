import Tesera.TypeScript.GuardEvents

/-!
Runs of the guarded calls of one process after another on a journal. Only the call that has the permit appends
an allowed decision, and no decision for its key comes between its look and its append; so each decision for
a key was released before the next one. Where a decision is not resolved as not completed before its call is
over, at most one of them has an outcome that succeeded.
-/

namespace Tesera.TypeScript.Reservations
open Tesera.Text Tesera.Text.Unicode Tesera.Text.Lines Tesera.Transition
open Tesera.Approval (ApprovalDecision Verdict)
open Tesera.Journal.Payloads (Stamp)
open Tesera.TypeScript.Value Tesera.TypeScript.Canonical Tesera.TypeScript.FileJournal Tesera.TypeScript.Verify
open Tesera.TypeScript.Verdict Tesera.TypeScript.Idempotency Tesera.TypeScript.Guard Tesera.TypeScript.GuardEvents

/-! ## The ids of a call -/

/-- The id of the decision that an outcome of the call names. -/
def decisionId : Phase → Option Str
  | .waiting _ stamp | .rechecking _ stamp | .rescanning _ stamp => some stamp.eventId
  | .reserving _ stamp _ _ | .reserved _ stamp _ => some stamp.eventId
  | .running id | .recording id _ _ => some id
  | _ => none

/-- The id of an event that is built and not written. -/
def stagedId : Stage → Option Str
  | .writing event => idOf event
  | _ => none

/-- The ids of decisions that the call may still write. -/
def freshIds : Phase → List Str
  | .refusing _ stage => (stagedId stage).toList
  | .waiting _ stamp | .rechecking _ stamp | .rescanning _ stamp => [stamp.eventId]
  | .reserving _ stamp none _ => [stamp.eventId]
  | .reserving _ stamp (some _) stage => stamp.eventId :: (stagedId stage).toList
  | _ => []

def ids (phase : Phase) : List Str := (decisionId phase).toList ++ freshIds phase

/-- The call has looked for an earlier decision, and found none. -/
def clears : Phase → Bool
  | .reserving _ _ none _ => true
  | _ => false

/-! ## What is assumed of a step -/

section Guards

variable (engine : Engine) (sha256 : Bytes → Bytes)

/-- No event of the file has the id or names it, and no call has it. -/
structure Fresh (system : System) (id : Str) : Prop where
  events : ∀ event ∈ events engine system.content, idOf event ≠ some id ∧ refOf event ≠ some id
  calls : ∀ fiber entry, system.fibers fiber = some entry → id ∉ ids entry.2

/-- The payload that a call builds next, with the stamp of the step. -/
def payloadOf (call : Call) (stamp : Stamp) : Phase → Option Record
  | .refusing duplicateOf (.building previousHash) => some (duplicateDecision call duplicateOf stamp previousHash)
  | .reserving _ _ (some duplicateOf) (.building previousHash) => some (duplicateDecision call duplicateOf stamp previousHash)
  | .reserving decision own none (.building previousHash) => some (allowedFields call decision own previousHash)
  | .recording decisionId ending (.building previousHash) => some (outcomeFields call decisionId ending stamp previousHash)
  | _ => none

/-- New ids are new, the events of the calls can be read back, and other programs write whole lines, none of them a
decision or an outcome. -/
def Assumed (system : System) : Action → Prop
  | .act _ (.approve _ stamp) => Fresh engine system stamp.eventId
  | .act fiber (.build stamp) => Fresh engine system stamp.eventId ∧
      ∀ entry, system.fibers fiber = some entry → ∀ payload, payloadOf entry.1 stamp entry.2 = some payload →
        ∀ event, finalizeEvent sha256 entry.1.identity payload = some event → Legible engine event
  | .append line => OneLine line ∧ trim line ≠ [] ∧ ∀ event, recordOn engine line = some event →
      isEvent "decision" event = false ∧ isEvent "outcome" event = false
  | _ => True

/-- A resolution that says its decision was not completed. -/
def Clears (event : Record) : Prop :=
  isEvent "resolution" event = true ∧ shown (item event "resolution") = some (lit "confirmed_not_completed")

/-- A decision is not resolved as not completed before its call is over. -/
def Waits (system : System) : Action → Prop
  | .append line => ∀ event, recordOn engine line = some event → Clears event → ∀ id, refOf event = some id →
      ∀ fiber entry, system.fibers fiber = some entry → decisionId entry.2 ≠ some id
  | _ => True

end Guards

/-! ## What holds of the file -/

/-- Before each decision that reserves a key, there was a time when every earlier one was released, and stood in the
file. -/
def Reserved (history : List Record) : Prop :=
  ∀ (actionName key : Str) (i j : Nat) (earlier later : Record), i < j → history[i]? = some earlier →
    history[j]? = some later → Reserves actionName key earlier → Reserves actionName key later →
      ∃ id n, idOf earlier = some id ∧ i < n ∧ n ≤ j ∧ Released (history.take n) id

/-- A decision that reserves a key, and that an outcome says has succeeded. -/
def Succeeds (history : List Record) (actionName key : Str) (event : Record) : Prop :=
  Reserves actionName key event ∧ ∃ id, idOf event = some id ∧
    ∃ outcome ∈ linkedTo "outcome" history id, isText (item outcome "status") "succeeded" = true

/-- At most one decision on an action and a key succeeds. -/
def Once (history : List Record) : Prop :=
  ∀ (actionName key : Str) (i j : Nat) (one other : Record), history[i]? = some one → history[j]? = some other →
    Succeeds history actionName key one → Succeeds history actionName key other → i = j

/-- A file that guarded calls and other programs leave. -/
structure Kept (patient : Prop) (history : List Record) : Prop where
  unique : ∀ (i j : Nat) (one other : Record) (id : Str), history[i]? = some one → history[j]? = some other → isEvent "decision" one = true →
    isEvent "decision" other = true → idOf one = some id → idOf other = some id → i = j
  named : ∀ event ∈ history, isEvent "decision" event = true → ∃ id, idOf event = some id
  once : ∀ id, (linkedTo "outcome" history id).length ≤ 1
  reserved : Reserved history
  final : patient → ∀ (p q : Nat) (resolution outcome : Record) (id : Str), history[p]? = some resolution →
    Clears resolution → refOf resolution = some id → history[q]? = some outcome → isEvent "outcome" outcome = true →
      refOf outcome = some id → q < p

theorem kept_nil (patient : Prop) : Kept patient [] where
  unique _ _ _ _ _ found := by cases found
  named _ member := absurd member List.not_mem_nil
  once _ := Nat.zero_le 1
  reserved _ _ _ _ _ _ _ found := by cases found
  final _ _ _ _ _ _ found := by cases found

section Histories

variable {patient : Prop} {history : List Record} {event : Record} {id : Str}

theorem Kept.unrepeated (kept : Kept patient history) : Unrepeated history := by
  intro one member other memberOther isOne isOther id named namedOther
  obtain ⟨i, here⟩ := List.mem_iff_getElem?.mp member
  obtain ⟨j, there⟩ := List.mem_iff_getElem?.mp memberOther
  have same := kept.unique i j one other id here there isOne isOther named namedOther
  subst same
  exact Option.some.inj (here.symm.trans there)

theorem mem_linkedTo {kind : String} : event ∈ linkedTo kind history id ↔
    event ∈ history ∧ isEvent kind event = true ∧ refOf event = some id := by
  simp [linkedTo]

/-- What stands in a history of one event more stood there before, or is that event. -/
theorem snoc_cases {i : Nat} {one : Record} (found : (history ++ [event])[i]? = some one) :
    (i < history.length ∧ history[i]? = some one) ∨ (i = history.length ∧ one = event) := by
  by_cases before : i < history.length
  · rw [List.getElem?_append_left before] at found
    exact .inl ⟨before, found⟩
  · right
    have inside := (List.getElem?_eq_some_iff.mp found).1
    rw [List.length_append, List.length_singleton] at inside
    have index : i = history.length := by omega
    rw [index, List.getElem?_concat_length, Option.some.injEq] at found
    exact ⟨index, found.symm⟩

/-- At most one decision for a key succeeds, where none is resolved as not completed too early: before the second
decision the first was released, so that its one outcome was there and had failed, or it had none and could not have
one any more. -/
theorem Kept.succeedsOnce (kept : Kept patient history) (patience : patient) : Once history := by
  have ordered : ∀ (actionName key : Str) (i j : Nat) (one other : Record), i < j → history[i]? = some one →
      history[j]? = some other → Succeeds history actionName key one → ¬ Succeeds history actionName key other := by
    intro actionName key i j one other less here there succeeds succeedsOther
    obtain ⟨reserves, id, named, outcome, inside, succeeded⟩ := succeeds
    obtain ⟨id', n, named', _, atMost, released⟩ := kept.reserved actionName key i j one other less here there reserves
      succeedsOther.1
    rw [named, Option.some.injEq] at named'
    subst named'
    have split : linkedTo "outcome" history id =
        linkedTo "outcome" (history.take n) id ++ linkedTo "outcome" (history.drop n) id := by
      rw [linkedTo, linkedTo, linkedTo, ← List.filter_append, List.take_append_drop]
    have one := kept.once id
    rw [split, List.length_append] at one
    rw [split] at inside
    apply released.elim
    · intro ended
      obtain ⟨some, failed⟩ := ended
      have positive := List.length_pos_iff.mpr some
      have none : linkedTo "outcome" (history.drop n) id = [] := List.eq_nil_of_length_eq_zero (by omega)
      rw [none, List.append_nil] at inside
      rw [failed outcome inside] at succeeded
      cases succeeded
    · intro cleared
      obtain ⟨none, last, found, clears⟩ := cleared
      rw [none, List.nil_append] at inside
      obtain ⟨later, isOutcome, refers⟩ := mem_linkedTo.mp inside
      obtain ⟨q, hereOutcome⟩ := List.mem_iff_getElem?.mp later
      rw [List.getElem?_drop] at hereOutcome
      obtain ⟨early, isResolution, refersTo⟩ := mem_linkedTo.mp (List.mem_of_getLast? found)
      obtain ⟨p, hereResolution⟩ := List.mem_iff_getElem?.mp early
      rw [List.getElem?_take] at hereResolution
      split_ifs at hereResolution with before
      have order := kept.final patience p (n + q) last outcome id hereResolution ⟨isResolution, clears⟩ refersTo hereOutcome
        isOutcome refers
      omega
  intro actionName key i j one other here there succeeds succeedsOther
  by_contra different
  apply (Nat.lt_or_gt_of_ne different).elim
  · intro less
    exact ordered actionName key i j one other less here there succeeds succeedsOther
  · intro less
    exact ordered actionName key j i other one less there here succeedsOther succeeds

/-- What one event more is like: a decision has a new id, and reserves only where every earlier one was released; an
outcome is the first of its decision, which has not been resolved as not completed. -/
structure Extends (patient : Prop) (history : List Record) (event : Record) : Prop where
  decision : isEvent "decision" event = true → ∃ id, idOf event = some id ∧
    ∀ earlier ∈ history, isEvent "decision" earlier = true → idOf earlier ≠ some id
  outcome : isEvent "outcome" event = true → ∀ id, refOf event = some id → linkedTo "outcome" history id = [] ∧
    (patient → ∀ resolution ∈ linkedTo "resolution" history id, ¬ Clears resolution)
  reserves : ∀ (actionName key : Str), Reserves actionName key event → ∀ (i : Nat) (earlier : Record), history[i]? = some earlier →
    Reserves actionName key earlier →
      ∃ id n, idOf earlier = some id ∧ i < n ∧ n ≤ history.length ∧ Released (history.take n) id

theorem Kept.snoc (kept : Kept patient history) (extension : Extends patient history event) : Kept patient (history ++ [event]) where
  unique := by
    intro i j one other id here there isOne isOther named namedOther
    apply (snoc_cases here).elim
    · intro ⟨_, before⟩
      apply (snoc_cases there).elim
      · intro ⟨_, beforeOther⟩
        exact kept.unique i j one other id before beforeOther isOne isOther named namedOther
      · intro ⟨_, last⟩
        subst last
        obtain ⟨own, isOwn, new⟩ := extension.decision isOther
        rw [namedOther, Option.some.injEq] at isOwn
        exact absurd named (isOwn ▸ new one (List.mem_of_getElem? before) isOne)
    · intro ⟨index, last⟩
      subst last
      obtain ⟨own, isOwn, new⟩ := extension.decision isOne
      rw [named, Option.some.injEq] at isOwn
      apply (snoc_cases there).elim
      · intro ⟨_, beforeOther⟩
        exact absurd namedOther (isOwn ▸ new other (List.mem_of_getElem? beforeOther) isOther)
      · intro ⟨indexOther, _⟩
        rw [index, indexOther]
  named := by
    intro one member isDecision
    apply (List.mem_append.mp member).elim
    · intro before
      exact kept.named one before isDecision
    · intro last
      rw [List.mem_singleton] at last
      subst last
      obtain ⟨id, named, _⟩ := extension.decision isDecision
      exact ⟨id, named⟩
  once := by
    intro id
    rw [linkedTo_append]
    by_cases here : isEvent "outcome" event = true ∧ refOf event = some id
    · rw [(extension.outcome here.1 id here.2).1, here.1, here.2]
      simp
    · have other : (isEvent "outcome" event && refOf event == some id) = false := by
        rw [Bool.eq_false_iff, ne_eq, Bool.and_eq_true, beq_iff_eq]
        exact here
      rw [other, if_neg Bool.false_ne_true, List.append_nil]
      exact kept.once id
  reserved := by
    intro actionName key i j earlier later less here there reserves reservesLater
    apply (snoc_cases there).elim
    · intro ⟨inside, before⟩
      rw [List.getElem?_append_left (less.trans inside)] at here
      obtain ⟨id, n, named, more, atMost, released⟩ :=
        kept.reserved actionName key i j earlier later less here before reserves reservesLater
      refine ⟨id, n, named, more, atMost, ?_⟩
      rwa [List.take_append_of_le_length (by omega)]
    · intro ⟨index, last⟩
      subst last
      rw [List.getElem?_append_left (by omega)] at here
      obtain ⟨id, n, named, more, atMost, released⟩ := extension.reserves actionName key reservesLater i earlier here reserves
      refine ⟨id, n, named, more, index ▸ atMost, ?_⟩
      rwa [List.take_append_of_le_length atMost]
  final := by
    intro patience p q resolution outcome id atResolution clears refers atOutcome isOutcome refersTo
    apply (snoc_cases atOutcome).elim
    · intro ⟨inside, before⟩
      apply (snoc_cases atResolution).elim
      · intro ⟨_, beforeResolution⟩
        exact kept.final patience p q resolution outcome id beforeResolution clears refers before isOutcome refersTo
      · intro ⟨index, _⟩
        omega
    · intro ⟨_, last⟩
      subst last
      apply (snoc_cases atResolution).elim
      · intro ⟨_, beforeResolution⟩
        have unresolved := (extension.outcome isOutcome id refersTo).2 patience
        exact absurd clears (unresolved resolution
          (mem_linkedTo.mpr ⟨List.mem_of_getElem? beforeResolution, clears.1, refers⟩))
      · intro ⟨_, same⟩
        have isResolution := clears.1
        rw [same, isEvent_unique isOutcome (by decide : "outcome" ≠ "resolution")] at isResolution
        cases isResolution

end Histories

/-! ## What holds of a call -/

/-- Every decision for the key of the call was released at one time, and stood in the file then. -/
def Cleared (history : List Record) (call : Call) : Prop :=
  ∀ key, call.key = some key → ∃ n ≤ history.length, ∀ (i : Nat) (earlier : Record), history[i]? = some earlier →
    Reserves call.action key earlier → i < n ∧ ∃ id, idOf earlier = some id ∧ Released (history.take n) id

/-- The event that an append writes next is the one of its phase. -/
def Staged (engine : Engine) (call : Call) : Phase → Prop
  | .refusing _ (.writing event) | .reserving _ _ (some _) (.writing event) =>
      Legible engine event ∧ ∃ id, Denies id event
  | .reserving decision stamp none (.writing event) => Legible engine event ∧ Decides call decision stamp.eventId event
  | .recording decisionId ending (.writing event) => Legible engine event ∧ Settles decisionId ending event
  | _ => True

/-- An allowed decision of the call that is no dry run. -/
def Authorizes (call : Call) (id : Str) (event : Record) : Prop :=
  ∃ decision, decision.allowed = true ∧ call.dryRun = false ∧ Decides call decision id event

/-- The decision of the call stands in the file. -/
def Recorded (history : List Record) (call : Call) : Phase → Prop
  | .reserved decision stamp none => ∃ event ∈ history, Decides call decision stamp.eventId event
  | .running id | .recording id _ _ => ∃ event ∈ history, Authorizes call id event
  | _ => True

structure Fits (patient : Prop) (engine : Engine) (history : List Record) (call : Call) (phase : Phase) : Prop where
  fresh : ∀ id ∈ freshIds phase, ∀ event ∈ history, isEvent "decision" event = true → idOf event ≠ some id
  silent : ∀ id, decisionId phase = some id → linkedTo "outcome" history id = []
  waits : patient → ∀ id, decisionId phase = some id → ∀ event ∈ linkedTo "resolution" history id, ¬ Clears event
  cleared : clears phase = true → Cleared history call
  staged : Staged engine call phase
  recorded : Recorded history call phase

/-- An event that is none of the call. -/
structure Apart (patient : Prop) (event : Record) (phase : Phase) : Prop where
  decision : isEvent "decision" event = true → ∀ id ∈ freshIds phase, idOf event ≠ some id
  outcome : isEvent "outcome" event = true → ∀ id, decisionId phase = some id → refOf event ≠ some id
  waits : patient → Clears event → ∀ id, decisionId phase = some id → refOf event ≠ some id
  reserves : clears phase = true → ∀ actionName key, ¬ Reserves actionName key event

section Calls

variable {patient : Prop} {engine : Engine} {history : List Record} {event : Record} {call : Call} {phase : Phase} {id : Str}

theorem linkedTo_of_ne {kind : String} (other : isEvent kind event = true → refOf event ≠ some id) :
    linkedTo kind (history ++ [event]) id = linkedTo kind history id := by
  have none : (isEvent kind event && refOf event == some id) = false := by
    rw [Bool.eq_false_iff, ne_eq, Bool.and_eq_true, beq_iff_eq]
    intro both
    exact other both.1 both.2
  rw [linkedTo_append, none, if_neg Bool.false_ne_true, List.append_nil]

theorem Cleared.snoc (cleared : Cleared history call) (spares : ∀ key, call.key = some key → ¬ Reserves call.action key event) :
    Cleared (history ++ [event]) call := by
  intro key keyed
  obtain ⟨n, atMost, all⟩ := cleared key keyed
  refine ⟨n, by rw [List.length_append]; omega, ?_⟩
  intro i earlier here reserves
  apply (snoc_cases here).elim
  · intro ⟨_, before⟩
    rw [List.take_append_of_le_length atMost]
    exact all i earlier before reserves
  · intro ⟨_, last⟩
    subst last
    exact absurd reserves (spares key keyed)

theorem Recorded.snoc (recorded : Recorded history call phase) : Recorded (history ++ [event]) call phase := by
  have more : ∀ P : Record → Prop, (∃ one ∈ history, P one) → ∃ one ∈ history ++ [event], P one := by
    intro P found
    obtain ⟨one, member, holds⟩ := found
    exact ⟨one, List.mem_append_left _ member, holds⟩
  cases phase with
  | reserved decision stamp duplicateOf =>
    cases duplicateOf with
    | none => exact more _ recorded
    | some _ => trivial
  | running id => exact more _ recorded
  | recording id ending stage => exact more _ recorded
  | _ => trivial

/-- An event of another call or program leaves what holds of a call. -/
theorem Fits.snoc (fits : Fits patient engine history call phase) (apart : Apart patient event phase) :
    Fits patient engine (history ++ [event]) call phase where
  fresh := by
    intro id inside one member isDecision
    apply (List.mem_append.mp member).elim
    · intro before
      exact fits.fresh id inside one before isDecision
    · intro last
      rw [List.mem_singleton] at last
      subst last
      exact apart.decision isDecision id inside
  silent := by
    intro id carried
    rw [linkedTo_of_ne (fun isOutcome => apart.outcome isOutcome id carried)]
    exact fits.silent id carried
  waits := by
    intro patience id carried one member resolves
    obtain ⟨inside, isResolution, refers⟩ := mem_linkedTo.mp member
    apply (List.mem_append.mp inside).elim
    · intro before
      exact fits.waits patience id carried one (mem_linkedTo.mpr ⟨before, isResolution, refers⟩) resolves
    · intro last
      rw [List.mem_singleton] at last
      subst last
      exact apart.waits patience resolves id carried refers
  cleared := fun looked => (fits.cleared looked).snoc (fun _ _ => apart.reserves looked _ _)
  staged := fits.staged
  recorded := fits.recorded.snoc

end Calls

/-! ## What holds of the system -/

/-- Calls that have an id have it alone. -/
def Distinct (fibers : Nat → Option (Call × Phase)) : Prop :=
  ∀ (fiber other : Nat) (one two : Call × Phase), fiber ≠ other → fibers fiber = some one → fibers other = some two →
    ∀ id ∈ ids one.2, id ∉ ids two.2

def Permitted (permit : Option Nat) (fibers : Nat → Option (Call × Phase)) : Prop :=
  ∀ (fiber : Nat) (entry : Call × Phase), fibers fiber = some entry → entry.2.holds = true → permit = some fiber

structure Sound (patient : Prop) (engine : Engine) (system : System) : Prop where
  terminated : Terminated system.content
  kept : Kept patient (events engine system.content)
  permitted : Permitted system.permit system.fibers
  distinct : Distinct system.fibers
  fits : ∀ (fiber : Nat) (entry : Call × Phase), system.fibers fiber = some entry →
    Fits patient engine (events engine system.content) entry.1 entry.2

section Steps

variable {patient : Prop} {engine : Engine} {sha256 : Bytes → Bytes} {system : System} {fiber : Nat} {call : Call}
  {phase next : Phase} {history : List Record} {event : Record} {outcome : Outcome}

/-- A phase that carries the ids of the one before it, or new ones. -/
theorem Fits.turn (fits : Fits patient engine history call phase)
    (fresh : ∀ id ∈ freshIds next, id ∈ freshIds phase ∨ ∀ event ∈ history, idOf event ≠ some id)
    (carried : ∀ id, decisionId next = some id → decisionId phase = some id ∨ ∀ event ∈ history, refOf event ≠ some id)
    (cleared : clears next = true → clears phase = true ∨ Cleared history call) (staged : Staged engine call next)
    (recorded : Recorded history call next) : Fits patient engine history call next where
  fresh := by
    intro id inside event member isDecision
    apply (fresh id inside).elim
    · intro before
      exact fits.fresh id before event member isDecision
    · intro new
      exact new event member
  silent := by
    intro id carries
    apply (carried id carries).elim
    · exact fits.silent id
    · intro new
      apply List.eq_nil_iff_forall_not_mem.mpr
      intro event member
      obtain ⟨inside, _, refers⟩ := mem_linkedTo.mp member
      exact new event inside refers
  waits := by
    intro patience id carries event member
    apply (carried id carries).elim
    · intro before
      exact fits.waits patience id before event member
    · intro new
      obtain ⟨inside, _, refers⟩ := mem_linkedTo.mp member
      exact absurd refers (new event inside)
  cleared := fun looked => (cleared looked).elim fits.cleared id
  staged := staged
  recorded := recorded

/-- What a step does with the permit. -/
def Passes (system : System) (fiber : Nat) (phase : Phase) (permit : Option Nat) : Prop :=
  permit = system.permit ∨ (phase.holds = true ∧ permit = none) ∨ (system.permit = none ∧ permit = some fiber)

theorem Sound.permitted_commit (sound : Sound patient engine system) (here : system.fibers fiber = some (call, phase))
    (passes : Passes system fiber phase outcome.permit)
    (holds : ∀ next, outcome.phase = some next → next.holds = true → outcome.permit = some fiber) :
    Permitted (system.commit fiber call outcome).permit (system.commit fiber call outcome).fibers := by
  intro other entry found isHolder
  simp only [System.commit] at found ⊢
  by_cases same : other = fiber
  · subst same
    rw [Function.update_self, Option.map_eq_some_iff] at found
    obtain ⟨next, isNext, rfl⟩ := found
    exact holds next isNext isHolder
  · rw [Function.update_of_ne same] at found
    have permit := sound.permitted other entry found isHolder
    apply passes.elim
    · intro kept
      rw [kept, permit]
    · intro moved
      apply moved.elim
      · intro ⟨held, _⟩
        have own := sound.permitted fiber _ here held
        rw [permit, Option.some.injEq] at own
        exact absurd own same
      · intro ⟨free, _⟩
        rw [free] at permit
        cases permit

theorem Sound.distinct_commit (sound : Sound patient engine system) (here : system.fibers fiber = some (call, phase))
    (carries : ∀ next, outcome.phase = some next → ∀ id ∈ ids next, id ∈ ids phase ∨
      ∀ other entry, system.fibers other = some entry → id ∉ ids entry.2) :
    Distinct (system.commit fiber call outcome).fibers := by
  have apart : ∀ next, outcome.phase = some next → ∀ other entry, other ≠ fiber → system.fibers other = some entry →
      ∀ id ∈ ids next, id ∉ ids entry.2 := by
    intro next isNext other entry different found id inside
    apply (carries next isNext id inside).elim
    · intro before
      exact sound.distinct fiber other _ entry (Ne.symm different) here found id before
    · intro new
      exact new other entry found
  intro one other oneEntry otherEntry different found foundOther id inside
  simp only [System.commit] at found foundOther
  by_cases first : one = fiber
  · subst first
    rw [Function.update_self, Option.map_eq_some_iff] at found
    obtain ⟨next, isNext, rfl⟩ := found
    rw [Function.update_of_ne (Ne.symm different)] at foundOther
    exact apart next isNext other otherEntry (Ne.symm different) foundOther id inside
  · rw [Function.update_of_ne first] at found
    by_cases second : other = fiber
    · subst second
      rw [Function.update_self, Option.map_eq_some_iff] at foundOther
      obtain ⟨next, isNext, rfl⟩ := foundOther
      intro insideNext
      exact apart next isNext one oneEntry first found id insideNext inside
    · rw [Function.update_of_ne second] at foundOther
      exact sound.distinct one other oneEntry otherEntry different found foundOther id inside

/-- A step of a call that writes nothing. -/
theorem Sound.quiet (sound : Sound patient engine system) (here : system.fibers fiber = some (call, phase))
    (content : outcome.content = system.content) (passes : Passes system fiber phase outcome.permit)
    (goes : ∀ next, outcome.phase = some next → (next.holds = true → outcome.permit = some fiber) ∧
      (∀ id ∈ ids next, id ∈ ids phase ∨ ∀ other entry, system.fibers other = some entry → id ∉ ids entry.2) ∧
      Fits patient engine (events engine system.content) call next) :
    Sound patient engine (system.commit fiber call outcome) where
  terminated := by
    rw [System.commit, content]
    exact sound.terminated
  kept := by
    rw [System.commit, content]
    exact sound.kept
  permitted := sound.permitted_commit here passes (fun next isNext => (goes next isNext).1)
  distinct := sound.distinct_commit here (fun next isNext => (goes next isNext).2.1)
  fits := by
    intro other entry found
    simp only [System.commit, content] at found ⊢
    by_cases same : other = fiber
    · subst same
      rw [Function.update_self, Option.map_eq_some_iff] at found
      obtain ⟨next, isNext, rfl⟩ := found
      exact (goes next isNext).2.2
    · rw [Function.update_of_ne same] at found
      exact sound.fits other entry found

/-- A step of a call that writes an event. -/
theorem Sound.writes (sound : Sound patient engine system) (here : system.fibers fiber = some (call, phase)) {line : Str}
    (legible : Legible engine event) (encoded : canonical (.obj event) = some line)
    (content : outcome.content = written system.content line) (passes : Passes system fiber phase outcome.permit)
    (extension : Extends patient (events engine system.content) event)
    (apart : ∀ other entry, other ≠ fiber → system.fibers other = some entry → Apart patient event entry.2)
    (goes : ∀ next, outcome.phase = some next → (next.holds = true → outcome.permit = some fiber) ∧
      (∀ id ∈ ids next, id ∈ ids phase) ∧ Fits patient engine (events engine system.content ++ [event]) call next) :
    Sound patient engine (system.commit fiber call outcome) := by
  obtain ⟨longer, terminated⟩ := events_written sound.terminated legible encoded
  constructor
  · rw [System.commit, content]
    exact terminated
  · rw [System.commit, content, longer]
    exact sound.kept.snoc extension
  · exact sound.permitted_commit here passes (fun next isNext => (goes next isNext).1)
  · exact sound.distinct_commit here (fun next isNext id inside => .inl ((goes next isNext).2.1 id inside))
  · intro other entry found
    simp only [System.commit, content, longer] at found ⊢
    by_cases same : other = fiber
    · subst same
      rw [Function.update_self, Option.map_eq_some_iff] at found
      obtain ⟨next, isNext, rfl⟩ := found
      exact (goes next isNext).2.2
    · rw [Function.update_of_ne same] at found
      exact (sound.fits other entry found).snoc (apart other entry same found)

/-- A call that ends without writing. -/
theorem Sound.ends (sound : Sound patient engine system) (here : system.fibers fiber = some (call, phase))
    (completed : List Str) :
    Sound patient engine (system.commit fiber call
      ⟨system.content, completed, if phase.holds then none else system.permit, none⟩) := by
  apply sound.quiet here rfl
  · simp only [Passes]
    split_ifs with holds
    · exact .inr (.inl ⟨holds, rfl⟩)
    · exact .inl rfl
  · intro next isNext
    cases isNext

/-! ## Appends -/

/-- What a step of an append does. -/
theorem appendStep_cases {identity : SigningIdentity} {payload : Stamp → Option Str → Record} {content : Bytes} {stage : Stage}
    {move : Move} {result : Appending} (taken : appendStep engine sha256 identity payload content stage move = some result) :
    result = .raised content ∨ (∃ previousHash, result = .at (.building previousHash)) ∨
    (∃ previousHash stamp event, stage = .building previousHash ∧ move = .build stamp ∧
      finalizeEvent sha256 identity (payload stamp previousHash) = some event ∧ result = .at (.writing event)) ∨
    (∃ event line, stage = .writing event ∧ canonical (.obj event) = some line ∧
      (result = .wrote (written content line) ∨ result = .raised (written content line))) := by
  cases stage with
  | reading =>
    cases move with
    | next =>
      rw [appendStep] at taken
      cases read : readLastEventHash engine content with
      | error error =>
        rw [read] at taken
        exact .inl (Option.some.inj taken).symm
      | ok previousHash =>
        rw [read] at taken
        exact .inr (.inl ⟨previousHash, (Option.some.inj taken).symm⟩)
    | fail => exact .inl (Option.some.inj taken).symm
    | _ => cases taken
  | building previousHash =>
    cases move with
    | build stamp =>
      rw [appendStep] at taken
      cases made : finalizeEvent sha256 identity (payload stamp previousHash) with
      | none =>
        rw [made] at taken
        exact .inl (Option.some.inj taken).symm
      | some event =>
        rw [made] at taken
        exact .inr (.inr (.inl ⟨previousHash, stamp, event, rfl, rfl, made, (Option.some.inj taken).symm⟩))
    | fail => exact .inl (Option.some.inj taken).symm
    | _ => cases taken
  | writing event =>
    cases move with
    | next =>
      rw [appendStep] at taken
      cases encoded : canonical (.obj event) with
      | none =>
        rw [encoded] at taken
        exact .inl (Option.some.inj taken).symm
      | some line =>
        rw [encoded] at taken
        exact .inr (.inr (.inr ⟨event, line, rfl, encoded, .inl (Option.some.inj taken).symm⟩))
    | unflushed =>
      rw [appendStep] at taken
      obtain ⟨line, encoded, same⟩ := Option.map_eq_some_iff.mp taken
      exact .inr (.inr (.inr ⟨event, line, rfl, encoded, .inr same.symm⟩))
    | fail => exact .inl (Option.some.inj taken).symm
    | _ => cases taken

end Steps

end Tesera.TypeScript.Reservations
