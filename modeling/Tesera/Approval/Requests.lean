import Tesera.Approval.Server
import Mathlib.Logic.Relation

/-!
What is true of the requests in every state of an approval server. Each step is a sequence of
changes, with what the state before says about them; the facts about the table, the request
objects and the log are kept by each change.
-/

namespace Tesera.Approval
open Tesera.Text Tesera.Text.Unicode Tesera.Text.Number Tesera.Python.Value
open Tesera.Transition

variable {Time Timeout : Type}

theorem pendingId_injective {m n : Nat} (same : pendingId m = pendingId n) : m = n := by
  have digits : decimal (m + 1) = decimal (n + 1) := Digits.ext_text (List.append_cancel_left same)
  have := decimal_injective digits
  omega

/-- A `_decide` for the request has returned `True`. -/
def Server.Recorded (server : Server Time Timeout) (object : Nat) : Prop :=
  ∃ allow operator token, Event.decided object allow operator token ∈ server.log

/-- The request has been registered and its entry has been taken out. -/
def Server.Gone (server : Server Time Timeout) (object : Nat) : Prop :=
  object < server.objects.length ∧ ∀ entry ∈ server.pending, entry.2 ≠ object

def Event.decidedObject : Event → Option Nat
  | .decided object _ _ _ => some object
  | _ => none

/-- The decision an operator made on the request stands in its object. -/
def Server.Holds (server : Server Time Timeout) (object : Nat) (decision : ApprovalDecision) : Prop :=
  ∃ pending, server.objects[object]? = some pending ∧ pending.decided = true ∧ pending.decision = some decision

/-! ## Parts of a step -/

section Parts

variable {server : Server Time Timeout} {settings : Settings Time Timeout}

theorem mem_of_find {id : Str} {object : Nat} (found : server.find id = some object) :
    (id, object) ∈ server.pending := by
  unfold Server.find at found
  obtain ⟨before, after, split, -⟩ := List.lookup_eq_some_iff.mp found
  rw [split]
  exact List.mem_append_right _ List.mem_cons_self

theorem not_mem_of_find {id : Str} (absent : server.find id = none) : ∀ entry ∈ server.pending, entry.1 ≠ id := by
  intro entry member same
  have differs := List.lookup_eq_none_iff.mp absent entry member
  rw [same] at differs
  simp at differs

/-- A `_decide` that returns `True` has settled an open request and was given its token. -/
theorem decide_cases {id operator token : Str} {allow flag : Bool} {after : Server Time Timeout}
    (decided : server.decide id allow operator token = .ok (flag, after)) :
    (flag = false ∧ after = server) ∨
      (flag = true ∧ ∃ object pending, server.find id = some object ∧ server.objects[object]? = some pending ∧
        pending.decided = false ∧ token = pending.decisionToken ∧
        after = (server.settle object (operatorDecision allow operator)).record
          (.decided object allow operator token)) := by
  unfold Server.decide at decided
  cases found : server.find id with
  | none =>
    rw [found] at decided
    cases decided
    exact Or.inl ⟨rfl, rfl⟩
  | some object =>
    rw [found] at decided
    simp only at decided
    cases atObject : server.objects[object]? with
    | none =>
      rw [atObject] at decided
      cases decided
      exact Or.inl ⟨rfl, rfl⟩
    | some pending =>
      rw [atObject] at decided
      simp only at decided
      cases settled : pending.decided with
      | true =>
        rw [if_pos settled] at decided
        cases decided
        exact Or.inl ⟨rfl, rfl⟩
      | false =>
        rw [settled, if_neg (by decide)] at decided
        unfold compareDigest at decided
        split_ifs at decided with ascii
        · simp only [Except.map] at decided
          by_cases same : token = pending.decisionToken
          · rw [if_pos (by simpa using same)] at decided
            cases decided
            exact Or.inr ⟨rfl, object, pending, rfl, atObject, settled, same, rfl⟩
          · rw [if_neg (by simpa using same)] at decided
            cases decided
            exact Or.inl ⟨rfl, rfl⟩
        · cases decided

/-- A form changes the server as the `_decide` it calls, and its operator is told `recorded`
exactly when that returned `True`. -/
theorem doPost_cases {form : Form} {response : Response} {after : Server Time Timeout}
    (posted : doPost settings server form = .ok (response, after)) :
    (response = .forbidden ∧ after = server) ∨
      ∃ id allow operator token flag, server.decide id allow operator token = .ok (flag, after) ∧
        response = if flag then .recorded else .gone := by
  unfold doPost at posted
  obtain ⟨authed, -, posted⟩ := bind_eq_ok.mp posted
  cases authed with
  | false =>
    cases posted
    exact Or.inl ⟨rfl, rfl⟩
  | true =>
    obtain ⟨⟨flag, next⟩, decided, returned⟩ := bind_eq_ok.mp posted
    cases returned
    exact Or.inr ⟨_, _, _, _, flag, decided, rfl⟩

theorem requestOf_spec {id : Str} {object : Nat} (found : server.requestOf id = some object) :
    pendingId object = id ∧ object < server.objects.length := by
  unfold Server.requestOf at found
  have named := List.find?_some found
  have known := List.mem_of_find?_eq_some found
  exact ⟨by simpa using named, List.mem_range.mp known⟩

end Parts

/-! ## Changes -/

/-- A change of the server with what its step has checked. Where a run is prompt, no caller
gives up a request on which a decision has been recorded. -/
inductive Change (settings : Settings Time Timeout) (prompt : Prop) (server : Server Time Timeout) :
    Server Time Timeout → Prop
  | add (createdAt : Time) (token : Str) : Change settings prompt server (server.add createdAt token)
  | expire (entry : Str × Nat) (keyed : entry.1 = pendingId entry.2) (known : entry.2 < server.objects.length)
      (unrecorded : ¬ server.Recorded entry.2) (kept : Event.timedOut entry.2 ∉ server.log) :
      Change settings prompt server (server.expire entry)
  | miss (id : Str) (absent : server.find id = none)
      (heard : prompt → ∀ object, server.requestOf id = some object → ¬ server.Recorded object) :
      Change settings prompt server (server.record (.answered (server.requestOf id) expired))
  | call (id : Str) (timeout : Timeout) (object : Nat) (found : server.find id = some object) :
      Change settings prompt server { server with calls := server.calls ++ [⟨id, timeout, object, .waiting⟩] }
  | leave (number : Nat) (call : Call Timeout) (flag : Bool) (atCall : server.calls[number]? = some call)
      (woken : flag = true → server.decidedFlag call.object = true) :
      Change settings prompt server (server.setPhase number (.removing flag))
  | takeOut (number : Nat) (call : Call Timeout) (flag : Bool) (atCall : server.calls[number]? = some call)
      (phase : call.phase = .removing flag)
      (heard : prompt → flag = false → ¬ server.Recorded call.object) :
      Change settings prompt server (server.takeOut number call flag)
  | answer (number : Nat) (call : Call Timeout) (flag : Bool) (atCall : server.calls[number]? = some call)
      (phase : call.phase = .answering flag) :
      Change settings prompt server ((server.setPhase number .done).record
        (.answered (some call.object) (server.outcome settings call flag)))
  | settle (id : Str) (object : Nat) (pending : Pending Time) (allow : Bool) (operator : Str)
      (found : server.find id = some object) (atObject : server.objects[object]? = some pending)
      (undecided : pending.decided = false) :
      Change settings prompt server ((server.settle object (operatorDecision allow operator)).record
        (.decided object allow operator pending.decisionToken))

/-- The facts every change keeps. -/
structure Sound (server : Server Time Timeout) : Prop where
  keyed : ∀ entry ∈ server.pending, entry.1 = pendingId entry.2 ∧ entry.2 < server.objects.length
  settled : ∀ object pending, server.objects[object]? = some pending → pending.decided = true →
    (∃ allow operator, .decided object allow operator pending.decisionToken ∈ server.log ∧
      pending.decision = some (operatorDecision allow operator)) ∨ pending.decision = some expired
  recorded : ∀ object allow operator token, .decided object allow operator token ∈ server.log →
    server.Holds object (operatorDecision allow operator)
  once : (server.log.filterMap Event.decidedObject).Nodup
  swept : ∀ object, .swept object ∈ server.log → server.Holds object expired
  timedOut : ∀ object, .timedOut object ∈ server.log → server.Gone object ∧ server.decidedFlag object = false
  calls : ∀ call ∈ server.calls, call.pendingId = pendingId call.object ∧ call.object < server.objects.length
  woken : ∀ call ∈ server.calls, call.phase = .removing true ∨ call.phase = .answering true →
    server.decidedFlag call.object = true

theorem operatorDecision_ne_expired (allow : Bool) (operator : Str) : operatorDecision allow operator ≠ expired := by
  intro same
  have signed := congrArg ApprovalDecision.approvedBy same
  cases signed

section Kept

variable {server : Server Time Timeout} {settings : Settings Time Timeout}

/-- A request whose object stays as it is keeps its decision. -/
theorem Server.Holds.append {object : Nat} {decision : ApprovalDecision} (holds : server.Holds object decision)
    (added : Pending Time) : ∃ pending, (server.objects ++ [added])[object]? = some pending ∧
      pending.decided = true ∧ pending.decision = some decision := by
  obtain ⟨pending, atObject, decided, decision⟩ := holds
  have known : object < server.objects.length := (List.getElem?_eq_some_iff.mp atObject).1
  refine ⟨pending, ?_, decided, decision⟩
  rw [List.getElem?_append_left known]
  exact atObject

theorem Server.Holds.unrecorded (sound : Sound server) {object : Nat} (holds : server.Holds object expired) :
    ¬ server.Recorded object := by
  rintro ⟨allow, operator, token, logged⟩
  obtain ⟨pending, atObject, -, decision⟩ := sound.recorded object allow operator token logged
  obtain ⟨other, atOther, -, lapsed⟩ := holds
  rw [atObject] at atOther
  cases atOther
  rw [decision, Option.some.injEq] at lapsed
  exact operatorDecision_ne_expired allow operator lapsed

theorem Sound.decidedFlag_of_recorded (sound : Sound server) {object : Nat} (recorded : server.Recorded object) :
    server.decidedFlag object = true := by
  obtain ⟨allow, operator, token, logged⟩ := recorded
  obtain ⟨pending, atObject, decided, -⟩ := sound.recorded object allow operator token logged
  simp [Server.decidedFlag, atObject, decided]

/-- Another request's object is not settled. -/
theorem settle_other {object other : Nat} (decision : ApprovalDecision) (differ : other ≠ object) :
    (server.settle object decision).objects[other]? = server.objects[other]? := by
  simp only [Server.settle]
  exact List.getElem?_modify_ne _ _ (Ne.symm differ)

theorem settle_self {object : Nat} {pending : Pending Time} (decision : ApprovalDecision)
    (atObject : server.objects[object]? = some pending) :
    (server.settle object decision).objects[object]? =
      some { pending with decision := some decision, decided := true } := by
  simp only [Server.settle, List.getElem?_modify_eq, atObject, Option.map_eq_map, Option.map_some]

/-- An object after it has been settled by a decision. -/
theorem settle_cases {object other : Nat} {decision : ApprovalDecision} {pending : Pending Time}
    (atOther : (server.settle object decision).objects[other]? = some pending) :
    (other ≠ object ∧ server.objects[other]? = some pending) ∨
      (other = object ∧ ∃ before, server.objects[object]? = some before ∧
        pending = { before with decision := some decision, decided := true }) := by
  by_cases same : other = object
  · subst same
    simp only [Server.settle, List.getElem?_modify_eq] at atOther
    obtain ⟨before, atBefore, rfl⟩ := Option.map_eq_some_iff.mp atOther
    exact Or.inr ⟨rfl, before, atBefore, rfl⟩
  · rw [settle_other decision same] at atOther
    exact Or.inl ⟨same, atOther⟩

theorem decidedFlag_iff {object : Nat} : server.decidedFlag object = true ↔
    ∃ pending, server.objects[object]? = some pending ∧ pending.decided = true := by
  unfold Server.decidedFlag
  cases server.objects[object]? with
  | none => simp
  | some pending => simp

theorem decidedFlag_settle {object other : Nat} {decision : ApprovalDecision}
    (decided : server.decidedFlag other = true) : (server.settle object decision).decidedFlag other = true := by
  obtain ⟨pending, atOther, flag⟩ := decidedFlag_iff.mp decided
  apply decidedFlag_iff.mpr
  by_cases same : other = object
  · subst same
    exact ⟨_, settle_self decision atOther, rfl⟩
  · exact ⟨pending, (settle_other decision same).trans atOther, flag⟩

theorem mem_pop {id : Str} {entry : Str × Nat} (member : entry ∈ (server.pop id).pending) :
    entry ∈ server.pending ∧ entry.1 ≠ id := by
  simp only [Server.pop, List.mem_filter, decide_eq_true_eq] at member
  exact member

/-- Popping the entry of a request takes it out of the table. -/
theorem Sound.gone_pop (sound : Sound server) {object : Nat} (known : object < server.objects.length) :
    (server.pop (pendingId object)).Gone object := by
  refine ⟨known, ?_⟩
  rintro entry member rfl
  obtain ⟨listed, differs⟩ := mem_pop member
  exact differs (sound.keyed entry listed).1

theorem mem_setPhase {number : Nat} {phase : Phase} {call : Call Timeout}
    (member : call ∈ (server.setPhase number phase).calls) :
    call ∈ server.calls ∨ ∃ before, server.calls[number]? = some before ∧ call = { before with phase := phase } := by
  simp only [Server.setPhase] at member
  obtain ⟨index, atIndex⟩ := List.mem_iff_getElem?.mp member
  by_cases same : index = number
  · subst same
    rw [List.getElem?_modify_eq] at atIndex
    obtain ⟨before, atBefore, rfl⟩ := Option.map_eq_some_iff.mp atIndex
    exact Or.inr ⟨before, atBefore, rfl⟩
  · rw [List.getElem?_modify_ne _ _ (Ne.symm same)] at atIndex
    exact Or.inl (List.mem_of_getElem? atIndex)

theorem holds_settle_other {object other : Nat} {decision kept : ApprovalDecision} (differ : other ≠ object)
    (holds : server.Holds other kept) : (server.settle object decision).Holds other kept := by
  obtain ⟨pending, atOther, rest⟩ := holds
  exact ⟨pending, (settle_other decision differ).trans atOther, rest⟩

theorem holds_settle_self {object : Nat} {pending : Pending Time} (decision : ApprovalDecision)
    (atObject : server.objects[object]? = some pending) : (server.settle object decision).Holds object decision :=
  ⟨_, settle_self decision atObject, rfl, rfl⟩

/-- A request with a decision is not the one that is still open. -/
theorem Server.Holds.ne {object other : Nat} {decision : ApprovalDecision} {pending : Pending Time}
    (holds : server.Holds other decision) (atObject : server.objects[object]? = some pending)
    (undecided : pending.decided = false) : other ≠ object := by
  rintro rfl
  obtain ⟨settled, atSettled, decided, -⟩ := holds
  rw [atObject, Option.some.injEq] at atSettled
  subst atSettled
  rw [undecided] at decided
  cases decided

theorem length_settle (object : Nat) (decision : ApprovalDecision) :
    (server.settle object decision).objects.length = server.objects.length := by
  simp [Server.settle]

theorem Sound.pop (sound : Sound server) (id : Str) : Sound (server.pop id) where
  keyed entry member := sound.keyed entry (mem_pop member).1
  settled := sound.settled
  recorded := sound.recorded
  once := sound.once
  swept := sound.swept
  timedOut object logged := by
    obtain ⟨gone, undecided⟩ := sound.timedOut object logged
    exact ⟨⟨gone.1, fun entry member => gone.2 entry (mem_pop member).1⟩, undecided⟩
  calls := sound.calls
  woken := sound.woken

theorem Sound.setPhase (sound : Sound server) {number : Nat} {call : Call Timeout} {phase : Phase}
    (atCall : server.calls[number]? = some call)
    (woken : phase = .removing true ∨ phase = .answering true → server.decidedFlag call.object = true) :
    Sound (server.setPhase number phase) where
  keyed := sound.keyed
  settled := sound.settled
  recorded := sound.recorded
  once := sound.once
  swept := sound.swept
  timedOut := sound.timedOut
  calls later member := by
    obtain before | ⟨before, atBefore, rfl⟩ := mem_setPhase member
    · exact sound.calls later before
    · exact sound.calls before (List.mem_of_getElem? atBefore)
  woken later member flagged := by
    obtain before | ⟨before, atBefore, rfl⟩ := mem_setPhase member
    · exact sound.woken later before flagged
    · rw [atCall, Option.some.injEq] at atBefore
      subst atBefore
      exact woken flagged

theorem Sound.answered (sound : Sound server) (object : Option Nat) (decision : ApprovalDecision) :
    Sound (server.record (.answered object decision)) where
  keyed := sound.keyed
  settled object pending atObject decided := by
    obtain ⟨allow, operator, logged, decision⟩ | lapsed := sound.settled object pending atObject decided
    · exact Or.inl ⟨allow, operator, List.mem_cons_of_mem _ logged, decision⟩
    · exact Or.inr lapsed
  recorded object allow operator token logged :=
    sound.recorded object allow operator token ((List.mem_cons.mp logged).resolve_left (by simp))
  once := sound.once
  swept object logged := sound.swept object ((List.mem_cons.mp logged).resolve_left (by simp))
  timedOut object logged := sound.timedOut object ((List.mem_cons.mp logged).resolve_left (by simp))
  calls := sound.calls
  woken := sound.woken

theorem Sound.gaveUp (sound : Sound server) {object : Nat} (gone : server.Gone object)
    (undecided : server.decidedFlag object = false) : Sound (server.record (.timedOut object)) where
  keyed := sound.keyed
  settled object pending atObject decided := by
    obtain ⟨allow, operator, logged, decision⟩ | lapsed := sound.settled object pending atObject decided
    · exact Or.inl ⟨allow, operator, List.mem_cons_of_mem _ logged, decision⟩
    · exact Or.inr lapsed
  recorded object allow operator token logged :=
    sound.recorded object allow operator token ((List.mem_cons.mp logged).resolve_left (by simp))
  once := sound.once
  swept object logged := sound.swept object ((List.mem_cons.mp logged).resolve_left (by simp))
  timedOut other logged := by
    rcases List.mem_cons.mp logged with same | before
    · cases same
      exact ⟨gone, undecided⟩
    · exact sound.timedOut other before
  calls := sound.calls
  woken := sound.woken

theorem Sound.call (sound : Sound server) {id : Str} {object : Nat} (found : server.find id = some object)
    (timeout : Timeout) :
    Sound { server with calls := server.calls ++ [⟨id, timeout, object, .waiting⟩] } where
  keyed := sound.keyed
  settled := sound.settled
  recorded := sound.recorded
  once := sound.once
  swept := sound.swept
  timedOut := sound.timedOut
  calls call member := by
    rcases List.mem_append.mp member with before | new
    · exact sound.calls call before
    · rw [List.mem_singleton.mp new]
      exact sound.keyed (id, object) (mem_of_find found)
  woken call member flagged := by
    rcases List.mem_append.mp member with before | new
    · exact sound.woken call before flagged
    · rw [List.mem_singleton.mp new] at flagged
      simp at flagged

theorem Sound.add (sound : Sound server) (createdAt : Time) (token : Str) : Sound (server.add createdAt token) where
  keyed entry member := by
    simp only [Server.add, List.length_append, List.length_singleton]
    rcases List.mem_append.mp member with before | new
    · have listed := sound.keyed entry before
      exact ⟨listed.1, Nat.lt_succ_of_lt listed.2⟩
    · rw [List.mem_singleton.mp new]
      exact ⟨rfl, Nat.lt_succ_self _⟩
  settled object pending atObject decided := by
    simp only [Server.add] at atObject ⊢
    rcases List.mem_append.mp (List.mem_of_getElem? atObject) with old | new
    · by_cases known : object < server.objects.length
      · rw [List.getElem?_append_left known] at atObject
        exact sound.settled object pending atObject decided
      · rw [List.getElem?_append_right (Nat.le_of_not_lt known)] at atObject
        rw [List.mem_singleton.mp (List.mem_of_getElem? atObject)] at decided
        cases decided
    · rw [List.mem_singleton.mp new] at decided
      cases decided
  recorded object allow operator token logged := (sound.recorded object allow operator token logged).append _
  once := sound.once
  swept object logged := (sound.swept object logged).append _
  timedOut object logged := by
    obtain ⟨gone, undecided⟩ := sound.timedOut object logged
    refine ⟨⟨?_, ?_⟩, ?_⟩
    · simp only [Server.add, List.length_append, List.length_singleton]
      exact Nat.lt_succ_of_lt gone.1
    · intro entry member
      rcases List.mem_append.mp member with before | new
      · exact gone.2 entry before
      · rw [List.mem_singleton.mp new]
        exact Nat.ne_of_gt gone.1
    · simp only [Server.decidedFlag, Server.add, List.getElem?_append_left gone.1]
      exact undecided
  calls call member := by
    have listed := sound.calls call member
    simp only [Server.add, List.length_append, List.length_singleton]
    exact ⟨listed.1, Nat.lt_succ_of_lt listed.2⟩
  woken call member flagged := by
    simp only [Server.decidedFlag, Server.add, List.getElem?_append_left (sound.calls call member).2]
    exact sound.woken call member flagged

theorem Sound.lapse (sound : Sound server) {object : Nat} (known : object < server.objects.length)
    (unrecorded : ¬ server.Recorded object) (kept : Event.timedOut object ∉ server.log) :
    Sound ((server.settle object expired).record (.swept object)) where
  keyed entry member := by
    simp only [Server.record, length_settle]
    exact sound.keyed entry member
  settled other pending atOther decided := by
    obtain ⟨-, before⟩ | ⟨-, before, -, rfl⟩ := settle_cases atOther
    · obtain ⟨allow, operator, logged, decision⟩ | lapsed := sound.settled other pending before decided
      · exact Or.inl ⟨allow, operator, List.mem_cons_of_mem _ logged, decision⟩
      · exact Or.inr lapsed
    · exact Or.inr rfl
  recorded other allow operator token logged := by
    have before := (List.mem_cons.mp logged).resolve_left (by simp)
    apply holds_settle_other
    · rintro rfl
      exact unrecorded ⟨allow, operator, token, before⟩
    · exact sound.recorded other allow operator token before
  once := sound.once
  swept other logged := by
    by_cases same : other = object
    · subst same
      exact holds_settle_self expired (List.getElem?_eq_getElem known)
    · have before : .swept other ∈ server.log := (List.mem_cons.mp logged).resolve_left (by simpa using same)
      exact holds_settle_other same (sound.swept other before)
  timedOut other logged := by
    have before := (List.mem_cons.mp logged).resolve_left (by simp)
    obtain ⟨gone, undecided⟩ := sound.timedOut other before
    have differ : other ≠ object := by
      rintro rfl
      exact kept before
    refine ⟨⟨(length_settle object expired).symm ▸ gone.1, gone.2⟩, ?_⟩
    simp only [Server.decidedFlag, Server.record, settle_other expired differ]
    exact undecided
  calls call member := by
    simp only [Server.record, length_settle]
    exact sound.calls call member
  woken call member flagged := decidedFlag_settle (sound.woken call member flagged)

theorem Sound.settle (sound : Sound server) {id : Str} {object : Nat} {pending : Pending Time} (allow : Bool)
    (operator : Str) (found : server.find id = some object) (atObject : server.objects[object]? = some pending)
    (undecided : pending.decided = false) :
    Sound ((server.settle object (operatorDecision allow operator)).record
      (.decided object allow operator pending.decisionToken)) where
  keyed entry member := by
    simp only [Server.record, length_settle]
    exact sound.keyed entry member
  settled other pending atOther decided := by
    obtain ⟨-, before⟩ | ⟨rfl, before, atBefore, rfl⟩ := settle_cases atOther
    · obtain ⟨allow, operator, logged, decision⟩ | lapsed := sound.settled other pending before decided
      · exact Or.inl ⟨allow, operator, List.mem_cons_of_mem _ logged, decision⟩
      · exact Or.inr lapsed
    · rw [atObject, Option.some.injEq] at atBefore
      subst atBefore
      exact Or.inl ⟨allow, operator, List.mem_cons_self, rfl⟩
  recorded other allowed name token logged := by
    rcases List.mem_cons.mp logged with same | before
    · cases same
      exact holds_settle_self _ atObject
    · have holds := sound.recorded other allowed name token before
      exact holds_settle_other (holds.ne atObject undecided) holds
  once := by
    simp only [Server.record, List.filterMap_cons, Event.decidedObject, List.nodup_cons]
    refine ⟨?_, sound.once⟩
    intro again
    obtain ⟨event, logged, decides⟩ := List.mem_filterMap.mp again
    cases event with
    | decided other allowed name token =>
      have holds := sound.recorded other allowed name token logged
      exact holds.ne atObject undecided (Option.some.inj decides)
    | swept => cases decides
    | timedOut => cases decides
    | answered => cases decides
  swept other logged := by
    have holds := sound.swept other ((List.mem_cons.mp logged).resolve_left (by simp))
    exact holds_settle_other (holds.ne atObject undecided) holds
  timedOut other logged := by
    have before := (List.mem_cons.mp logged).resolve_left (by simp)
    obtain ⟨gone, flag⟩ := sound.timedOut other before
    have differ : other ≠ object := Ne.symm (gone.2 (id, object) (mem_of_find found))
    refine ⟨⟨(length_settle object _).symm ▸ gone.1, gone.2⟩, ?_⟩
    simp only [Server.decidedFlag, Server.record, settle_other _ differ]
    exact flag
  calls call member := by
    simp only [Server.record, length_settle]
    exact sound.calls call member
  woken call member flagged := decidedFlag_settle (sound.woken call member flagged)

theorem Sound.change (sound : Sound server) {prompt : Prop} {after : Server Time Timeout}
    (change : Change settings prompt server after) : Sound after := by
  cases change with
  | add createdAt token => exact sound.add createdAt token
  | expire entry keyed known unrecorded kept => exact (sound.pop entry.1).lapse known unrecorded kept
  | miss id absent heard => exact sound.answered _ _
  | call id timeout object found => exact sound.call found timeout
  | leave number call flag atCall woken =>
    apply sound.setPhase atCall
    simpa using woken
  | takeOut number call flag atCall phase heard =>
    have listed := sound.calls call (List.mem_of_getElem? atCall)
    have taken : Sound ((server.pop call.pendingId).setPhase number (.answering flag)) := by
      apply (sound.pop call.pendingId).setPhase atCall
      intro flagged
      have woken : flag = true := by simpa using flagged
      exact sound.woken call (List.mem_of_getElem? atCall) (Or.inl (by rw [phase, woken]))
    unfold Server.takeOut
    simp only []
    split_ifs with heardOf
    · exact taken
    · rw [Bool.or_eq_true, not_or, Bool.not_eq_true, Bool.not_eq_true] at heardOf
      apply taken.gaveUp
      · rw [listed.1]
        exact sound.gone_pop listed.2
      · exact heardOf.2
  | answer number call flag atCall phase =>
    exact (sound.setPhase atCall (by simp)).answered _ _
  | settle id object pending allow operator found atObject undecided =>
    exact sound.settle allow operator found atObject undecided

end Kept

/-! ## Steps -/

section Steps

variable {server after : Server Time Timeout} {settings : Settings Time Timeout} {prompt : Prop}

/-- The entries that a sweep takes out expire one after another. -/
theorem changes_of_expire (entries : List (Str × Nat))
    (keyed : ∀ entry ∈ entries, entry.1 = pendingId entry.2 ∧ entry.2 < server.objects.length)
    (unrecorded : ∀ entry ∈ entries, ¬ server.Recorded entry.2)
    (kept : ∀ entry ∈ entries, Event.timedOut entry.2 ∉ server.log) :
    Relation.ReflTransGen (Change settings prompt) server (entries.foldl Server.expire server) := by
  induction entries generalizing server with
  | nil => exact .refl
  | cons entry entries ih =>
    have first := List.mem_cons_self (a := entry) (l := entries)
    have change : Change settings prompt server (server.expire entry) :=
      .expire entry (keyed entry first).1 (keyed entry first).2 (unrecorded entry first) (kept entry first)
    refine Relation.ReflTransGen.head change (ih ?_ ?_ ?_)
    · intro other member
      have listed := keyed other (List.mem_cons_of_mem _ member)
      exact ⟨listed.1, by simpa only [Server.expire, Server.record, length_settle, Server.pop] using listed.2⟩
    · rintro other member ⟨allow, operator, token, logged⟩
      apply unrecorded other (List.mem_cons_of_mem _ member)
      exact ⟨allow, operator, token, (List.mem_cons.mp logged).resolve_left (by simp)⟩
    · intro other member logged
      apply kept other (List.mem_cons_of_mem _ member)
      exact (List.mem_cons.mp logged).resolve_left (by simp)

theorem changes_of_sweep (sound : Sound server) (now : Time) :
    Relation.ReflTransGen (Change settings prompt) server (server.sweep settings now) := by
  apply changes_of_expire
  · exact fun entry member => sound.keyed entry (List.mem_of_mem_filter member)
  · intro entry member recorded
    have lapsed := (List.mem_filter.mp member).2
    have decided := sound.decidedFlag_of_recorded recorded
    obtain ⟨pending, atObject, flag⟩ := decidedFlag_iff.mp decided
    simp [Server.isExpired, atObject, flag] at lapsed
  · intro entry member logged
    exact (sound.timedOut entry.2 logged).1.2 entry (List.mem_of_mem_filter member) rfl

theorem changes_of_decide {id operator token : Str} {allow flag : Bool}
    (decided : server.decide id allow operator token = .ok (flag, after)) :
    Relation.ReflTransGen (Change settings prompt) server after := by
  obtain ⟨-, rfl⟩ | ⟨-, object, pending, found, atObject, undecided, rfl, rfl⟩ := decide_cases decided
  · exact .refl
  · exact .single (.settle id object pending allow operator found atObject undecided)

/-- A caller misses the decision on its request: it comes for it when another call has taken
out the entry, or its wait had ended before the decision. -/
def Server.misses (server : Server Time Timeout) (action : Action Time Timeout) : Prop :=
  (∃ id timeout object, action = .await id timeout ∧ server.find id = none ∧
      server.requestOf id = some object ∧ server.Recorded object) ∨
    ∃ number call, action = .remove number ∧ server.calls[number]? = some call ∧
      call.phase = .removing false ∧ server.Recorded call.object

/-- What a step does is a sequence of changes. -/
theorem changes_of_step {action : Action Time Timeout} (sound : Sound server)
    (taken : step settings server action = some after) (heard : prompt → ¬ server.misses action) :
    Relation.ReflTransGen (Change settings prompt) server after := by
  cases action with
  | register createdAt token now =>
    cases taken
    exact .head (.add createdAt token) (changes_of_sweep (sound.add createdAt token) now)
  | await id timeout =>
    cases taken
    unfold Server.lookup
    cases found : server.find id with
    | none =>
      apply Relation.ReflTransGen.single
      refine .miss id found ?_
      intro isPrompt object registered recorded
      exact heard isPrompt (Or.inl ⟨id, timeout, object, rfl, found, registered, recorded⟩)
    | some object => exact .single (.call id timeout object found)
  | wake number =>
    obtain ⟨call, atCall, next⟩ := Option.bind_eq_some_iff.mp taken
    split_ifs at next with awake
    cases next
    exact .single (.leave number call true atCall (fun _ => awake.2))
  | expire number =>
    obtain ⟨call, atCall, next⟩ := Option.bind_eq_some_iff.mp taken
    split_ifs at next
    cases next
    exact .single (.leave number call false atCall (fun flagged => absurd flagged (by decide)))
  | remove number =>
    obtain ⟨call, atCall, next⟩ := Option.bind_eq_some_iff.mp taken
    cases phase : call.phase with
    | removing flag =>
      rw [phase] at next
      cases next
      apply Relation.ReflTransGen.single
      refine .takeOut number call flag atCall phase ?_
      rintro isPrompt rfl recorded
      exact heard isPrompt (Or.inr ⟨number, call, rfl, atCall, phase, recorded⟩)
    | waiting => simp [phase] at next
    | answering flag => simp [phase] at next
    | done => simp [phase] at next
  | answer number =>
    obtain ⟨call, atCall, next⟩ := Option.bind_eq_some_iff.mp taken
    cases phase : call.phase with
    | answering flag =>
      rw [phase] at next
      cases next
      exact .single (.answer number call flag atCall phase)
    | waiting => simp [phase] at next
    | removing flag => simp [phase] at next
    | done => simp [phase] at next
  | decide id allow operator token =>
    simp only [step] at taken
    split at taken
    next flag next decided =>
      cases taken
      exact changes_of_decide decided
    next =>
      cases taken
      exact .refl
  | post form =>
    simp only [step] at taken
    split at taken
    next response next posted =>
      cases taken
      obtain ⟨-, rfl⟩ | ⟨id, allow, operator, token, flag, decided, -⟩ := doPost_cases posted
      · exact .refl
      · exact changes_of_decide decided
    next =>
      cases taken
      exact .refl
  | snapshot now =>
    cases taken
    exact changes_of_sweep sound now

/-- What each change of a sound server keeps, a step keeps. -/
theorem step_keeps (prompt : Prop) {P : Server Time Timeout → Prop} {action : Action Time Timeout} (sound : Sound server)
    (taken : step settings server action = some after) (heard : prompt → ¬ server.misses action)
    (kept : ∀ before later, Sound before → Change settings prompt before later → P before → P later)
    (start : P server) : P after := by
  have both : Sound after ∧ P after := by
    have changes := changes_of_step sound taken heard
    clear taken heard
    induction changes with
    | refl => exact ⟨sound, start⟩
    | tail _ change ih => exact ⟨ih.1.change change, kept _ _ ih.1 change ih.2⟩
  exact both.2

theorem sound_initial : Sound (Server.initial : Server Time Timeout) where
  keyed entry member := by cases member
  settled object pending atObject := by simp [Server.initial] at atObject
  recorded object allow operator token logged := by cases logged
  once := List.nodup_nil
  swept object logged := by cases logged
  timedOut object logged := by cases logged
  calls call member := by cases member
  woken call member := by cases member

theorem Sound.step {action : Action Time Timeout} (sound : Sound server)
    (taken : step settings server action = some after) : Sound after :=
  step_keeps False sound taken (fun isPrompt => isPrompt.elim)
    (fun _ _ sound change _ => sound.change change) sound

end Steps

end Tesera.Approval
