import Tesera.Approval.Requests

/-!
What callers are told of the decisions of operators. A caller is only told of a decision that
was made with the token of its request before it was told, and of none on a request that was
swept or given up; and it is told of the decision that was made, if it does not miss it.
-/

namespace Tesera.Approval
open Tesera.Text Tesera.Text.Unicode Tesera.Python.Value
open Tesera.Transition

variable {Time Timeout : Type}

/-- No caller is told of a decision that the operators have not made. -/
structure Safe (server : Server Time Timeout) : Prop where
  /-- An answer that allows is that of a `_decide` with `allow` and the token of the request,
  which had returned `True` before. -/
  allowed : ∀ later object decision before, server.log = later ++ .answered object decision :: before →
    decision.allowed = true → ∃ number operator pending, object = some number ∧
      server.objects[number]? = some pending ∧ .decided number true operator pending.decisionToken ∈ before
  once : (server.log.filterMap Event.decidedObject).Nodup
  lapsed : ∀ object decision, .swept object ∈ server.log ∨ .timedOut object ∈ server.log →
    .answered (some object) decision ∈ server.log → decision.allowed = false

/-- Every caller is told of the decision on its request. -/
def Delivered (server : Server Time Timeout) : Prop :=
  ∀ object decision allow operator token, .answered (some object) decision ∈ server.log →
    .decided object allow operator token ∈ server.log → decision = operatorDecision allow operator

/-- The events a change can log. -/
inductive Logs (settings : Settings Time Timeout) (prompt : Prop) (server : Server Time Timeout) : Event → Prop
  | swept (object : Nat) : Logs settings prompt server (.swept object)
  | timedOut (object : Nat) : Logs settings prompt server (.timedOut object)
  | missed (id : Str) (absent : server.find id = none)
      (heard : prompt → ∀ object, server.requestOf id = some object → ¬ server.Recorded object) :
      Logs settings prompt server (.answered (server.requestOf id) expired)
  | answered (number : Nat) (call : Call Timeout) (flag : Bool) (atCall : server.calls[number]? = some call)
      (phase : call.phase = .answering flag) :
      Logs settings prompt server (.answered (some call.object) (server.outcome settings call flag))
  | decided (id : Str) (object : Nat) (allow : Bool) (operator token : Str) (found : server.find id = some object) :
      Logs settings prompt server (.decided object allow operator token)

section Changes

variable {server after : Server Time Timeout} {settings : Settings Time Timeout} {prompt : Prop}

/-! ## One change -/

theorem Server.Gone.change {object : Nat} (gone : server.Gone object)
    (change : Change settings prompt server after) : after.Gone object := by
  obtain ⟨known, absent⟩ := gone
  cases change with
  | add createdAt token =>
    refine ⟨?_, ?_⟩
    · simp only [Server.add, List.length_append]
      omega
    · intro entry member
      rcases List.mem_append.mp member with before | new
      · exact absent entry before
      · rw [List.mem_singleton.mp new]
        exact Nat.ne_of_gt known
  | expire entry keyed below unrecorded kept =>
    refine ⟨?_, fun other member => absent other (mem_pop member).1⟩
    simpa only [Server.expire, Server.record, length_settle, Server.pop] using known
  | miss id missing heard => exact ⟨known, absent⟩
  | call id timeout found => exact ⟨known, absent⟩
  | leave number call flag atCall woken => exact ⟨known, absent⟩
  | takeOut number call flag atCall phase heard =>
    unfold Server.takeOut
    simp only []
    split_ifs
    · exact ⟨known, fun entry member => absent entry (mem_pop member).1⟩
    · exact ⟨known, fun entry member => absent entry (mem_pop member).1⟩
  | answer number call flag atCall phase => exact ⟨known, absent⟩
  | settle id other pending allow operator found atObject undecided =>
    exact ⟨(length_settle other _).symm ▸ known, absent⟩

theorem log_takeOut (number : Nat) (call : Call Timeout) (flag : Bool) :
    (server.takeOut number call flag).log = server.log ∨
      (server.takeOut number call flag).log = .timedOut call.object :: server.log := by
  unfold Server.takeOut
  simp only []
  split_ifs
  · exact Or.inl rfl
  · exact Or.inr rfl

/-- The event a change logs, if any. -/
theorem log_change (change : Change settings prompt server after) :
    after.log = server.log ∨ ∃ event, after.log = event :: server.log ∧ Logs settings prompt server event := by
  cases change with
  | add createdAt token => exact Or.inl rfl
  | expire entry keyed known unrecorded kept => exact Or.inr ⟨_, rfl, .swept _⟩
  | miss id absent heard => exact Or.inr ⟨_, rfl, .missed id absent heard⟩
  | call id timeout found => exact Or.inl rfl
  | leave number call flag atCall woken => exact Or.inl rfl
  | takeOut number call flag atCall phase heard =>
    obtain same | logged := @log_takeOut _ _ server number call flag
    · exact Or.inl same
    · exact Or.inr ⟨_, logged, .timedOut _⟩
  | answer number call flag atCall phase => exact Or.inr ⟨_, rfl, .answered number call flag atCall phase⟩
  | settle id object pending allow operator found atObject undecided =>
    exact Or.inr ⟨_, rfl, .decided id object allow operator _ found⟩

/-- A request keeps its token. -/
theorem token_change {object : Nat} {pending : Pending Time} (change : Change settings prompt server after)
    (atObject : server.objects[object]? = some pending) :
    ∃ later, after.objects[object]? = some later ∧ later.decisionToken = pending.decisionToken := by
  have settled : ∀ (other : Nat) (decision : ApprovalDecision), ∃ later,
      (server.settle other decision).objects[object]? = some later ∧
        later.decisionToken = pending.decisionToken := by
    intro other decision
    by_cases same : object = other
    · subst same
      exact ⟨_, settle_self decision atObject, rfl⟩
    · exact ⟨pending, (settle_other decision same).trans atObject, rfl⟩
  cases change with
  | add createdAt token =>
    have known : object < server.objects.length := (List.getElem?_eq_some_iff.mp atObject).1
    exact ⟨pending, (List.getElem?_append_left known).trans atObject, rfl⟩
  | expire entry keyed known unrecorded kept => exact settled entry.2 expired
  | miss id absent heard => exact ⟨pending, atObject, rfl⟩
  | call id timeout found => exact ⟨pending, atObject, rfl⟩
  | leave number call flag atCall woken => exact ⟨pending, atObject, rfl⟩
  | takeOut number call flag atCall phase heard =>
    refine ⟨pending, ?_, rfl⟩
    unfold Server.takeOut
    simp only []
    split_ifs
    · exact atObject
    · exact atObject
  | answer number call flag atCall phase => exact ⟨pending, atObject, rfl⟩
  | settle id other pending allow operator found atOther undecided => exact settled other _

/-! ## Answers that allow -/

theorem allowed_operatorDecision {allow : Bool} {operator : Str}
    (allowed : (operatorDecision allow operator).allowed = true) : allow = true := by
  cases allow with
  | true => rfl
  | false => cases allowed

/-- An answer that allows gives the decision in the request's object. -/
theorem Sound.outcome_allowed (sound : Sound server) {call : Call Timeout} {flag : Bool}
    (allowed : (server.outcome settings call flag).allowed = true)
    (woken : flag = true → server.decidedFlag call.object = true) :
    ∃ operator pending, server.objects[call.object]? = some pending ∧
      .decided call.object true operator pending.decisionToken ∈ server.log := by
  unfold Server.outcome at allowed
  split at allowed
  next decision found =>
    obtain ⟨pending, atObject, decided⟩ := Option.bind_eq_some_iff.mp found
    obtain ⟨same, atSame, flagged⟩ := decidedFlag_iff.mp (woken rfl)
    rw [atObject, Option.some.injEq] at atSame
    subst atSame
    obtain ⟨allow, operator, logged, made⟩ | lapsed := sound.settled call.object pending atObject flagged
    · rw [decided, Option.some.injEq] at made
      rw [made] at allowed
      rw [allowed_operatorDecision allowed] at logged
      exact ⟨operator, pending, atObject, logged⟩
    · rw [decided, Option.some.injEq] at lapsed
      rw [lapsed] at allowed
      cases allowed
  next => cases allowed

/-- An answer that allows is of a decision logged before it. -/
def Justified (server : Server Time Timeout) : Prop :=
  ∀ later object decision before, server.log = later ++ .answered object decision :: before →
    decision.allowed = true → ∃ number operator pending, object = some number ∧
      server.objects[number]? = some pending ∧ .decided number true operator pending.decisionToken ∈ before

theorem Justified.change (justified : Justified server) (sound : Sound server)
    (change : Change settings prompt server after) : Justified after := by
  have known : ∀ later object decision before, server.log = later ++ .answered object decision :: before →
      decision.allowed = true → ∃ number operator pending, object = some number ∧
        after.objects[number]? = some pending ∧ .decided number true operator pending.decisionToken ∈ before := by
    intro later object decision before split allowed
    obtain ⟨number, operator, pending, same, atNumber, logged⟩ := justified later object decision before split allowed
    obtain ⟨kept, atKept, token⟩ := token_change change atNumber
    exact ⟨number, operator, kept, same, atKept, token.symm ▸ logged⟩
  intro later object decision before split allowed
  obtain same | ⟨event, logged, logs⟩ := log_change change
  · rw [same] at split
    exact known later object decision before split allowed
  rw [logged] at split
  obtain ⟨rfl, found⟩ | ⟨earlier, rfl, found⟩ := List.cons_eq_append_iff.mp split
  · cases found
    cases logs with
    | missed id absent heard => cases allowed
    | answered number call flag atCall phase =>
      obtain ⟨operator, pending, atObject, decided⟩ := sound.outcome_allowed allowed (fun woken =>
        sound.woken call (List.mem_of_getElem? atCall) (Or.inr (by rw [phase, woken])))
      obtain ⟨kept, atKept, token⟩ := token_change change atObject
      exact ⟨call.object, operator, kept, rfl, atKept, token.symm ▸ decided⟩
  · exact known earlier object decision before found allowed

theorem Justified.safe (justified : Justified server) (sound : Sound server) : Safe server where
  allowed := justified
  once := sound.once
  lapsed object decision gone answered := by
    by_contra allows
    obtain ⟨later, before, split⟩ := List.append_of_mem answered
    obtain ⟨number, operator, pending, same, -, logged⟩ :=
      justified later (some object) decision before split (by simpa using allows)
    cases same
    have recorded : server.Recorded object :=
      ⟨true, operator, pending.decisionToken, split ▸ List.mem_append_right _ (List.mem_cons_of_mem _ logged)⟩
    rcases gone with swept | timedOut
    · exact (sound.swept object swept).unrecorded sound recorded
    · have decided := sound.decidedFlag_of_recorded recorded
      rw [(sound.timedOut object timedOut).2] at decided
      cases decided

/-! ## Answers that are prompt -/

/-- A caller that is about to answer, and one that has, have no decision to miss. -/
structure Prompt (server : Server Time Timeout) : Prop where
  answering : ∀ call ∈ server.calls, ∀ flag, call.phase = .answering flag →
    server.Gone call.object ∧ (flag = false → ¬ server.Recorded call.object)
  answered : ∀ object decision, .answered (some object) decision ∈ server.log →
    server.Gone object ∧ ∀ allow operator token, .decided object allow operator token ∈ server.log →
      decision = operatorDecision allow operator

/-- A request that has been taken out gets no decision any more. -/
theorem Server.Gone.decided_change {object : Nat} {allow : Bool} {operator token : Str}
    (gone : server.Gone object) (change : Change settings prompt server after)
    (decided : .decided object allow operator token ∈ after.log) :
    .decided object allow operator token ∈ server.log := by
  obtain same | ⟨event, logged, logs⟩ := log_change change
  · rwa [same] at decided
  rw [logged] at decided
  refine (List.mem_cons.mp decided).resolve_left ?_
  rintro rfl
  cases logs with
  | decided id _ _ _ _ found => exact gone.2 _ (mem_of_find found) rfl

theorem Server.Gone.unrecorded_change {object : Nat} (gone : server.Gone object)
    (change : Change settings prompt server after) (unrecorded : ¬ server.Recorded object) :
    ¬ after.Recorded object := by
  rintro ⟨allow, operator, token, decided⟩
  exact unrecorded ⟨allow, operator, token, gone.decided_change change decided⟩

/-- The answer of a call that has been woken is the decision on its request. -/
theorem Sound.outcome_recorded (sound : Sound server) {call : Call Timeout} {allow : Bool} {operator token : Str}
    (decided : .decided call.object allow operator token ∈ server.log) :
    server.outcome settings call true = operatorDecision allow operator := by
  obtain ⟨pending, atObject, -, decision⟩ := sound.recorded call.object allow operator token decided
  simp [Server.outcome, atObject, decision]

theorem gone_of_absent (sound : Sound server) {id : Str} {object : Nat} (absent : server.find id = none)
    (registered : server.requestOf id = some object) : server.Gone object := by
  obtain ⟨named, known⟩ := requestOf_spec registered
  refine ⟨known, ?_⟩
  rintro entry member rfl
  exact not_mem_of_find absent entry member ((sound.keyed entry member).1.trans named)

theorem Prompt.answering_change (prompt : Prompt server) (sound : Sound server)
    (change : Change settings True server after) :
    ∀ call ∈ after.calls, ∀ flag, call.phase = .answering flag →
      after.Gone call.object ∧ (flag = false → ¬ after.Recorded call.object) := by
  have old : ∀ call ∈ server.calls, ∀ flag, call.phase = .answering flag →
      after.Gone call.object ∧ (flag = false → ¬ after.Recorded call.object) := by
    intro call member flag phase
    obtain ⟨gone, unrecorded⟩ := prompt.answering call member flag phase
    exact ⟨gone.change change, fun timedOut => gone.unrecorded_change change (unrecorded timedOut)⟩
  intro call member flag phase
  cases change with
  | add createdAt token => exact old call member flag phase
  | expire entry keyed known unrecorded kept => exact old call member flag phase
  | miss id absent heard => exact old call member flag phase
  | call id timeout object found =>
    rcases List.mem_append.mp member with before | new
    · exact old call before flag phase
    · rw [List.mem_singleton.mp new] at phase
      cases phase
  | leave number leaving woken atCall flagged =>
    obtain before | ⟨before, _, rfl⟩ := mem_setPhase member
    · exact old call before flag phase
    · cases phase
  | takeOut number taken woken atCall removing heard =>
    have calls : call ∈ ((server.pop taken.pendingId).setPhase number (.answering woken)).calls := by
      unfold Server.takeOut at member
      simp only [] at member
      split_ifs at member
      · exact member
      · exact member
    obtain before | ⟨before, atBefore, rfl⟩ := mem_setPhase calls
    · exact old call before flag phase
    · cases phase
      change server.calls[number]? = some before at atBefore
      rw [atCall, Option.some.injEq] at atBefore
      subst atBefore
      have listed := sound.calls taken (List.mem_of_getElem? atCall)
      have gone := sound.gone_pop listed.2
      rw [← listed.1] at gone
      refine ⟨?_, ?_⟩
      · unfold Server.takeOut
        simp only []
        split_ifs
        · exact gone
        · exact gone
      · rintro timedOut ⟨allow, operator, token, decided⟩
        apply heard trivial timedOut
        refine ⟨allow, operator, token, ?_⟩
        obtain same | logged := @log_takeOut _ _ server number taken flag
        · rwa [same] at decided
        · rw [logged] at decided
          exact (List.mem_cons.mp decided).resolve_left (by simp)
  | answer number answering woken atCall answers =>
    obtain before | ⟨before, _, rfl⟩ := mem_setPhase member
    · exact old call before flag phase
    · cases phase
  | settle id object pending allow operator found atObject undecided => exact old call member flag phase

theorem Prompt.change (prompt : Prompt server) (sound : Sound server) (change : Change settings True server after) :
    Prompt after where
  answering := prompt.answering_change sound change
  answered object decision answered := by
    have known : .answered (some object) decision ∈ server.log → after.Gone object ∧
        ∀ allow operator token, .decided object allow operator token ∈ after.log →
          decision = operatorDecision allow operator := by
      intro before
      obtain ⟨gone, right⟩ := prompt.answered object decision before
      exact ⟨gone.change change, fun allow operator token decided =>
        right allow operator token (gone.decided_change change decided)⟩
    obtain same | ⟨event, logged, logs⟩ := log_change change
    · exact known (same ▸ answered)
    rw [logged] at answered
    rcases List.mem_cons.mp answered with rfl | before
    · generalize new : Event.answered (some object) decision = event at logs
      cases logs with
      | swept other => cases new
      | timedOut other => cases new
      | decided id other allow operator token found => cases new
      | missed id absent heard =>
        simp only [Event.answered.injEq] at new
        obtain ⟨registered, rfl⟩ := new
        have gone := gone_of_absent sound absent registered.symm
        refine ⟨gone.change change, fun allow operator token decided => ?_⟩
        have recorded := gone.decided_change change decided
        exact absurd ⟨allow, operator, token, recorded⟩ (heard trivial object registered.symm)
      | answered number call flag atCall phase =>
        cases new
        obtain ⟨gone, unrecorded⟩ := prompt.answering call (List.mem_of_getElem? atCall) flag phase
        refine ⟨gone.change change, fun allow operator token decided => ?_⟩
        have recorded := gone.decided_change change decided
        cases flag with
        | true => exact sound.outcome_recorded recorded
        | false => exact absurd ⟨allow, operator, token, recorded⟩ (unrecorded rfl)
    · exact known before

end Changes

/-! ## Runs -/

section Runs

variable {settings : Settings Time Timeout} {server : Server Time Timeout} {actions : List (Action Time Timeout)}

/-- In every run, a caller is told that its request is allowed only after a `_decide` with its
token allowed it, which at most one for each request does; and never if the request was swept
or given up. -/
theorem approvals_safe (run : Run (step settings) (fun _ _ => True) Server.initial actions server) :
    Safe server := by
  have kept : Sound server ∧ Justified server := by
    apply run.keeps (P := fun reached => Sound reached ∧ Justified reached)
    · intro before action after _ facts taken
      refine ⟨facts.1.step taken, ?_⟩
      apply step_keeps False facts.1 taken (fun isPrompt => isPrompt.elim) _ facts.2
      intro first next sound change justified
      exact justified.change sound change
    · refine ⟨sound_initial, ?_⟩
      intro later object decision before split
      have empty := congrArg List.length split
      simp [Server.initial] at empty
  exact kept.2.safe kept.1

/-- In every run in which no caller misses the decision on its request, every caller is told
of the decision. -/
theorem decisions_delivered
    (run : Run (step settings) (fun before action => ¬ before.misses action) Server.initial actions server) :
    Delivered server := by
  have kept : Sound server ∧ Prompt server := by
    apply run.keeps (P := fun reached => Sound reached ∧ Prompt reached)
    · intro before action after heard facts taken
      refine ⟨facts.1.step taken, ?_⟩
      apply step_keeps True facts.1 taken (fun _ => heard) _ facts.2
      intro first next sound change prompt
      exact prompt.change sound change
    · refine ⟨sound_initial, ?_, ?_⟩
      · intro call member
        cases member
      · intro object decision answered
        cases answered
  intro object decision allow operator token answered decided
  exact (kept.2.answered object decision answered).2 allow operator token decided

end Runs

def Settings.sample : Settings Nat Nat := ⟨lit "page", fun _ _ => false, fun _ => lit "300"⟩

/-- A request that is registered, awaited and allowed, and its caller told. -/
def approved : List (Action Nat Nat) :=
  [.register 0 (lit "once") 0, .await (pendingId 0) 300, .decide (pendingId 0) true (lit "web") (lit "once"),
    .wake 0, .remove 0, .answer 0]

theorem approvals_safe_sample : ∃ server : Server Nat Nat, Safe server ∧
    server.log = [.answered (some 0) (operatorDecision true (lit "web")),
      .decided 0 true (lit "web") (lit "once")] := by
  have shown : (play (step Settings.sample) Server.initial approved).map (fun server => server.log) =
      some [.answered (some 0) (operatorDecision true (lit "web")), .decided 0 true (lit "web") (lit "once")] := by
    decide
  obtain ⟨server, played, logged⟩ := Option.map_eq_some_iff.mp shown
  exact ⟨server, approvals_safe (.of_play played (by simp)), logged⟩

/-- A request that is awaited is in the table, and taken out by a caller that was woken. -/
def Server.hears (server : Server Time Timeout) : Action Time Timeout → Bool
  | .await id _ => (server.find id).isSome
  | .remove number => server.calls[number]?.all (fun call => Decidable.decide (call.phase ≠ .removing false))
  | _ => true

theorem not_misses_of_hears {server : Server Time Timeout} {action : Action Time Timeout}
    (hears : server.hears action = true) : ¬ server.misses action := by
  rintro (⟨id, timeout, object, rfl, absent, -⟩ | ⟨number, call, rfl, atCall, phase, -⟩)
  · simp [Server.hears, absent] at hears
  · simp [Server.hears, atCall, phase] at hears

theorem decisions_delivered_sample : ∃ server : Server Nat Nat, Delivered server ∧
    server.log = [.answered (some 0) (operatorDecision true (lit "web")),
      .decided 0 true (lit "web") (lit "once")] := by
  have shown : (play (fun server action => if server.hears action then step Settings.sample server action else none)
      Server.initial approved).map (fun server => server.log) =
      some [.answered (some 0) (operatorDecision true (lit "web")), .decided 0 true (lit "web") (lit "once")] := by
    decide
  obtain ⟨server, played, logged⟩ := Option.map_eq_some_iff.mp shown
  have run : Run (step Settings.sample) (fun before action => ¬ before.misses action) Server.initial approved server :=
    .of_check (P := fun _ => True) (fun _ _ _ hears => not_misses_of_hears hears) (fun _ _ _ _ _ _ => trivial)
      trivial played
  exact ⟨server, decisions_delivered run, logged⟩

/-! ## A decision that is missed -/

/-- A caller that misses a decision is told otherwise. -/
theorem missed_undelivered {settings : Settings Time Timeout} {server after : Server Time Timeout}
    {action : Action Time Timeout} (misses : server.misses action) (taken : step settings server action = some after) :
    ∃ more later, Run (step settings) (fun _ _ => True) after more later ∧ ¬ Delivered later := by
  obtain ⟨id, timeout, object, rfl, absent, registered, allow, operator, token, decided⟩ |
    ⟨number, call, rfl, atCall, phase, allow, operator, token, decided⟩ := misses
  · cases taken
    refine ⟨[], _, .nil _, fun delivered => ?_⟩
    simp only [Server.lookup, absent] at delivered
    have told := delivered object expired allow operator token (registered ▸ List.mem_cons_self)
      (List.mem_cons_of_mem _ decided)
    exact operatorDecision_ne_expired allow operator told.symm
  · simp only [step, atCall, Option.bind_some, phase, Option.some.injEq] at taken
    subst taken
    have waits : (server.takeOut number call false).calls[number]? = some { call with phase := .answering false } := by
      unfold Server.takeOut
      simp only []
      split_ifs
      · simp [Server.setPhase, Server.pop, atCall]
      · simp [Server.setPhase, Server.pop, Server.record, atCall]
    have kept : .decided call.object allow operator token ∈ (server.takeOut number call false).log := by
      obtain same | logged := @log_takeOut _ _ server number call false
      · rwa [same]
      · rw [logged]
        exact List.mem_cons_of_mem _ decided
    have answers : step settings (server.takeOut number call false) (.answer number) =
        some (((server.takeOut number call false).setPhase number .done).record
          (.answered (some call.object) (noDecision settings call.timeout))) := by
      simp only [step, waits, Option.bind_some]
      rfl
    refine ⟨[.answer number], _, .cons trivial answers (.nil _), fun delivered => ?_⟩
    have told := delivered call.object _ allow operator token List.mem_cons_self (List.mem_cons_of_mem _ kept)
    cases congrArg ApprovalDecision.approvedBy told

/-- The operator allows the request after the time of its caller is over and before its entry
is taken out. -/
def missed : List (Action Nat Nat) :=
  [.register 0 (lit "once") 0, .await (pendingId 0) 300, .expire 0,
    .decide (pendingId 0) true (lit "web") (lit "once"), .remove 0, .answer 0]

theorem decision_undelivered : ¬ ∀ server : Server Nat Nat, ∀ actions,
    Run (step Settings.sample) (fun _ _ => True) Server.initial actions server → Delivered server := by
  intro all
  have shown : (play (step Settings.sample) Server.initial missed).map (fun server => server.log) =
      some [.answered (some 0) (noDecision Settings.sample 300), .decided 0 true (lit "web") (lit "once")] := by
    decide
  obtain ⟨server, played, logged⟩ := Option.map_eq_some_iff.mp shown
  have delivered := all server missed (.of_play played (by simp))
  have told := delivered 0 (noDecision Settings.sample 300) true (lit "web") (lit "once") (by simp [logged])
    (by simp [logged])
  cases congrArg ApprovalDecision.approvedBy told

end Tesera.Approval
