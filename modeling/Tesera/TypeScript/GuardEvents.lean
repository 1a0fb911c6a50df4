import Tesera.TypeScript.Guard

/-!
What the events of a guarded call say: the decision of a duplicate is denied and has an id of its own, that
of the call has the verdict and the id it was given, and an outcome names the decision.
-/

namespace Tesera.TypeScript.GuardEvents
open Tesera.Text Tesera.Text.Unicode
open Tesera.Approval (ApprovalDecision Verdict)
open Tesera.Journal.Payloads (Stamp)
open Tesera.TypeScript.Value Tesera.TypeScript.FileJournal Tesera.TypeScript.Verify Tesera.TypeScript.Verdict
open Tesera.TypeScript.Idempotency Tesera.TypeScript.Guard

/-! ## Fields -/

theorem last_append (first second : List (Str × Json)) (key : Str) :
    Members.last (first ++ second) key = (Members.last second key).or (Members.last first key) := by
  induction first with
  | nil => rw [List.nil_append, Members.last, Option.or_none]
  | cons p first ih => rw [List.cons_append, Members.last, ih, Members.last, Option.or_assoc]

theorem last_optionalField (field : String) (value : Option Json) (key : Str) :
    Members.last (optionalField field value) key = if lit field = key then value else none := by
  cases value with
  | none =>
    rw [ite_self]
    rfl
  | some v => simp [optionalField, Members.last]

/-- The fields of a payload are those of the event. -/
theorem item_finalized {payload : Record} {digest : Bytes} {signature : Str} {field : String} (notHash : field ≠ "event_hash")
    (notSignature : field ≠ "signature") : item (finalized payload digest signature) field = item payload field := by
  rw [item, item, finalized, Members.get_put_of_ne (by rwa [ne_eq, lit_inj]), Members.get_put_of_ne (by rwa [ne_eq, lit_inj])]

section Events

variable {sha256 : Bytes → Bytes} {identity : SigningIdentity} {payload event : Record} {call : Call} {stamp : Stamp}
  {previousHash duplicateOf : Option Str} {decision : ApprovalDecision} {decisionId : Str} {ending : Ending}

theorem item_of_finalizeEvent (made : finalizeEvent sha256 identity payload = some event) {field : String}
    (notHash : field ≠ "event_hash") (notSignature : field ≠ "signature") : item event field = item payload field := by
  obtain ⟨digest, _, signs⟩ := Option.bind_eq_some_iff.mp made
  obtain ⟨signature, _, rfl⟩ := Option.map_eq_some_iff.mp signs
  exact item_finalized notHash notSignature

/-- A denied decision with an id. -/
structure Denies (id : Str) (event : Record) : Prop where
  isDecision : isEvent "decision" event = true
  named : idOf event = some id
  denied : item event "decision" = some (.str (lit "denied"))

theorem denies_duplicate (made : finalizeEvent sha256 identity (duplicateDecision call duplicateOf stamp previousHash) = some event) :
    Denies stamp.eventId event := by
  have same := @item_of_finalizeEvent _ _ _ _ made
  constructor
  · rw [isEvent, same (by decide) (by decide), isText_iff]
    simp [duplicateDecision, callFields, item, Members.get_ofPairs, last_append, Members.last, last_optionalField, lit_inj]
  · rw [idOf, same (by decide) (by decide), text_eq_some]
    simp [duplicateDecision, callFields, item, Members.get_ofPairs, last_append, Members.last, last_optionalField, lit_inj]
  · rw [same (by decide) (by decide)]
    simp [duplicateDecision, callFields, item, Members.get_ofPairs, last_append, Members.last, last_optionalField, lit_inj]

/-- The decision of a call, with the verdict of the approval. -/
structure Decides (call : Call) (decision : ApprovalDecision) (id : Str) (event : Record) : Prop where
  isDecision : isEvent "decision" event = true
  named : idOf event = some id
  verdict : item event "decision" = some (.str (verdictText decision.decision))
  action : item event "action_name" = some (.str call.action)
  contract : item event "contract_hash" = some (.str call.contract)
  input : item event "input_hash" = some (.str call.inputHash)
  key : item event "idempotency_key" = call.key.map .str
  dry : item event "dry_run" = if call.dryRun then some (.bool true) else none

theorem decides_allowed (made : finalizeEvent sha256 identity (allowedFields call decision stamp previousHash) = some event) :
    Decides call decision stamp.eventId event := by
  have same := @item_of_finalizeEvent _ _ _ _ made
  constructor
  · rw [isEvent, same (by decide) (by decide), isText_iff]
    simp [allowedFields, callFields, item, Members.get_ofPairs, last_append, Members.last, last_optionalField, lit_inj]
  · rw [idOf, same (by decide) (by decide), text_eq_some]
    simp [allowedFields, callFields, item, Members.get_ofPairs, last_append, Members.last, last_optionalField, lit_inj]
  all_goals
    rw [same (by decide) (by decide)]
    simp [allowedFields, callFields, item, Members.get_ofPairs, last_append, Members.last, last_optionalField, lit_inj]

/-- The outcome of a decision. -/
structure Settles (decisionId : Str) (ending : Ending) (event : Record) : Prop where
  outcome : isEvent "outcome" event = true
  refers : refOf event = some decisionId
  status : item event "status" = some (.str ending.status)

theorem settles_outcome (made : finalizeEvent sha256 identity (outcomeFields call decisionId ending stamp previousHash) = some event) :
    Settles decisionId ending event := by
  have same := @item_of_finalizeEvent _ _ _ _ made
  have others : ∀ field : String, field ∉ ["observed_result_type", "redacted_output_hash", "receipt", "exception_type",
      "sanitized_error_summary"] → Members.last (ending.fields call) (lit field) = none := by
    intro field absent
    simp only [List.mem_cons, List.not_mem_nil, or_false, not_or] at absent
    cases ending <;> simp [Ending.fields, last_append, Members.last, last_optionalField, lit_inj, Ne.symm absent.1,
      Ne.symm absent.2.1, Ne.symm absent.2.2.1, Ne.symm absent.2.2.2.1, Ne.symm absent.2.2.2.2]
  have whole : ∀ field : String, field ∉ ["observed_result_type", "redacted_output_hash", "receipt", "exception_type",
      "sanitized_error_summary"] → item (outcomeFields call decisionId ending stamp previousHash) field =
        Members.last (callFields call stamp "outcome" previousHash ++
          [(lit "status", Json.str ending.status), (lit "decision_event_id", .str decisionId)]) (lit field) := by
    intro field absent
    rw [item, outcomeFields, Members.get_ofPairs, last_append, others field absent, Option.none_or]
  constructor
  · rw [isEvent, same (by decide) (by decide), isText_iff, whole _ (by decide)]
    simp [callFields, Members.last, lit_inj]
  · rw [refOf, same (by decide) (by decide), text_eq_some, whole _ (by decide)]
    simp [callFields, Members.last, lit_inj]
  · rw [same (by decide) (by decide), whole _ (by decide)]
    simp [callFields, Members.last, lit_inj]

/-! ## Reservations -/

/-- An allowed decision for the action and the key that is no dry run. -/
def Reserves (actionName key : Str) (event : Record) : Prop :=
  isEvent "decision" event = true ∧ matchesKey actionName key event = true

theorem not_reserves_of_denies {actionName key id : Str} (denies : Denies id event) : ¬ Reserves actionName key event := by
  intro reserves
  have matching := reserves.2
  simp only [matchesKey, Bool.and_eq_true] at matching
  have allowed := isText_iff.mp matching.1.1.1
  rw [denies.denied, Option.some.injEq, Json.str.injEq, lit_inj] at allowed
  exact absurd allowed (by decide)

/-- The decision of a call reserves its own key only, where it is allowed and the call is no dry run. -/
theorem Decides.reserves {actionName key id : Str} (decides : Decides call decision id event)
    (reserves : Reserves actionName key event) :
    call.action = actionName ∧ call.key = some key := by
  have matching := reserves.2
  simp only [matchesKey, Bool.and_eq_true] at matching
  have action := strictEqual_str.mp matching.1.1.2
  have keyed := strictEqual_str.mp matching.1.2
  rw [decides.action, Option.some.injEq, Json.str.injEq] at action
  rw [decides.key, Option.map_eq_some_iff] at keyed
  obtain ⟨own, found, same⟩ := keyed
  rw [Json.str.injEq] at same
  exact ⟨action, same ▸ found⟩

end Events

end Tesera.TypeScript.GuardEvents
