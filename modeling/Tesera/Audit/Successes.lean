import Tesera.Audit.Rules

/-!
How the audit reports a decision with a recorded success. One outcome that succeeded keeps
the decision completed or open. Among several outcomes the success is not looked at, and a
dry run or a resolution speaks for the decision instead.
-/

namespace Tesera.Audit.Successes
open Tesera.Text.Unicode Tesera.Python.Value
open Tesera.Journal.Idempotency Tesera.Verification Tesera.Verification.Event Tesera.Verification.Journal
open Tesera.Audit.Report Tesera.Audit.Linking Tesera.Audit.Passes Tesera.Audit.Rules

/-- The statuses under which a completed action is not retried. -/
def Open (status : InvocationStatus) : Prop :=
  status = .succeeded ∨ status = .resolvedCompleted ∨ status = .needsReconciliation

/-- An outcome of the decision is recorded as a success. -/
def Succeeded (host : Host) (events : List Dict) (id : Str) : Prop :=
  ∃ outcome ∈ events, isEvent "outcome" outcome = true ∧ refText host outcome = id ∧
    get outcome "status" = .str (lit "succeeded")

/-- Several outcomes refer to an allowed decision that is marked as a dry run, or whose
latest resolution is that it was not completed. -/
def Overruled (host : Host) (events : List Dict) (id : Str) : Prop :=
  ∃ decision ∈ firstDecision host events id, get decision.1 "decision" = .str (lit "allowed") ∧
    2 ≤ (referring host "outcome" events id).length ∧
    (get decision.1 "dry_run" = .bool true ∨
      resolutionValue host (referring host "resolution" events id) = some (lit "confirmed_not_completed"))

theorem isDryRun_iff {decision : Dict} : isDryRun decision = true ↔ get decision "dry_run" = .bool true := by
  unfold isDryRun
  split
  next marked => simp [marked]
  next other =>
    refine iff_of_false (by decide) ?_
    exact other

/-- The status of a decision one of whose outcomes succeeded. -/
theorem open_statusOf {decision : Dict} {linked : List Entry} {resolution : Option Str} {entry : Entry}
    (member : entry ∈ linked) (succeeded : get entry.1 "status" = .str (lit "succeeded")) :
    Open (statusOf decision linked resolution) ↔
      ¬ (get decision "decision" = .str (lit "allowed") ∧ 2 ≤ linked.length ∧
        (get decision "dry_run" = .bool true ∨ resolution = some (lit "confirmed_not_completed"))) := by
  have nonempty : linked.isEmpty = false := by
    rw [List.isEmpty_eq_false_iff]
    exact List.ne_nil_of_mem member
  unfold statusOf
  rw [nonempty, ← isDryRun_iff, ← reads_iff]
  by_cases allowed : reads decision "decision" "allowed" = true
  · have distinct : lit "confirmed_completed" ≠ lit "confirmed_not_completed" := by simp
    rcases linked with _ | ⟨first, _ | ⟨second, rest⟩⟩
    · cases member
    · -- the only outcome is the success
      rw [List.mem_singleton] at member
      subst member
      have only : onlySucceeded [entry] = true := onlySucceeded_iff.mpr ⟨entry.1, entry.2, rfl, succeeded⟩
      have one : onlyOutcome [entry] = some entry.1 := rfl
      rw [only, one, allowed]
      cases resolution <;> simp [Open]
    · have none : onlyOutcome (first :: second :: rest) = none := rfl
      have notOne : onlySucceeded (first :: second :: rest) = false := rfl
      rw [notOne, none, allowed]
      by_cases dry : isDryRun decision = true
      · simp [Open, dry]
      · rw [Bool.not_eq_true] at dry
        by_cases completed : resolution = some (lit "confirmed_completed")
        · simp [Open, dry, completed]
        · by_cases denied : resolution = some (lit "confirmed_not_completed")
          · simp [Open, dry, denied]
          · simp [Open, dry, completed, denied]
  · rw [Bool.not_eq_true] at allowed
    rw [allowed]
    simp [Open]

/-- A decision with a recorded success is reported as completed or open unless it is
overruled. -/
theorem success_reported_iff {host : Host} {source : Source} {keys : List PublicKey} {snapshot : Result × List Dict}
    (loaded : loadJournalSnapshot host source keys id = .ok snapshot) (valid : snapshot.1.valid = true) :
    ∃ report, auditVerifiedSnapshot host snapshot = .ok report ∧
      ∀ invocation ∈ report.invocations, Succeeded host snapshot.2 invocation.decisionEventId →
        (Open invocation.status ↔ ¬ Overruled host snapshot.2 invocation.decisionEventId) := by
  obtain ⟨report, audited, reports⟩ := auditVerifiedSnapshot_reports loaded valid
  refine ⟨report, audited, ?_⟩
  rintro invocation member ⟨outcome, inEvents, isOutcome, ref, succeeded⟩
  obtain ⟨i, here⟩ := List.mem_iff_getElem?.mp inEvents
  have linked : (outcome, i) ∈ referring host "outcome" snapshot.2 invocation.decisionEventId :=
    mem_referring.mpr ⟨here, isOutcome, ref⟩
  have stated := reports.member invocation member
  rw [reports.status, Option.map_eq_some_iff] at stated
  obtain ⟨decision, first, status⟩ := stated
  rw [← status, statusIn, open_statusOf linked succeeded]
  apply not_congr
  constructor
  · exact fun overruled => ⟨decision, first, overruled⟩
  · rintro ⟨_, found, overruled⟩
    rw [first] at found
    cases found
    exact overruled

/-! ## The retried payment -/

theorem success_reported_sample : ∃ result report, auditVerifiedSnapshot ledgerHost (result, ledger 5) = .ok report ∧
    ∀ invocation ∈ report.invocations, Succeeded ledgerHost (ledger 5) invocation.decisionEventId →
      (Open invocation.status ↔ ¬ Overruled ledgerHost (ledger 5) invocation.decisionEventId) := by
  obtain ⟨content, result, loaded, valid⟩ := loaded_ledger (Nat.le_refl 5)
  exact ⟨result, success_reported_iff loaded valid⟩

/-- After a failed and a succeeded outcome, the latest resolution reports the payment as
not completed. -/
theorem success_overruled : ∃ source snapshot report invocation,
    loadJournalSnapshot ledgerHost source [ledgerKey] id = .ok snapshot ∧ snapshot.1.valid = true ∧
    auditVerifiedSnapshot ledgerHost snapshot = .ok report ∧ invocation ∈ report.invocations ∧
    Succeeded ledgerHost snapshot.2 invocation.decisionEventId ∧
    invocation.status = .resolvedNotCompleted := by
  obtain ⟨content, result, loaded, valid⟩ := loaded_ledger (Nat.le_refl 5)
  have statuses : auditedLedger 5 = .ok (2, [(lit "e0", .resolvedNotCompleted)]) := by decide +kernel
  obtain ⟨report, audited, -, only⟩ := report_of_audited valid statuses
  rw [List.map_eq_singleton_iff] at only
  obtain ⟨invocation, alone, pair⟩ := only
  obtain ⟨isPayment, stated⟩ := Prod.mk.inj pair
  have recorded : ledgerEvent 3 ∈ ledger 5 := List.mem_map_of_mem (List.mem_range.mpr (by decide))
  have success : isEvent "outcome" (ledgerEvent 3) = true ∧ refText ledgerHost (ledgerEvent 3) = lit "e0" ∧
      asStr (get (ledgerEvent 3) "status") = some (lit "succeeded") := by
    decide +kernel
  refine ⟨_, _, report, invocation, loaded, valid, audited, ?_, ?_, stated⟩
  · rw [alone]
    exact List.mem_singleton_self _
  · exact ⟨ledgerEvent 3, recorded, success.1, success.2.1.trans isPayment.symm, asStr_eq_some.mp success.2.2⟩

end Tesera.Audit.Successes
