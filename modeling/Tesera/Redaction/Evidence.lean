import Tesera.Canonical
import Tesera.Redaction.Scrubbing

/-!
What a decision event says of the arguments: the digest of their canonical form, its summary and
what is retained of each parameter. Nothing of a value under a sensitive name reaches these.
-/

namespace Tesera.Redaction.Evidence
open Tesera.Text Tesera.Text.Unicode Tesera.Text.Json Tesera.Python.Value Tesera.Python.JsonCodec Tesera.Canonical
open Tesera.Redaction.Traversal Tesera.Redaction.Scrubbing

mutual

/-- A JSON text with the separators that `json.dumps` has by default. -/
def renderSpaced : Tree → Str
  | .arr [] => lit "[]"
  | .arr (x :: xs) => lit "[" ++ (renderSpaced x ++ renderSpacedItems xs)
  | .obj [] => lit "\x7b\x7d"
  | .obj ((k, v) :: ms) => lit "\x7b" ++ (quote k ++ (lit ": " ++ (renderSpaced v ++ renderSpacedMembers ms)))
  | tree => render tree

def renderSpacedItems : List Tree → Str
  | [] => lit "]"
  | x :: xs => lit ", " ++ (renderSpaced x ++ renderSpacedItems xs)

def renderSpacedMembers : List (List Piece × Tree) → Str
  | [] => lit "\x7d"
  | (k, v) :: ms => lit ", " ++ (quote k ++ (lit ": " ++ (renderSpaced v ++ renderSpacedMembers ms)))

end

/-- `json.dumps(value, ensure_ascii=False, sort_keys=True)`. -/
def dumpsSpaced (host : Host) (value : Json) : Except PyError Str :=
  match checkDumps host true host.recursionLimit value with
  | .ok _ => .ok (renderSpaced (toTree value))
  | .error e => .error e

def maxSummaryValueChars : Nat := 120

def maxSummaryTotalChars : Nat := 2000

/-- The summary of one argument. -/
def summaryPart (host : Host) (member : Str × Json) : Except PyError Str := do
  let text ← dumpsSpaced host member.2
  return member.1 ++ lit "=" ++ truncate text maxSummaryValueChars

/-- `bounded_summary`. A dict has its members in the order of their names. -/
def boundedSummary (host : Host) : Json → Except PyError Str
  | .dict members => do
      let parts ← members.mapM (summaryPart host)
      return truncate ((lit ", ").intercalate parts) maxSummaryTotalChars
  | value => do
      let text ← dumpsSpaced host value
      return truncate text maxSummaryTotalChars

inductive Retention where
  | redacted
  | unsupported
  | retained
  deriving DecidableEq

/-- What is recorded of one argument. -/
def retentionOf : Json → Retention
  | .str text => if text = redacted then .redacted else if unsupportedMarker <+: text then .unsupported else .retained
  | _ => .retained

/-- `_parameter_retention`. -/
def parameterRetention : Json → List (Str × Retention)
  | .dict members => members.map (fun member => (member.1, retentionOf member.2))
  | _ => []

/-- The fields of a decision event that come from the arguments. -/
structure InputEvidence where
  inputHash : Str
  redactedInputSummary : Str
  parameterRetention : List (Str × Retention)

def evidenceOf (host : Host) (canonical : Json) : Except PyError InputEvidence := do
  let bytes ← canonicalJsonBytes host canonical
  let summary ← boundedSummary host canonical
  return ⟨hex (host.sha256 bytes), summary, parameterRetention canonical⟩

/-- The third step of `_prepare_execution`: the walk, or one of its uses, may raise. -/
def inputEvidence (settings : Settings) (host : Host) (arguments : Value) : Except (WalkError ⊕ PyError) InputEvidence :=
  match canonicalize settings arguments with
  | .error e => .error (.inl e)
  | .ok (canonical, _) => (evidenceOf host canonical).mapError .inr

/-! ## Noninterference -/

mutual

/-- A value with `None` for what stands under sensitive names. A dict with a key that is not a
string is not looked into. -/
def blank (settings : Settings) : Value → Value
  | .dict type items => .dict type (blankFields settings items)
  | .mixed type _ => .mixed type []
  | .named type fields => .named type (blankFields settings fields)
  | .seq type items => .seq type (blankItems settings items)
  | value => value

def blankFields (settings : Settings) : List (Str × Value) → List (Str × Value)
  | [] => []
  | (name, value) :: rest => (name, if settings.hides name then .none else blank settings value) :: blankFields settings rest

def blankItems (settings : Settings) : List Value → List Value
  | [] => []
  | value :: rest => blank settings value :: blankItems settings rest

end

/-- `str()` raises for no value that is removed. -/
def Quiet (settings : Settings) (values : List Value) : Prop := ∀ value ∈ values, raises settings value = false

variable {settings : Settings}

theorem Quiet.left {values others : List Value} (quiet : Quiet settings (values ++ others)) : Quiet settings values :=
  fun value member => quiet value (List.mem_append_left others member)

theorem Quiet.right {values others : List Value} (quiet : Quiet settings (values ++ others)) : Quiet settings others :=
  fun value member => quiet value (List.mem_append_right values member)

/-- The canonical part of a walk, or its error. -/
def outcome {α : Type} (walked : Except WalkError (α × List Str)) : Except WalkError α := walked.map Prod.fst

/-- The outcome of two walks in turn comes from their outcomes. -/
theorem outcome_bind {α β γ : Type} (join : α → β → γ) {first firstOther : Except WalkError (α × List Str)}
    {later laterOther : Except WalkError (β × List Str)} (sameFirst : outcome first = outcome firstOther)
    (sameLater : outcome later = outcome laterOther) :
    outcome (do
      let a ← first
      let b ← later
      return (join a.1 b.1, a.2 ++ b.2)) = outcome (do
      let a ← firstOther
      let b ← laterOther
      return (join a.1 b.1, a.2 ++ b.2)) := by
  have reads : ∀ (first : Except WalkError (α × List Str)) (later : Except WalkError (β × List Str)), outcome (do
      let a ← first
      let b ← later
      return (join a.1 b.1, a.2 ++ b.2)) = (do
      let a ← outcome first
      let b ← outcome later
      return join a b) := by
    intro first later
    cases first with
    | error e => rfl
    | ok a =>
      cases later with
      | error e => rfl
      | ok b => rfl
  rw [reads, reads, sameFirst, sameLater]

theorem outcome_map {α β : Type} (f : α → β) {walked other : Except WalkError (α × List Str)}
    (same : outcome walked = outcome other) :
    outcome (walked.map (fun r => (f r.1, r.2))) = outcome (other.map (fun r => (f r.1, r.2))) := by
  have reads : ∀ walked : Except WalkError (α × List Str), outcome (walked.map (fun r => (f r.1, r.2))) = (outcome walked).map f := by
    intro walked
    cases walked <;> rfl
  rw [reads, reads, same]

theorem outcome_atDepth {depth : Nat} {walked other : Walked Json} (same : outcome walked = outcome other) :
    outcome (atDepth depth walked) = outcome (atDepth depth other) := by
  rw [atDepth, atDepth]
  split_ifs
  · rfl
  · exact same

theorem outcome_redact {value : Value} (quiet : raises settings value = false) :
    outcome (redact settings value) = .ok (.str redacted) := by
  rw [redact, quiet]
  rfl

mutual

theorem outcome_walk {depth : Nat} : (value : Value) → (quiet : Quiet settings (removed settings value)) →
    outcome (walk settings depth value) = outcome (walk settings depth (blank settings value))
  | .none, _ => rfl
  | .bool b, _ => rfl
  | .int n, _ => rfl
  | .float f, _ => rfl
  | .str text, _ => rfl
  | .dict type items, quiet => by
      rw [blank, walk, walk]
      apply outcome_atDepth
      exact outcome_map (fun members => Json.dict (Members.ofPairs members)) (outcome_walkFields items quiet)
  | .mixed type items, _ => by
      rw [blank, walk, walk]
  | .named type fields, quiet => by
      rw [blank, walk, walk]
      apply outcome_atDepth
      exact outcome_map (fun members => Json.dict (Members.ofPairs members)) (outcome_walkFields fields quiet)
  | .seq type items, quiet => by
      rw [blank, walk, walk]
      apply outcome_atDepth
      exact outcome_map Json.list (outcome_walkItems items quiet)
  | .cycle, _ => rfl
  | .other type held identity, _ => rfl

theorem outcome_walkFields {depth : Nat} : (fields : List (Str × Value)) →
    (quiet : Quiet settings (removedFields settings fields)) →
    outcome (walkFields settings depth fields) = outcome (walkFields settings depth (blankFields settings fields))
  | [], _ => rfl
  | (name, value) :: rest, quiet => by
      rw [removedFields] at quiet
      rw [blankFields, walkFields, walkFields]
      apply outcome_bind (fun canonical members => (name, canonical) :: members) _ (outcome_walkFields rest quiet.right)
      by_cases hidden : settings.hides name = true
      · have own : Quiet settings [value] := by
          have first := quiet.left
          rwa [if_pos hidden] at first
        rw [if_pos hidden, if_pos hidden, if_pos hidden, outcome_redact (own value List.mem_cons_self), outcome_redact rfl]
      · have own : Quiet settings (removed settings value) := by
          have first := quiet.left
          rwa [if_neg hidden] at first
        rw [if_neg hidden, if_neg hidden, if_neg hidden, outcome_walk value own]

theorem outcome_walkItems {depth : Nat} : (items : List Value) → (quiet : Quiet settings (removedItems settings items)) →
    outcome (walkItems settings depth items) = outcome (walkItems settings depth (blankItems settings items))
  | [], _ => rfl
  | value :: rest, quiet => by
      rw [removedItems] at quiet
      rw [blankItems, walkItems, walkItems]
      exact outcome_bind List.cons (outcome_walk value quiet.left) (outcome_walkItems rest quiet.right)

end

theorem inputEvidence_eq (host : Host) (arguments : Value) : inputEvidence settings host arguments =
    match outcome (canonicalize settings arguments) with
    | .error e => .error (.inl e)
    | .ok canonical => (evidenceOf host canonical).mapError .inr := by
  rw [inputEvidence]
  cases canonicalize settings arguments <;> rfl

/-- Arguments that differ only under sensitive names have the same canonical form, or error, and
the same evidence. -/
theorem redaction_noninterference (settings : Settings) (host : Host) (left right : Value)
    (same : blank settings left = blank settings right) (quietLeft : Quiet settings (removed settings left))
    (quietRight : Quiet settings (removed settings right)) :
    (canonicalize settings left).map Prod.fst = (canonicalize settings right).map Prod.fst ∧
      inputEvidence settings host left = inputEvidence settings host right := by
  have outcomes : outcome (canonicalize settings left) = outcome (canonicalize settings right) := by
    calc outcome (walk settings 0 left) = outcome (walk settings 0 (blank settings left)) := outcome_walk left quietLeft
      _ = outcome (walk settings 0 (blank settings right)) := by rw [same]
      _ = outcome (walk settings 0 right) := (outcome_walk right quietRight).symm
  refine ⟨outcomes, ?_⟩
  rw [inputEvidence_eq, inputEvidence_eq, outcomes]

/-- A password in a list, and another that is a string. -/
theorem redaction_noninterference_sample :
    (canonicalize sampleSettings sampleList).map Prod.fst = (canonicalize sampleSettings sampleString).map Prod.fst := by
  have quiet : ∀ value : Value, raises sampleSettings value = false →
      Quiet sampleSettings (removed sampleSettings (.dict (lit "builtins.dict") [(lit "password", value)])) := by
    intro value here other member
    rw [removed_password] at member
    rw [List.mem_singleton.mp member, here]
  apply (redaction_noninterference sampleSettings (Host.plain id (fun _ => none)) sampleList sampleString ?_ (quiet _ rfl) (quiet _ rfl)).1
  have blanked : ∀ value : Value, blank sampleSettings (.dict (lit "builtins.dict") [(lit "password", value)]) =
      .dict (lit "builtins.dict") [(lit "password", .none)] := by
    intro value
    rw [blank, blankFields, if_pos sample_hides, blankFields]
  rw [sampleList, sampleString, blanked, blanked]

end Tesera.Redaction.Evidence
