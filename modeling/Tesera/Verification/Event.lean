import Tesera.Canonical

/-!
The checks `verification.py` makes on one parsed event: its schema and type, the
fields its type requires and their shapes, the link to the event before it, its hash and
its signature. A check reports issues; only a value that cannot be hashed, or that has
no canonical bytes, makes it raise.
-/

namespace Tesera.Verification.Event
open Tesera.Text Tesera.Text.Unicode Tesera.Python.Value Tesera.Canonical

structure Issue where
  lineNumber : Nat
  code : String
  message : String
  deriving DecidableEq

/-- An Ed25519 public key: its raw bytes and what its `verify` accepts. -/
structure PublicKey where
  raw : Bytes
  accepts : Bytes → Bytes → Bool

/-- `key_id_for`. -/
def keyIdFor (host : Host) (key : PublicKey) : Str :=
  lit "ed25519:" ++ (hex (host.sha256 key.raw)).take 16

/-- `verify_signature`; a signature that is not base64 does not verify. -/
def verifySignature (host : Host) (key : PublicKey) (digest : Bytes) (signature : Str) : Bool :=
  match host.b64decode signature with
  | some bytes => key.accepts bytes digest
  | none => false

abbrev Keyring := Members.Entries Str PublicKey

/-- `_to_keyring`. -/
def toKeyring (host : Host) (keys : List PublicKey) : Keyring :=
  Members.ofPairs (keys.map (fun key => (keyIdFor host key, key)))

/-! ## Event types and their fields -/

inductive EventType where
  | decision
  | outcome
  | checkpoint
  | resolution
  | countersignature
  | archive
  | rotation
  deriving DecidableEq

def EventType.name : EventType → String
  | .decision => "decision"
  | .outcome => "outcome"
  | .checkpoint => "checkpoint"
  | .resolution => "resolution"
  | .countersignature => "countersignature"
  | .archive => "archive"
  | .rotation => "rotation"

def eventTypes : List EventType :=
  [.decision, .outcome, .checkpoint, .resolution, .countersignature, .archive, .rotation]

def knownSchemaVersions : List String := ["1"]
def knownEventTypes : List String := eventTypes.map EventType.name
def knownResolutions : List String := ["confirmed_completed", "confirmed_not_completed"]

/-- The type an event declares. -/
def typeOf (event : Dict) : Option EventType :=
  eventTypes.find? (fun type => get event "event_type" |> asStr |> (· == some (lit type.name)))

def sharedRequiredFields : List String :=
  ["schema_version", "event_type", "event_id", "action_id", "action_name", "contract_hash",
    "timestamp_utc", "key_id", "event_hash", "signature"]

/-- The fields of the events that stand outside any action. -/
def chainRequiredFields : List String :=
  ["schema_version", "event_type", "event_id", "timestamp_utc", "key_id", "previous_event_hash",
    "event_hash", "signature"]

def EventType.required : EventType → List String
  | .decision => sharedRequiredFields ++
      ["decision", "risk", "approval_mode", "redacted_input_summary", "input_hash"]
  | .outcome => sharedRequiredFields ++ ["status", "decision_event_id"]
  | .checkpoint => chainRequiredFields ++ ["checkpoint_count", "head_sha256"]
  | .resolution => sharedRequiredFields ++ ["decision_event_id", "resolution", "note"]
  | .countersignature =>
      chainRequiredFields ++ ["checkpoint_event_id", "checkpoint_count", "head_sha256"]
  | .archive => chainRequiredFields ++ ["prior_count", "prior_head", "archived_path"]
  | .rotation =>
      chainRequiredFields ++ ["prior_key_id", "successor_key_id", "successor_fingerprint"]

/-- The required fields an event lacks; a missing link is listed even where the type
does not name it. -/
def missingFields (type : EventType) (event : Dict) : List String :=
  type.required.filter (fun field => !has event field) ++
    (if has event "previous_event_hash" then [] else ["previous_event_hash"])

/-- `', '.join(sorted(missing))`. -/
def joinSorted (fields : List String) : String :=
  ", ".intercalate (fields.mergeSort (fun a b => decide (a ≤ b)))

/-! ## Shapes -/

def issueIf (bad : Bool) (line : Nat) (code message : String) : List Issue :=
  if bad then [⟨line, code, message⟩] else []

@[simp] theorem issueIf_eq_nil {bad : Bool} {line : Nat} {code message : String} :
    issueIf bad line code message = [] ↔ bad = false := by
  cases bad <;> simp [issueIf]

/-- `not isinstance(count, int) or count < least`. -/
def badCount (least : Int) (count : Json) : Bool :=
  match asInt count with
  | some n => decide (n < least)
  | none => true

def notStr (v : Json) : Bool := (asStr v).isNone

/-- The checkpoints seen so far in a file, by event id. -/
abbrev Checkpoints := Members.Entries Str Dict

def checkpointShape (host : Host) (line : Nat) (event : Dict) : List Issue :=
  issueIf (!pyEq host (get event "head_sha256") (get event "previous_event_hash")) line
    "checkpoint_head_mismatch" "head_sha256 does not match previous_event_hash" ++
  issueIf (badCount 0 (get event "checkpoint_count")) line
    "checkpoint_bad_count" "checkpoint_count is not a non-negative integer"

def resolutionShape (host : Host) (line : Nat) (event : Dict) : Except PyError (List Issue) := do
  let known ← inSet knownResolutions (get event "resolution")
  let shown := host.repr (get event "resolution")
  return issueIf (!known) line "resolution_bad_value"
      s!"resolution {shown} is not one of ['confirmed_completed', 'confirmed_not_completed']" ++
    issueIf (notStr (get event "decision_event_id")) line
      "resolution_bad_reference" "decision_event_id is not a string" ++
    issueIf (notStr (get event "note")) line "resolution_bad_note" "note is not a string"

/-- The checkpoint a countersignature names, when it stands earlier in the file. -/
def referencedCheckpoint (checkpoints : Checkpoints) (event : Dict) : Option Dict :=
  (asStr (get event "checkpoint_event_id")).bind (Members.get checkpoints)

def countersignatureShape (host : Host) (line : Nat) (checkpoints : Checkpoints) (event : Dict) :
    List Issue :=
  (match referencedCheckpoint checkpoints event with
    | none =>
        let shown := host.repr (get event "checkpoint_event_id")
        [⟨line, "countersignature_orphan",
          s!"references unknown checkpoint event {shown}; the checkpoint must appear earlier in the same journal"⟩]
    | some checkpoint =>
        issueIf (!pyEq host (get event "checkpoint_count") (get checkpoint "checkpoint_count")) line
          "countersignature_count_mismatch"
          "checkpoint_count does not match the referenced checkpoint" ++
        issueIf (!pyEq host (get event "head_sha256") (get checkpoint "head_sha256")) line
          "countersignature_head_mismatch" "head_sha256 does not match the referenced checkpoint") ++
  issueIf (badCount 0 (get event "checkpoint_count")) line
    "countersignature_bad_count" "checkpoint_count is not a non-negative integer"

/-- A receipt is optional, but an object. -/
def outcomeShape (line : Nat) (event : Dict) : List Issue :=
  issueIf (has event "receipt" && (asDict (get event "receipt")).isNone) line
    "outcome_bad_receipt" "receipt is not an object"

/-- A file name with a separator in it, or one that names a directory. -/
def notBareName (path : Str) : Bool :=
  path.any (fun c => c == 47 || c == 92) || path == lit "." || path == lit ".."

def archiveShape (line : Nat) (event : Dict) : List Issue :=
  issueIf (get event "previous_event_hash" matches .null |> not) line
    "archive_not_first" "archive event must be the first line of its file" ++
  issueIf (badCount 1 (get event "prior_count")) line
    "archive_bad_count" "prior_count is not a positive integer" ++
  (match get event "archived_path" with
    | .str path =>
        issueIf (notBareName path) line "archive_bad_path" "archived_path must be a bare file name"
    | _ => [⟨line, "archive_bad_path", "archived_path is not a string"⟩])

def isLowerHex (c : Nat) : Bool := (decide (48 ≤ c) && decide (c ≤ 57)) || (decide (97 ≤ c) && decide (c ≤ 102))

/-- The fingerprint of a key: 64 lowercase hexadecimal digits. -/
def isFingerprint (s : Str) : Bool := s.length == 64 && s.all isLowerHex

def rotationShape (host : Host) (line : Nat) (event : Dict) : List Issue :=
  let prior := get event "prior_key_id"
  let successor := asStr (get event "successor_key_id")
  issueIf (!pyEq host prior (get event "key_id")) line
    "rotation_signer_mismatch" "prior_key_id must equal the signing key_id" ++
  issueIf (!successor.any (fun id => (lit "ed25519:").isPrefixOf id)) line
    "rotation_bad_successor" "successor_key_id is not an ed25519 key id" ++
  (match (asStr (get event "successor_fingerprint")).filter isFingerprint with
    | none =>
        [⟨line, "rotation_bad_fingerprint", "successor_fingerprint is not 64-char lowercase hex"⟩]
    | some fingerprint =>
        issueIf (successor.any (fun id => id != lit "ed25519:" ++ fingerprint.take 16)) line
          "rotation_fingerprint_mismatch" "successor_key_id does not match successor_fingerprint") ++
  issueIf ((asStr prior).isSome && asStr prior == successor) line
    "rotation_self_successor" "successor must differ from prior key"

/-- The checks of an event's type. -/
def shapeIssues (host : Host) (line : Nat) (checkpoints : Checkpoints) (type : EventType)
    (event : Dict) : Except PyError (List Issue) :=
  match type with
  | .decision => .ok []
  | .outcome => .ok (outcomeShape line event)
  | .checkpoint => .ok (checkpointShape host line event)
  | .resolution => resolutionShape host line event
  | .countersignature => .ok (countersignatureShape host line checkpoints event)
  | .archive => .ok (archiveShape line event)
  | .rotation => .ok (rotationShape host line event)

/-! ## Link, hash and signature -/

def linkIssues (host : Host) (line : Nat) (expected : Option Str) (event : Dict) : List Issue :=
  let wanted := host.repr (linkOf expected)
  let found := host.repr (get event "previous_event_hash")
  issueIf (!pyEq host (get event "previous_event_hash") (linkOf expected)) line "chain_break"
    s!"previous_event_hash does not match the preceding event (expected {wanted}, found {found}); events may have been modified, reordered, or deleted"

def hashIssues (host : Host) (line : Nat) (digest : Bytes) (event : Dict) : List Issue :=
  issueIf (!pyEq host (get event "event_hash") (.str (hex digest))) line
    "hash_mismatch" "event_hash does not match the canonical payload; event was modified"

/-- The trusted key an event names. -/
def signerOf (trusted : Keyring) (event : Dict) : Option PublicKey :=
  (asStr (get event "key_id")).bind (Members.get trusted)

def signatureIssues (host : Host) (line : Nat) (trusted : Keyring) (digest : Bytes) (event : Dict) :
    List Issue :=
  match signerOf trusted event with
  | none =>
      let shown := host.repr (get event "key_id")
      [⟨line, "unknown_key", s!"event key_id {shown} is not among the trusted verification keys"⟩]
  | some signer =>
      issueIf (!verifySignature host signer digest (pyStr host (get event "signature"))) line
        "bad_signature" "Ed25519 signature verification failed"

/-- The checks of an event of a known type that has its fields. -/
def bodyIssues (host : Host) (line : Nat) (expected : Option Str) (trusted : Keyring)
    (checkpoints : Checkpoints) (type : EventType) (event : Dict) : Except PyError (List Issue) := do
  let shape ← shapeIssues host line checkpoints type event
  let digest ← eventDigest host (unsignedPayload event)
  return shape ++ linkIssues host line expected event ++ hashIssues host line digest event ++
    signatureIssues host line trusted digest event

/-- `_verify_event`. -/
def verifyEvent (host : Host) (event : Dict) (line : Nat) (expected : Option Str) (trusted : Keyring)
    (checkpoints : Checkpoints) : Except PyError (List Issue) := do
  let knownSchema ← inSet knownSchemaVersions (get event "schema_version")
  if knownSchema then
    let _ ← inSet knownEventTypes (get event "event_type")
    match typeOf event with
    | none =>
        let shown := host.repr (get event "event_type")
        return [⟨line, "unknown_event_type", s!"unknown event_type {shown}"⟩]
    | some type =>
        let missing := missingFields type event
        if missing = [] then bodyIssues host line expected trusted checkpoints type event
        else
          let shown := joinSorted missing
          return [⟨line, "missing_fields", s!"missing required fields: {shown}"⟩]
  else
    let shown := host.repr (get event "schema_version")
    return [⟨line, "unknown_schema",
      s!"unsupported schema_version {shown}; this verifier supports ['1']"⟩]

/-! ## Events without issues -/

theorem typeOf_eq_some {event : Dict} {type : EventType} :
    typeOf event = some type ↔ get event "event_type" = .str (lit type.name) := by
  constructor
  · intro found
    have := List.find?_some found
    simpa [asStr_eq_some] using this
  · intro named
    unfold typeOf
    rw [named]
    cases type <;> simp [eventTypes, EventType.name, asStr]

theorem inSet_known_of_typeOf {event : Dict} {type : EventType} (found : typeOf event = some type) :
    inSet knownEventTypes (get event "event_type") = .ok true := by
  rw [typeOf_eq_some.mp found]
  have member : lit type.name ∈ knownEventTypes.map lit := by
    cases type <;> simp [knownEventTypes, eventTypes, EventType.name]
  simp [inSet, member]

theorem inSet_eq_true {names : List String} {v : Json} :
    inSet names v = .ok true ↔ ∃ name ∈ names, v = .str (lit name) := by
  cases v with
  | str s =>
    simp only [inSet, Except.ok.injEq, decide_eq_true_eq, List.mem_map, Json.str.injEq]
    exact exists_congr (fun name => and_congr_right (fun _ => eq_comm))
  | _ => simp [inSet]

/-- Everything that holds of an event the verifier has no issue with. -/
structure Clean (host : Host) (event : Dict) (expected : Option Str) (trusted : Keyring)
    (checkpoints : Checkpoints) (type : EventType) (digest : Bytes) (signer : PublicKey) : Prop where
  schema : get event "schema_version" = .str (lit "1")
  typed : get event "event_type" = .str (lit type.name)
  fields : missingFields type event = []
  shape : shapeIssues host 0 checkpoints type event = .ok []
  link : get event "previous_event_hash" = linkOf expected
  hashed : eventDigest host (unsignedPayload event) = .ok digest
  stored : get event "event_hash" = .str (hex digest)
  signed : signerOf trusted event = some signer
  verified : verifySignature host signer digest (pyStr host (get event "signature")) = true

/-- Whether a shape has issues does not depend on the number of the line. -/
theorem shapeIssues_line {host : Host} {checkpoints : Checkpoints} {type : EventType} {event : Dict}
    {line : Nat} (other : Nat) (clean : shapeIssues host line checkpoints type event = .ok []) :
    shapeIssues host other checkpoints type event = .ok [] := by
  cases type with
  | decision => rfl
  | outcome => simpa [shapeIssues, outcomeShape] using clean
  | checkpoint => simpa [shapeIssues, checkpointShape] using clean
  | resolution =>
    simp only [shapeIssues, resolutionShape, bind_eq_ok] at clean ⊢
    obtain ⟨known, member, clean⟩ := clean
    exact ⟨known, member, by simpa [pure, Except.pure] using clean⟩
  | countersignature =>
    simp only [shapeIssues, countersignatureShape, Except.ok.injEq, List.append_eq_nil_iff] at clean ⊢
    refine ⟨?_, by simpa using clean.2⟩
    cases found : referencedCheckpoint checkpoints event with
    | none => simp [found] at clean
    | some checkpoint => simpa [found] using clean.1
  | archive =>
    simp only [shapeIssues, archiveShape, Except.ok.injEq, List.append_eq_nil_iff] at clean ⊢
    refine ⟨by simpa using clean.1, ?_⟩
    cases path : get event "archived_path" with
    | str s => simpa [path] using clean.2
    | _ => simp [path] at clean
  | rotation =>
    simp only [shapeIssues, rotationShape, Except.ok.injEq, List.append_eq_nil_iff] at clean ⊢
    refine ⟨⟨by simpa using clean.1.1, ?_⟩, by simpa using clean.2⟩
    cases print : (asStr (get event "successor_fingerprint")).filter isFingerprint with
    | none => simp [print] at clean
    | some fingerprint => simpa [print] using clean.1.2

theorem pyEq_linkOf {host : Host} {v : Json} {expected : Option Str} :
    pyEq host v (linkOf expected) = true ↔ v = linkOf expected := by
  cases expected with
  | none => exact pyEq_null
  | some hash => exact pyEq_str

theorem signatureIssues_eq_nil {host : Host} {line : Nat} {trusted : Keyring} {digest : Bytes}
    {event : Dict} : signatureIssues host line trusted digest event = [] ↔
      ∃ signer, signerOf trusted event = some signer ∧
        verifySignature host signer digest (pyStr host (get event "signature")) = true := by
  unfold signatureIssues
  cases signerOf trusted event with
  | none => simp
  | some signer => simp

/-- The verifier has no issue with an event exactly when it is clean. -/
theorem verifyEvent_eq_nil {host : Host} {event : Dict} {line : Nat} {expected : Option Str}
    {trusted : Keyring} {checkpoints : Checkpoints} :
    verifyEvent host event line expected trusted checkpoints = .ok [] ↔
      ∃ type digest signer, Clean host event expected trusted checkpoints type digest signer := by
  constructor
  · intro clean
    simp only [verifyEvent, bind_eq_ok] at clean
    obtain ⟨knownSchema, schema, clean⟩ := clean
    cases knownSchema with
    | false => simp [pure, Except.pure] at clean
    | true =>
      simp only [if_true, bind_eq_ok] at clean
      obtain ⟨known, -, clean⟩ := clean
      cases typed : typeOf event with
      | none => simp [typed, pure, Except.pure] at clean
      | some type =>
        simp only [typed] at clean
        split_ifs at clean with fields
        · simp only [bodyIssues, bind_eq_ok, pure, Except.pure, Except.ok.injEq,
            List.append_eq_nil_iff] at clean
          obtain ⟨shape, shaped, digest, hashed, ⟨⟨⟨rfl, link⟩, stored⟩, signed⟩⟩ := clean
          obtain ⟨signer, signed, verified⟩ := signatureIssues_eq_nil.mp signed
          obtain ⟨name, member, version⟩ := inSet_eq_true.mp schema
          refine ⟨type, digest, signer, ?_, typeOf_eq_some.mp typed, fields, shapeIssues_line 0 shaped,
            ?_, hashed, ?_, signed, verified⟩
          · rw [version, List.mem_singleton.mp member]
          · simpa [linkIssues, pyEq_linkOf] using link
          · simpa [hashIssues, pyEq_str] using stored
        · simp [pure, Except.pure] at clean
  · rintro ⟨type, digest, signer, clean⟩
    have typed := typeOf_eq_some.mpr clean.typed
    have known := inSet_known_of_typeOf typed
    have schema : inSet knownSchemaVersions (get event "schema_version") = .ok true :=
      inSet_eq_true.mpr ⟨"1", List.mem_singleton_self _, clean.schema⟩
    have link : linkIssues host line expected event = [] := by
      simp [linkIssues, pyEq_linkOf, clean.link]
    have stored : hashIssues host line digest event = [] := by
      simp [hashIssues, pyEq_str, clean.stored]
    have signed : signatureIssues host line trusted digest event = [] :=
      signatureIssues_eq_nil.mpr ⟨signer, clean.signed, clean.verified⟩
    simp [verifyEvent, schema, known, typed, clean.fields, bodyIssues,
      shapeIssues_line line clean.shape, clean.hashed, link, stored, signed, bind, Except.bind, pure,
      Except.pure]

end Tesera.Verification.Event
