import Tesera.Node.Canonical
import Tesera.TypeScript.FileJournal
import Tesera.Verification.Event

/-!
`verifyLines` of `Verify.ts`, over what a line is parsed and hashed to. Where a message shows a value of
the line, `String` is asked for its text, and throws on an object that has a member `toString`; nothing
catches it there.
-/

namespace Tesera.TypeScript.Verify
open Tesera.Text Tesera.Text.Unicode Tesera.Text.Decimal
open Tesera.TypeScript.Value Tesera.TypeScript.Canonical Tesera.TypeScript.RawTree Tesera.TypeScript.FileJournal
open Tesera.Verification.Event (EventType eventTypes)

/-! ## Values of the language -/

/-- What the engine makes of texts that this program does not write. -/
structure Runtime extends RawTree.Host where
  /-- `Number(text)`. -/
  numberOfText : Str → Double
  /-- `String(cause)` of what `digestOfUnsigned` throws for a line. -/
  causeOf : Str → Str

/-- `String(value)` of a number. -/
def numberString : Double → Str
  | .nan => lit "NaN"
  | .infinite false => lit "Infinity"
  | .infinite true => lit "-Infinity"
  | .finite d => (Node.Canonical.template d).text

mutual

/-- `String(value)`. An object with a member `toString` has no text: the member is no function, and
`valueOf` gives back the object. -/
def stringOf : Json → Option Str
  | .null => some (lit "null")
  | .bool true => some (lit "true")
  | .bool false => some (lit "false")
  | .num x => some (numberString x)
  | .str s => some s
  | .arr items => (joinItems items).map (List.intercalate [44])
  | .obj members => if (Members.get members (lit "toString")).isSome then none else some (lit "[object Object]")

/-- The items of an array as `join` takes them. -/
def joinItems : List Json → Option (List Str)
  | [] => some []
  | .null :: items => (joinItems items).map ([] :: ·)
  | v :: items => (stringOf v).bind (fun text => (joinItems items).map (text :: ·))

end

/-- `record[field]`; none is `undefined`. -/
def item (record : Record) (field : String) : Option Json := Members.get record (lit field)

def shown : Option Json → Option Str
  | none => some (lit "undefined")
  | some v => stringOf v

/-- The number of a decimal. -/
def value (d : Dec) : Rat :=
  (if d.neg then -1 else 1) * (Nat.ofDigits 10 d.digits.reverse : Rat) * (10 : Rat) ^ (d.point - d.digits.length)

def sameNumber : Double → Double → Bool
  | .finite d, .finite e => decide (value d = value e)
  | .infinite neg, .infinite other => neg == other
  | _, _ => false

/-- `===` of two members of different objects. -/
def strictEqual : Option Json → Option Json → Bool
  | none, none => true
  | some .null, some .null => true
  | some (.bool a), some (.bool b) => a == b
  | some (.num x), some (.num y) => sameNumber x y
  | some (.str s), some (.str t) => s == t
  | _, _ => false

def isText (v : Option Json) (text : String) : Bool := strictEqual v (some (.str (lit text)))

/-- The value of a string. -/
def text : Option Json → Option Str
  | some (.str s) => some s
  | _ => none

/-- `typeof value === "number" && Number.isInteger(value)`, and the number. -/
def integer : Option Json → Option Rat
  | some (.num (.finite d)) => if isInteger d then some (value d) else none
  | _ => none

def badCount (least : Rat) (v : Option Json) : Bool :=
  match integer v with
  | some n => decide (n < least)
  | none => true

/-- What `<` takes a value for. -/
def numberOf (runtime : Runtime) : Option Json → Option Double
  | none => some .nan
  | some .null => some (.finite (Dec.normalize false [] (by simp) 0))
  | some (.bool b) => some (.finite (Dec.normalize false [if b then 1 else 0] (by cases b <;> simp) 1))
  | some (.num x) => some x
  | some v => (stringOf v).map runtime.numberOfText

/-- `total < x`. -/
def below (total : Nat) : Double → Bool
  | .nan => false
  | .infinite neg => !neg
  | .finite d => decide ((total : Rat) < value d)

/-! ## Issues -/

structure VerifyIssue where
  lineNumber : Nat
  code : String
  message : Str
  deriving DecidableEq

structure VerifyResult where
  valid : Bool
  eventsVerified : Nat
  issues : List VerifyIssue

def issueIf (bad : Bool) (lineNumber : Nat) (code message : String) : List VerifyIssue :=
  if bad then [⟨lineNumber, code, lit message⟩] else []

/-- An issue that shows a value. -/
def issueShowing (bad : Bool) (lineNumber : Nat) (code before : String) (v : Option Json) : Option (List VerifyIssue) :=
  if bad then (shown v).map (fun text => [⟨lineNumber, code, lit before ++ text⟩]) else some []

/-! ## Checks of an event -/

def shared : List String :=
  ["schema_version", "event_type", "event_id", "timestamp_utc", "key_id", "event_hash", "signature"]

def action : List String := ["action_id", "action_name", "contract_hash"]

/-- `REQUIRED`. -/
def required : EventType → List String
  | .decision => shared ++ action ++ ["decision", "risk", "approval_mode", "redacted_input_summary", "input_hash"]
  | .outcome => shared ++ action ++ ["status", "decision_event_id"]
  | .checkpoint => shared ++ ["checkpoint_count", "head_sha256"]
  | .resolution => shared ++ action ++ ["decision_event_id", "resolution", "note"]
  | .countersignature => shared ++ ["checkpoint_event_id", "checkpoint_count", "head_sha256"]
  | .archive => shared ++ ["prior_count", "prior_head", "archived_path"]
  | .rotation => shared ++ ["prior_key_id", "successor_key_id", "successor_fingerprint"]

def typeOf (record : Record) : Option EventType :=
  eventTypes.find? (fun type => isText (item record "event_type") type.name)

def missing (type : EventType) (record : Record) : List String :=
  (required type ++ ["previous_event_hash"]).filter (fun field => (item record field).isNone)

def badArchivePath (v : Option Json) : Bool :=
  match text v with
  | none => true
  | some path => path == [] || path == lit "." || path == lit ".." || path.contains 47 || path.contains 92

/-- `/^[0-9a-f]{64}$/.test(text)`. -/
def isFingerprint (s : Str) : Bool := s.length == 64 && s.all Verification.Event.isLowerHex

def rotationShape (lineNumber : Nat) (record : Record) : List VerifyIssue :=
  issueIf (!strictEqual (item record "prior_key_id") (item record "key_id")) lineNumber
    "rotation_signer_mismatch" "prior_key_id must equal key_id" ++
  (match (text (item record "successor_fingerprint")).filter isFingerprint with
    | none => issueIf true lineNumber "rotation_bad_fingerprint" "successor_fingerprint is not 64-char hex"
    | some fingerprint =>
        issueIf (!strictEqual (item record "successor_key_id") (some (.str (lit "ed25519:" ++ fingerprint.take 16))))
          lineNumber "rotation_fingerprint_mismatch" "successor_key_id does not match fingerprint") ++
  issueIf (strictEqual (item record "prior_key_id") (item record "successor_key_id")) lineNumber
    "rotation_self_successor" "successor must differ from prior"

/-- The shape of an event of a type; `first` tells that no line before it has one. -/
def shapeIssues (lineNumber : Nat) (first : Bool) (type : EventType) (record : Record) : Option (List VerifyIssue) :=
  match type with
  | .decision =>
      let decision := item record "decision"
      issueShowing (!(isText decision "allowed" || isText decision "denied")) lineNumber
        "invalid_decision" "unsupported decision " decision
  | .outcome =>
      let status := item record "status"
      issueShowing (!(isText status "succeeded" || isText status "failed")) lineNumber
        "invalid_outcome_status" "unsupported outcome status " status
  | .checkpoint => some (
      issueIf (!strictEqual (item record "head_sha256") (item record "previous_event_hash")) lineNumber
        "checkpoint_head_mismatch" "head_sha256 does not match previous_event_hash" ++
      issueIf (badCount 0 (item record "checkpoint_count")) lineNumber
        "checkpoint_bad_count" "checkpoint_count is not a non-negative integer")
  | .countersignature => some (
      issueIf (badCount 0 (item record "checkpoint_count")) lineNumber
        "countersignature_bad_count" "checkpoint_count is not a non-negative integer")
  | .resolution =>
      let resolution := item record "resolution"
      issueShowing (!(isText resolution "confirmed_completed" || isText resolution "confirmed_not_completed")) lineNumber
        "resolution_bad_value" "unknown resolution " resolution
  | .archive => some (
      issueIf (!first) lineNumber "archive_not_first" "archive event must be the first line of its file" ++
      issueIf (badArchivePath (item record "archived_path")) lineNumber
        "archive_bad_path" "archived_path must be a bare file name" ++
      issueIf (badCount 1 (item record "prior_count")) lineNumber
        "archive_bad_count" "prior_count is not a positive integer")
  | .rotation => some (rotationShape lineNumber record)

/-- A key of the keyring, as `verifySignature` uses it: a digest and the text of a signature. -/
abbrev VerifyKey := Bytes → Str → Bool

abbrev Keyring := Members.Entries Str VerifyKey

abbrev Checkpoints := Members.Entries Str Record

def signerOf (keyring : Keyring) (record : Record) : Option VerifyKey :=
  (text (item record "key_id")).bind (Members.get keyring)

/-- The issues of the signature. -/
def signatureIssues (lineNumber : Nat) (keyring : Keyring) (digest : Bytes) (record : Record) : Option (List VerifyIssue) :=
  match signerOf keyring record with
  | none => issueShowing true lineNumber "unknown_key" "untrusted " (item record "key_id")
  | some signer =>
      (shown (item record "signature")).map (fun signature =>
        issueIf (!signer digest signature) lineNumber "bad_signature" "Ed25519 failed")

def countersignatureIssues (lineNumber : Nat) (checkpoints : Checkpoints) (record : Record) : List VerifyIssue :=
  match (text (item record "checkpoint_event_id")).bind (Members.get checkpoints) with
  | none => issueIf true lineNumber "countersignature_orphan" "unknown checkpoint"
  | some checkpoint =>
      issueIf (!(strictEqual (item checkpoint "checkpoint_count") (item record "checkpoint_count") &&
        strictEqual (item checkpoint "head_sha256") (item record "head_sha256"))) lineNumber
        "countersignature_mismatch" "count/head differ"

/-! ## The loop -/

/-- What a line that is not blank is read as: the value of `JSON.parse`, where it returns, and the digest
of `digestOfUnsigned`, or the text of what it throws. -/
structure Reading where
  parsed : Option Json
  digest : Except Str Bytes

def readLine (runtime : Runtime) (sha256 : Bytes → Bytes) (raw : Str) : Option Reading :=
  if trim raw = [] then none
  else some ⟨parseJson runtime.toEngine raw,
    match digestOfUnsigned runtime.toHost sha256 raw with
    | some digest => .ok digest
    | none => .error (runtime.causeOf raw)⟩

structure Progress where
  issues : List VerifyIssue
  previous : Option Str
  verified : Nat
  total : Nat
  newestCheckpoint : Option Record
  checkpoints : Checkpoints
  /-- `firstNonEmpty` is still -1. -/
  fresh : Bool

def start : Progress := ⟨[], none, 0, 0, none, [], true⟩

def Progress.add (p : Progress) (found : List VerifyIssue) : Progress := { p with issues := p.issues ++ found }

/-- The chain goes on from the stored hash, where that is a string. -/
def Progress.follow (p : Progress) (record : Record) : Progress :=
  { p with previous := (text (item record "event_hash")).or p.previous }

/-- The checkpoints after one more event. -/
def Progress.note (p : Progress) (type : EventType) (record : Record) : Progress :=
  if type = .checkpoint then
    { p with
      newestCheckpoint := some record
      checkpoints := (text (item record "event_id")).elim p.checkpoints (fun id => Members.put id record p.checkpoints) }
  else p

def previousHash (p : Progress) : Option Json := some (p.previous.elim .null .str)

/-- The checks of an event of a known type that has its fields, from its shape on. -/
def verifyBody (keyring : Keyring) (lineNumber : Nat) (first : Bool) (type : EventType) (record : Record)
    (digest : Except Str Bytes) (p : Progress) : Option Progress := do
  let shape ← shapeIssues lineNumber first type record
  let linked := p.add (shape ++ issueIf (!strictEqual (item record "previous_event_hash") (previousHash p)) lineNumber
    "chain_break" "previous_event_hash mismatch")
  match digest with
  | .error cause => return (linked.add [⟨lineNumber, "hash_mismatch", cause⟩]).follow record
  | .ok digest =>
      let hashed := linked.add (issueIf (!strictEqual (item record "event_hash") (some (.str (Canonical.hex digest))))
        lineNumber "hash_mismatch" "event_hash mismatch")
      let signature ← signatureIssues lineNumber keyring digest record
      let signed := hashed.add signature
      let counted := if signature = [] then { signed with verified := signed.verified + 1 } else signed
      let noted := (counted.follow record).note type record
      if type = .countersignature then
        return noted.add (countersignatureIssues lineNumber noted.checkpoints record)
      else return noted

/-- The checks of an event. -/
def verifyRecord (keyring : Keyring) (lineNumber : Nat) (record : Record) (digest : Except Str Bytes) (before : Progress) :
    Option Progress :=
  let p := { before with total := before.total + 1, fresh := false }
  if !isText (item record "schema_version") "1" then
    some (p.add (issueIf true lineNumber "unknown_schema" "bad schema_version"))
  else
    match typeOf record with
    | none => some (p.add (issueIf true lineNumber "unknown_event_type" "bad event_type"))
    | some type =>
        let fields := missing type record
        if fields = [] then verifyBody keyring lineNumber before.fresh type record digest p
        else
          let sorted := fields.mergeSort (fun a b => decide (a ≤ b))
          some (p.add (issueIf true lineNumber "missing_fields" ("missing: " ++ ",".intercalate sorted)))

/-- The lines from a number on; none where an exception escapes. -/
def verifyFrom (keyring : Keyring) : List (Option Reading) → Nat → Progress → Option Progress
  | [], _, p => some p
  | none :: rest, lineNumber, p => verifyFrom keyring rest (lineNumber + 1) p
  | some reading :: rest, lineNumber, p =>
      match reading.parsed with
      | some (.obj record) =>
          (verifyRecord keyring lineNumber record reading.digest p).bind (verifyFrom keyring rest (lineNumber + 1))
      | none => some ({ p with fresh := false }.add (issueIf true lineNumber "malformed_json" "not valid JSON"))
      | some _ => some ({ p with fresh := false, }.add (issueIf true lineNumber "malformed_event" "not an object"))

/-- The end of the loop. -/
def truncation (runtime : Runtime) (p : Progress) : Option (List VerifyIssue) :=
  match p.newestCheckpoint with
  | none => some []
  | some checkpoint => (numberOf runtime (item checkpoint "checkpoint_count")).map (fun count =>
      issueIf (below p.total count) 0 "checkpoint_truncation" "journal shorter than checkpoint")

def verifyReadings (runtime : Runtime) (keyring : Keyring) (readings : List (Option Reading)) : Option VerifyResult := do
  let p ← verifyFrom keyring readings 1 start
  let truncated ← truncation runtime p
  let issues := p.issues ++ truncated
  return ⟨issues.isEmpty, p.verified, issues⟩

/-- `verifyLines`; none where an exception escapes. -/
def verifyLines (runtime : Runtime) (sha256 : Bytes → Bytes) (keyring : Keyring) (lines : List Str) : Option VerifyResult :=
  verifyReadings runtime keyring (lines.map (readLine runtime sha256))

end Tesera.TypeScript.Verify
