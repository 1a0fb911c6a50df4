import Tesera.Documents
import Tesera.TypeScript.SameBytes
import Tesera.TypeScript.Verdict
import Tesera.Verification.Valid

/-!
The verdicts of `verify_journal` and of `verifyLines`. Where both languages read the same values from the
lines, hash them alike and agree on the signatures, their verdicts differ by a few checks that only one of
them makes.
-/

namespace Tesera.TypeScript.SameVerdict
open Tesera.Text Tesera.Text.Unicode
open Tesera.Documents (Alike utf16Encode_eq_ascii)
open Tesera.Python.Value (Dict get has asStr asInt asDict pyEq pyStr)
open Tesera.TypeScript.Value (Json Record)
open Tesera.TypeScript.SameBytes (Scalars)
open Tesera.TypeScript.Verify Tesera.TypeScript.Verdict
open Tesera.Verification.Event (EventType)
open Tesera.Canonical (eventDigest unsignedPayload hex linkOf)
open Tesera.Journal.Record (decodeLine Decoded)

/-! ## Checks of one verifier only -/

/-- What Python asks of an event of a type beyond `verifyLines`: a receipt is an object, what a resolution
refers to and its note are strings, and a count is not written as a float. -/
def PythonAsks (event : Dict) : EventType → Prop
  | .outcome => has event "receipt" = true → ∃ fields, get event "receipt" = .dict fields
  | .resolution => (∃ id, get event "decision_event_id" = .str id) ∧ ∃ note, get event "note" = .str note
  | .checkpoint => ∀ f, get event "checkpoint_count" ≠ .float f
  | .countersignature => ∀ f, get event "checkpoint_count" ≠ .float f
  | .archive => ∀ f, get event "prior_count" ≠ .float f
  | _ => True

/-- What `verifyLines` asks of an event of a type beyond Python: a decision and a status are among the known
ones, a count is no boolean, and the name of an archived file is not empty. -/
def TypeScriptAsks (event : Dict) : EventType → Prop
  | .decision => get event "decision" = .str (lit "allowed") ∨ get event "decision" = .str (lit "denied")
  | .outcome => get event "status" = .str (lit "succeeded") ∨ get event "status" = .str (lit "failed")
  | .checkpoint => ∀ b, get event "checkpoint_count" ≠ .bool b
  | .countersignature => ∀ b, get event "checkpoint_count" ≠ .bool b
  | .archive => (∀ b, get event "prior_count" ≠ .bool b) ∧ get event "archived_path" ≠ .str []
  | _ => True

/-! ## Fields in both languages -/

section Fields

variable {event : Dict} {record : Record} {field : String}

def Ascii (word : Str) : Prop := ∀ c ∈ word, c < 128

instance (word : Str) : Decidable (Ascii word) := List.decidableBAll (fun c => c < 128) word

theorem field_alike (alike : Alike (.dict event) (.obj record)) (ascii : Ascii (lit field)) :
    Option.Rel Alike (Members.get event (lit field)) (item record field) := by
  cases alike with
  | dict fields names => exact fields _ ascii

theorem has_alike (alike : Alike (.dict event) (.obj record)) (ascii : Ascii (lit field)) :
    has event field = (item record field).isSome := by
  have rel := field_alike alike ascii
  unfold has
  generalize Members.get event (lit field) = v at rel
  generalize item record field = w at rel
  cases rel <;> rfl

/-- A field that is there has like values. -/
theorem get_alike (alike : Alike (.dict event) (.obj record)) (ascii : Ascii (lit field)) {v : Json}
    (found : item record field = some v) : Alike (get event field) v := by
  have rel := field_alike alike ascii
  rw [found] at rel
  unfold Python.Value.get
  generalize Members.get event (lit field) = w at rel
  cases rel with
  | some like => exact like

theorem item_of_has (alike : Alike (.dict event) (.obj record)) (ascii : Ascii (lit field)) (there : has event field = true) :
    ∃ v, item record field = some v ∧ Alike (get event field) v := by
  rw [has_alike alike ascii] at there
  obtain ⟨v, found⟩ := Option.isSome_iff_exists.mp there
  exact ⟨v, found, get_alike alike ascii found⟩

theorem str_alike (alike : Alike (.dict event) (.obj record)) (ascii : Ascii (lit field)) {units : Str} :
    item record field = some (.str units) ↔ ∃ s, get event field = .str s ∧ utf16Encode s = units := by
  constructor
  · intro found
    have like := get_alike alike ascii found
    generalize get event field = v at like
    cases like with
    | str s => exact ⟨s, rfl, rfl⟩
  · rintro ⟨s, found, rfl⟩
    have there : has event field = true := Python.Value.has_of_get_ne_null (by rw [found]; simp)
    obtain ⟨v, same, like⟩ := item_of_has alike ascii there
    rw [found] at like
    cases like
    exact same

/-- A field with an ASCII text. -/
theorem ascii_alike (alike : Alike (.dict event) (.obj record)) (ascii : Ascii (lit field)) {word : Str}
    (plain : Ascii word) : item record field = some (.str word) ↔ get event field = .str word := by
  rw [str_alike alike ascii]
  constructor
  · rintro ⟨s, found, same⟩
    rw [found, (utf16Encode_eq_ascii plain).mp same]
  · intro found
    exact ⟨word, found, (utf16Encode_eq_ascii plain).mpr rfl⟩

theorem null_alike (alike : Alike (.dict event) (.obj record)) (ascii : Ascii (lit field)) (there : has event field = true) :
    item record field = some .null ↔ get event field = .null := by
  obtain ⟨v, found, like⟩ := item_of_has alike ascii there
  rw [found, Option.some.injEq]
  generalize get event field = w at like
  cases like <;> simp

theorem text_alike (alike : Alike (.dict event) (.obj record)) (ascii : Ascii (lit field)) :
    text (item record field) = (asStr (get event field)).map utf16Encode := by
  cases found : asStr (get event field) with
  | some s =>
    rw [Option.map_some, text_eq_some, str_alike alike ascii]
    exact ⟨s, Python.Value.asStr_eq_some.mp found, rfl⟩
  | none =>
    rw [Option.map_none]
    cases units : text (item record field) with
    | none => rfl
    | some units =>
      obtain ⟨s, same, -⟩ := (str_alike alike ascii).mp (text_eq_some.mp units)
      rw [same] at found
      cases found

end Fields

/-! ## Texts without surrogates -/

theorem mem_textsMembers {members : Dict} {key s : Str} (member : (key, .str s) ∈ members) {c : Nat} (inside : c ∈ s) :
    c ∈ Python.Writable.textsMembers members := by
  induction members with
  | nil => cases member
  | cons p members ih =>
    obtain ⟨k, v⟩ := p
    simp only [Python.Writable.textsMembers, List.mem_append]
    rcases List.mem_cons.mp member with same | later
    · cases same
      exact .inr (.inl inside)
    · exact .inr (.inr (ih later))

/-- An event that has a digest holds no surrogates outside its seal. -/
theorem scalars_of_digest {host : Python.Value.Host} {event : Dict} {hashed : Bytes}
    (digest : eventDigest host (unsignedPayload event) = .ok hashed) {field : String} (notHash : field ≠ "event_hash")
    (notSignature : field ≠ "signature") {s : Str} (found : get event field = .str s) : Scalars s := by
  obtain ⟨bytes, written, -⟩ := Canonical.eventDigest_eq_ok.mp digest
  obtain ⟨text, dumped, encoded⟩ := Canonical.canonicalJsonBytes_eq_ok.mp written
  obtain ⟨-, same⟩ := Python.JsonCodec.dumps_eq_ok.mp dumped
  rw [same] at encoded
  have scalars := SameBytes.scalars_of_encodable ((Python.Writable.utf8Encode_written _).mp ⟨bytes, encoded⟩)
  rw [← Canonical.get_unsignedPayload_of_ne event field notHash notSignature] at found
  have member : (lit field, Python.Value.Json.str s) ∈ unsignedPayload event := by
    unfold Python.Value.get at found
    cases there : Members.get (unsignedPayload event) (lit field) with
    | none =>
      rw [there] at found
      cases found
    | some v =>
      rw [there, Option.getD_some] at found
      exact Members.mem_of_get (found ▸ there)
  intro c inside
  exact scalars c (mem_textsMembers member inside)

theorem encode_injective {a b : Str} (left : Scalars a) (right : Scalars b) (same : utf16Encode a = utf16Encode b) : a = b := by
  rw [← utf16Decode_encode left, same, utf16Decode_encode right]

/-! ## Events in both languages -/

/-- An event of one line: the languages read like values and take its integers for the same, it has a digest in
both or in none, the same one, and both accept its signature for a digest or neither does. -/
structure SameEvent (host : Python.Value.Host) (trusted : Verification.Event.Keyring) (keyring : Keyring) (event : Dict)
    (record : Record) (digest : Except Str Bytes) : Prop where
  alike : Alike (.dict event) (.obj record)
  exact : ∀ field, Ascii (lit field) → ∀ n, get event field = .int n → integer (item record field) = some (n : Rat)
  hashed : ∀ hashed, eventDigest host (unsignedPayload event) = .ok hashed ↔ digest = .ok hashed
  signed : ∀ hashed, digest = .ok hashed → (signatureIssues 0 keyring hashed record = some [] ↔
    ∃ key, Verification.Event.signerOf trusted event = some key ∧
      Verification.Event.verifySignature host key hashed (pyStr host (get event "signature")) = true)

/-- A checkpoint in both languages. -/
structure SameCheckpoint (checkpoint : Dict) (record : Record) : Prop where
  count : ∃ n : Int, get checkpoint "checkpoint_count" = .int n ∧ integer (item record "checkpoint_count") = some (n : Rat)
  head : ∃ head : Option Str, (∀ hash, head = some hash → Ascii hash) ∧ get checkpoint "head_sha256" = linkOf head ∧
    item record "head_sha256" = some (head.elim .null .str)

def SameCheckpoints (checkpoints : Verification.Event.Checkpoints) (records : Checkpoints) : Prop :=
  ∀ id, Scalars id → Option.Rel SameCheckpoint (Members.get checkpoints id) (Members.get records (utf16Encode id))

section Events

variable {host : Python.Value.Host} {trusted : Verification.Event.Keyring} {keyring : Keyring} {event : Dict}
  {record : Record} {digest : Except Str Bytes} {hashed : Bytes} {type : EventType}
  {first : Bool} {previous : Option Str} {checkpoints : Verification.Event.Checkpoints} {records : Checkpoints}

/-- The fields that the languages require of an event. -/
theorem ascii_required : ∀ field ∈ required type ++ ["previous_event_hash"], Ascii (lit field) := by
  cases type <;> decide +kernel

theorem required_python : ∀ field ∈ required type ++ ["previous_event_hash"],
    field ∈ type.required ++ ["previous_event_hash"] := by
  cases type <;> decide +kernel

theorem required_typeScript : ∀ field ∈ type.required ++ ["previous_event_hash"],
    field ∈ required type ++ ["previous_event_hash"] := by
  cases type <;> decide +kernel

theorem missingFields_eq_nil : Verification.Event.missingFields type event = [] ↔
    ∀ field ∈ type.required ++ ["previous_event_hash"], has event field = true := by
  simp only [Verification.Event.missingFields, List.append_eq_nil_iff, List.filter_eq_nil_iff, Bool.not_eq_true',
    Bool.not_eq_false, ite_eq_left_iff, reduceCtorEq, imp_false, not_not, List.forall_mem_append, List.forall_mem_singleton]

/-- The languages require the same fields. -/
theorem missing_iff (alike : Alike (.dict event) (.obj record)) :
    missing type record = [] ↔ Verification.Event.missingFields type event = [] := by
  rw [missingFields_eq_nil, missing, List.filter_eq_nil_iff]
  constructor
  · intro all field named
    have inside := required_typeScript field named
    have there := all field inside
    rw [has_alike alike (ascii_required field inside)]
    simpa [Option.isSome_iff_ne_none] using there
  · intro all field named
    have there := all field (required_python field named)
    rw [has_alike alike (ascii_required field named)] at there
    simpa [Option.isSome_iff_ne_none] using there

theorem has_required (fields : Verification.Event.missingFields type event = []) {field : String}
    (named : field ∈ required type) : has event field = true :=
  missingFields_eq_nil.mp fields field (required_python field (List.mem_append_left _ named))

/-- A field holds the same hash or nothing in both languages. -/
theorem linked_iff (same : SameEvent host trusted keyring event record digest) {field : String} (plain : Ascii (lit field))
    (there : has event field = true) (ascii : ∀ hash, previous = some hash → Ascii hash) :
    item record field = some (previous.elim .null .str) ↔ get event field = linkOf previous := by
  cases previous with
  | none => exact null_alike same.alike plain there
  | some hash => exact ascii_alike same.alike plain (ascii hash rfl)

/-! ## Shapes -/

/-- A count is good for both, except a float for Python and a boolean for `verifyLines`. -/
theorem badCount_iff (same : SameEvent host trusted keyring event record digest) {field : String} (ascii : Ascii (lit field))
    (there : has event field = true) (least : Int) :
    badCount (least : Rat) (item record field) = false ∧ (∀ f, get event field ≠ .float f) ↔
      Verification.Event.badCount least (get event field) = false ∧ ∀ b, get event field ≠ .bool b := by
  obtain ⟨v, found, like⟩ := item_of_has same.alike ascii there
  have exact := same.exact field ascii
  rw [found] at exact ⊢
  unfold badCount Verification.Event.badCount
  generalize get event field = w at like exact
  cases like with
  | int n x => simp [exact n rfl, asInt]
  | bool b => simp [integer]
  | _ => simp [integer, asInt]

theorem mem_utf16Encode {s : Str} {c : Nat} (small : c < 128) : c ∈ utf16Encode s ↔ c ∈ s := by
  induction s with
  | nil => simp [utf16Encode]
  | cons d s ih =>
    rw [Documents.utf16Encode_cons, List.mem_append, List.mem_cons, ih]
    have first : c ∈ unitsOf d ↔ c = d := by
      unfold unitsOf
      split_ifs with basic
      · exact List.mem_singleton
      · simp only [List.mem_cons, List.not_mem_nil, or_false]
        omega
    rw [first]

theorem badArchivePath_iff (same : SameEvent host trusted keyring event record digest) :
    badArchivePath (item record "archived_path") = false ↔
      ∃ path, get event "archived_path" = .str path ∧ Verification.Event.notBareName path = false ∧ path ≠ [] := by
  unfold badArchivePath
  rw [text_alike same.alike (by decide)]
  cases found : asStr (get event "archived_path") with
  | none =>
    simp only [Option.map_none, Bool.true_eq_false, false_iff]
    rintro ⟨path, written, -⟩
    rw [written] at found
    cases found
  | some path =>
    have written := Python.Value.asStr_eq_some.mp found
    have plain : ∀ word, Ascii word → (utf16Encode path == word) = (path == word) := by
      intro word ascii
      rw [Bool.eq_iff_iff, beq_iff_eq, beq_iff_eq, utf16Encode_eq_ascii ascii]
    have separator : ∀ c, c < 128 → (utf16Encode path).contains c = path.contains c := by
      intro c small
      rw [Bool.eq_iff_iff, List.contains_iff_mem, List.contains_iff_mem, mem_utf16Encode small]
    have slashes : path.any (fun c => c == 47 || c == 92) = (path.contains 47 || path.contains 92) := by
      rw [Bool.eq_iff_iff]
      simp only [List.any_eq_true, Bool.or_eq_true, beq_iff_eq, List.contains_iff_mem]
      constructor
      · rintro ⟨c, member, rfl | rfl⟩
        · exact .inl member
        · exact .inr member
      · rintro (member | member)
        · exact ⟨_, member, .inl rfl⟩
        · exact ⟨_, member, .inr rfl⟩
    simp only [Option.map_some, plain [] (by decide), plain (lit ".") (by decide), plain (lit "..") (by decide),
      separator 47 (by decide), separator 92 (by decide), Bool.or_eq_false_iff, beq_eq_false_iff_ne, ne_eq, written,
      Python.Value.Json.str.injEq, exists_eq_left', Verification.Event.notBareName, slashes]
    tauto

theorem ascii_fingerprint {s : Str} (print : Verification.Event.isFingerprint s = true) : Ascii s := by
  intro c inside
  have digit := List.all_eq_true.mp (Bool.and_eq_true_iff.mp print).2 c inside
  simp only [Verification.Event.isLowerHex, Bool.or_eq_true, Bool.and_eq_true, decide_eq_true_eq] at digit
  omega

/-- The fingerprint of a successor, where it is one. -/
theorem fingerprint_alike (same : SameEvent host trusted keyring event record digest) :
    (text (item record "successor_fingerprint")).filter isFingerprint =
      (asStr (get event "successor_fingerprint")).filter Verification.Event.isFingerprint := by
  rw [text_alike same.alike (by decide)]
  cases asStr (get event "successor_fingerprint") with
  | none => rfl
  | some s =>
    by_cases print : Verification.Event.isFingerprint s = true
    · have own : utf16Encode s = s := (utf16Encode_eq_ascii (ascii_fingerprint print)).mpr rfl
      simp only [Option.map_some, own]
      rfl
    · have other : isFingerprint (utf16Encode s) ≠ true := by
        intro units
        have own : s = utf16Encode s := (utf16Encode_eq_ascii (ascii_fingerprint units)).mp rfl
        rw [← own] at units
        exact print units
      simp only [Option.map_some, Option.filter_some, if_neg print, if_neg other]

theorem outcome_iff (same : SameEvent host trusted keyring event record digest) :
    shapeIssues 0 first .outcome record = some [] ∧ PythonAsks event .outcome ↔
      Verification.Event.shapeIssues host 0 checkpoints .outcome event = .ok [] ∧ TypeScriptAsks event .outcome := by
  simp only [shapeIssues, issueShowing_eq_nil, Bool.not_eq_false', Bool.or_eq_true, isText_iff, PythonAsks, TypeScriptAsks,
    Verification.Event.shapeIssues, Verification.Event.outcomeShape, Except.ok.injEq, Verification.Event.issueIf_eq_nil,
    Bool.and_eq_false_iff, ascii_alike same.alike (by decide : Ascii (lit "status")) (by decide : Ascii (lit "succeeded")),
    ascii_alike same.alike (by decide : Ascii (lit "status")) (by decide : Ascii (lit "failed"))]
  have receipt : (has event "receipt" = true → ∃ fields, get event "receipt" = .dict fields) ↔
      has event "receipt" = false ∨ (asDict (get event "receipt")).isNone = false := by
    cases has event "receipt" <;> cases get event "receipt" <;> simp [asDict]
  rw [receipt]
  exact and_comm

theorem decision_iff (same : SameEvent host trusted keyring event record digest) :
    shapeIssues 0 first .decision record = some [] ↔ TypeScriptAsks event .decision := by
  simp only [shapeIssues, issueShowing_eq_nil, Bool.not_eq_false', Bool.or_eq_true, isText_iff, TypeScriptAsks,
    ascii_alike same.alike (by decide : Ascii (lit "decision")) (by decide : Ascii (lit "allowed")),
    ascii_alike same.alike (by decide : Ascii (lit "decision")) (by decide : Ascii (lit "denied"))]

theorem resolution_iff (same : SameEvent host trusted keyring event record digest) :
    shapeIssues 0 first .resolution record = some [] ∧ PythonAsks event .resolution ↔
      Verification.Event.shapeIssues host 0 checkpoints .resolution event = .ok [] := by
  have known : (get event "resolution" = .str (lit "confirmed_completed") ∨
      get event "resolution" = .str (lit "confirmed_not_completed")) ↔
        Python.Value.inSet Verification.Event.knownResolutions (get event "resolution") = .ok true := by
    rw [Verification.Event.inSet_eq_true]
    simp [Verification.Event.knownResolutions]
  simp only [shapeIssues, issueShowing_eq_nil, Bool.not_eq_false', Bool.or_eq_true, isText_iff, PythonAsks,
    Verification.Event.shapeIssues, Verification.Event.resolutionShape, Python.Value.bind_eq_ok,
    ascii_alike same.alike (by decide : Ascii (lit "resolution")) (by decide : Ascii (lit "confirmed_completed")),
    ascii_alike same.alike (by decide : Ascii (lit "resolution")) (by decide : Ascii (lit "confirmed_not_completed")), known]
  have isText : ∀ v : Python.Value.Json, Verification.Event.notStr v = false ↔ ∃ s, v = .str s := by
    intro v
    cases v <;> simp [Verification.Event.notStr, asStr]
  constructor
  · rintro ⟨member, id, note⟩
    refine ⟨true, member, ?_⟩
    simp [pure, Except.pure, (isText _).mpr id, (isText _).mpr note, Verification.Event.issueIf]
  · rintro ⟨found, member, none⟩
    simp only [pure, Except.pure, Except.ok.injEq, List.append_eq_nil_iff, Verification.Event.issueIf_eq_nil, isText,
      Bool.not_eq_false'] at none
    obtain ⟨⟨rfl, id⟩, note⟩ := none
    exact ⟨member, id, note⟩

theorem strictEqual_link {v : Option Json} :
    strictEqual v (some (previous.elim .null .str)) = true ↔ v = some (previous.elim .null .str) := by
  cases previous with
  | none => exact strictEqual_null
  | some hash => exact strictEqual_str

theorem link_strictEqual {v : Option Json} :
    strictEqual (some (previous.elim .null .str)) v = true ↔ v = some (previous.elim .null .str) := by
  cases previous with
  | none =>
    cases v with
    | none => simp [strictEqual]
    | some v => cases v <;> simp [strictEqual]
  | some hash =>
    cases v with
    | none => simp [strictEqual]
    | some v =>
      cases v with
      | str s =>
        simp only [strictEqual, Option.elim_some, beq_iff_eq, Option.some.injEq, Json.str.injEq]
        exact eq_comm
      | _ => simp [strictEqual]

theorem strictEqual_integer {v w : Option Json} {m n : Rat} (left : integer v = some m) (right : integer w = some n) :
    strictEqual v w = true ↔ m = n := by
  have finite : ∀ {v : Option Json} {m : Rat}, integer v = some m → ∃ d, v = some (.num (.finite d)) ∧ value d = m := by
    intro v m whole
    unfold integer at whole
    split at whole
    · split_ifs at whole
      exact ⟨_, rfl, Option.some.inj whole⟩
    · cases whole
  obtain ⟨d, rfl, rfl⟩ := finite left
  obtain ⟨e, rfl, rfl⟩ := finite right
  simp [strictEqual, sameNumber]

theorem checkpoint_alike (same : SameEvent host trusted keyring event record digest)
    (fields : Verification.Event.missingFields .checkpoint event = [])
    (ascii : ∀ hash, previous = some hash → Ascii hash) (link : get event "previous_event_hash" = linkOf previous) :
    shapeIssues 0 first .checkpoint record = some [] ∧ PythonAsks event .checkpoint ↔
      Verification.Event.shapeIssues host 0 checkpoints .checkpoint event = .ok [] ∧ TypeScriptAsks event .checkpoint := by
  have count := badCount_iff same (by decide : Ascii (lit "checkpoint_count"))
    (has_required fields (by simp [required])) 0
  have linked := (linked_iff same (by decide : Ascii (lit "previous_event_hash"))
    (missingFields_eq_nil.mp fields _ (by simp)) ascii).mpr link
  have head := linked_iff same (by decide : Ascii (lit "head_sha256")) (has_required fields (by simp [required])) ascii
  simp only [shapeIssues, Option.some.injEq, List.append_eq_nil_iff, issueIf_eq_nil, Bool.not_eq_false', linked,
    strictEqual_link, head, PythonAsks, TypeScriptAsks, Verification.Event.shapeIssues, Verification.Event.checkpointShape,
    Except.ok.injEq, Verification.Event.issueIf_eq_nil, link, Verification.Event.pyEq_linkOf, and_assoc]
  rw [← count]
  simp

/-- The head of a checkpoint, and its count where that is an integer, are compared alike. -/
theorem countersignature_iff (same : SameEvent host trusted keyring event record digest)
    (fields : Verification.Event.missingFields .countersignature event = [])
    (digested : eventDigest host (unsignedPayload event) = .ok hashed) (known : SameCheckpoints checkpoints records) :
    (shapeIssues 0 first .countersignature record = some [] ∧ countersignatureIssues 0 records record = []) ∧
        PythonAsks event .countersignature ↔
      Verification.Event.shapeIssues host 0 checkpoints .countersignature event = .ok [] ∧
        TypeScriptAsks event .countersignature := by
  have count := badCount_iff same (by decide : Ascii (lit "checkpoint_count"))
    (has_required fields (by simp [required])) 0
  have headThere := has_required fields (by simp [required] : "head_sha256" ∈ required .countersignature)
  unfold countersignatureIssues
  simp only [shapeIssues, Verification.Event.shapeIssues, Verification.Event.countersignatureShape,
    Verification.Event.referencedCheckpoint, PythonAsks, TypeScriptAsks]
  rw [text_alike same.alike (by decide)]
  cases named : asStr (get event "checkpoint_event_id") with
  | none => simp [issueIf]
  | some id =>
    have found := known id (scalars_of_digest digested (by decide) (by decide) (Python.Value.asStr_eq_some.mp named))
    simp only [Option.map_some, Option.bind_some]
    generalize Members.get checkpoints id = checkpoint at found
    generalize Members.get records (utf16Encode id) = noted at found
    cases found with
    | none => simp [issueIf]
    | @some checkpoint noted both =>
      obtain ⟨n, counted, exact⟩ := both.count
      obtain ⟨head, asciiHead, pythonHead, notedHead⟩ := both.head
      have heads : strictEqual (item noted "head_sha256") (item record "head_sha256") = true ↔
          pyEq host (get event "head_sha256") (get checkpoint "head_sha256") = true := by
        rw [notedHead, link_strictEqual, linked_iff same (by decide) headThere asciiHead, pythonHead,
          Verification.Event.pyEq_linkOf]
      have counts : Verification.Event.badCount 0 (get event "checkpoint_count") = false →
          (∀ b, get event "checkpoint_count" ≠ .bool b) →
            (strictEqual (item noted "checkpoint_count") (item record "checkpoint_count") = true ↔
              pyEq host (get event "checkpoint_count") (get checkpoint "checkpoint_count") = true) := by
        intro good notBool
        rw [counted]
        cases own : get event "checkpoint_count" with
        | int m =>
          rw [strictEqual_integer exact (same.exact _ (by decide) m own)]
          simp only [pyEq, Python.Value.number, Python.Value.Number.eq, beq_iff_eq, Int.cast_inj]
          exact eq_comm
        | bool b => exact absurd own (notBool b)
        | _ => simp [own, Verification.Event.badCount, asInt] at good
      simp only [Option.some.injEq, issueIf_eq_nil, Bool.not_eq_false', Bool.and_eq_true, Except.ok.injEq,
        List.append_eq_nil_iff, Verification.Event.issueIf_eq_nil, heads]
      constructor
      · rintro ⟨⟨good, sameCount, sameHead⟩, notFloat⟩
        obtain ⟨good, notBool⟩ := count.mp ⟨good, notFloat⟩
        exact ⟨⟨⟨(counts good notBool).mp sameCount, sameHead⟩, good⟩, notBool⟩
      · rintro ⟨⟨⟨sameCount, sameHead⟩, good⟩, notBool⟩
        have sameCount := (counts good notBool).mpr sameCount
        obtain ⟨good, notFloat⟩ := count.mpr ⟨good, notBool⟩
        exact ⟨⟨good, sameCount, sameHead⟩, notFloat⟩

/-- An archive event stands first exactly if nothing stands before it. -/
theorem archiveShape_eq_nil :
    Verification.Event.archiveShape 0 event = [] ↔ get event "previous_event_hash" = .null ∧
      Verification.Event.badCount 1 (get event "prior_count") = false ∧
      ∃ path, get event "archived_path" = .str path ∧ Verification.Event.notBareName path = false := by
  simp only [Verification.Event.archiveShape, List.append_eq_nil_iff, Verification.Event.issueIf_eq_nil]
  cases get event "previous_event_hash" <;> cases get event "archived_path" <;>
    simp [Verification.Event.issueIf_eq_nil]

theorem archive_iff (same : SameEvent host trusted keyring event record digest)
    (fields : Verification.Event.missingFields .archive event = []) (fresh : first = true ↔ previous = none)
    (link : get event "previous_event_hash" = linkOf previous) :
    shapeIssues 0 first .archive record = some [] ∧ PythonAsks event .archive ↔
      Verification.Event.shapeIssues host 0 checkpoints .archive event = .ok [] ∧ TypeScriptAsks event .archive := by
  have count := badCount_iff same (by decide : Ascii (lit "prior_count"))
    (has_required fields (by simp [required])) 1
  have stands : first = true ↔ get event "previous_event_hash" = .null := by
    rw [fresh, link]
    cases previous <;> simp [linkOf]
  simp only [shapeIssues, Option.some.injEq, List.append_eq_nil_iff, issueIf_eq_nil, Bool.not_eq_false', PythonAsks,
    TypeScriptAsks, Verification.Event.shapeIssues, Except.ok.injEq]
  rw [Int.cast_one] at count
  rw [archiveShape_eq_nil, badArchivePath_iff same, stands]
  constructor
  · rintro ⟨⟨⟨isFirst, path, found, bare, named⟩, good⟩, notFloat⟩
    obtain ⟨good, notBool⟩ := count.mp ⟨good, notFloat⟩
    refine ⟨⟨isFirst, good, path, found, bare⟩, notBool, ?_⟩
    rwa [found, ne_eq, Python.Value.Json.str.injEq]
  · rintro ⟨⟨isFirst, good, path, found, bare⟩, notBool, named⟩
    obtain ⟨good, notFloat⟩ := count.mpr ⟨good, notBool⟩
    rw [found, ne_eq, Python.Value.Json.str.injEq] at named
    exact ⟨⟨⟨isFirst, path, found, bare, named⟩, good⟩, notFloat⟩

/-- The fields of a rotation without issues. -/
structure Rotates (event : Dict) (id fingerprint : Str) : Prop where
  printed : (asStr (get event "successor_fingerprint")).filter Verification.Event.isFingerprint = some fingerprint
  successor : get event "successor_key_id" = .str (lit "ed25519:" ++ fingerprint.take 16)
  prior : get event "prior_key_id" = .str id
  other : id ≠ lit "ed25519:" ++ fingerprint.take 16

theorem rotationShape_python {id : Str} (key : get event "key_id" = .str id) :
    Verification.Event.rotationShape host 0 event = [] ↔ ∃ fingerprint, Rotates event id fingerprint := by
  simp only [Verification.Event.rotationShape, List.append_eq_nil_iff, Verification.Event.issueIf_eq_nil,
    Bool.not_eq_false', key, Python.Value.pyEq_str]
  constructor
  · rintro ⟨⟨⟨prior, named⟩, print⟩, other⟩
    cases found : (asStr (get event "successor_fingerprint")).filter Verification.Event.isFingerprint with
    | none => simp [found] at print
    | some fingerprint =>
      cases successor : asStr (get event "successor_key_id") with
      | none => simp [successor] at named
      | some own =>
        simp only [found, successor, Verification.Event.issueIf_eq_nil, Option.any_some, bne_eq_false_iff_eq] at print
        subst print
        refine ⟨fingerprint, found, Python.Value.asStr_eq_some.mp successor, prior, ?_⟩
        rintro rfl
        rw [prior, successor] at other
        simp [asStr] at other
  · rintro ⟨fingerprint, rotates⟩
    have named : (lit "ed25519:").isPrefixOf (lit "ed25519:" ++ fingerprint.take 16) = true :=
      List.isPrefixOf_iff_prefix.mpr (List.prefix_append _ _)
    have successor : ∀ s, asStr (.str s) = some s := fun _ => rfl
    simp [rotates.printed, rotates.prior, rotates.successor, successor, named, rotates.other]

theorem rotationShape_typeScript (same : SameEvent host trusted keyring event record digest)
    (digested : eventDigest host (unsignedPayload event) = .ok hashed) {id : Str} (key : get event "key_id" = .str id) :
    rotationShape 0 record = [] ↔ ∃ fingerprint, Rotates event id fingerprint := by
  have keyRead := (str_alike same.alike (by decide : Ascii (lit "key_id"))).mpr ⟨id, key, rfl⟩
  have prior : strictEqual (item record "prior_key_id") (item record "key_id") = true ↔ get event "prior_key_id" = .str id := by
    rw [keyRead, strictEqual_str, str_alike same.alike (by decide)]
    constructor
    · rintro ⟨own, written, encoded⟩
      have scalars := scalars_of_digest digested (by decide) (by decide) written
      rw [written, encode_injective scalars (scalars_of_digest digested (by decide) (by decide) key) encoded]
    · intro written
      exact ⟨id, written, rfl⟩
  have plain : ∀ fingerprint, Verification.Event.isFingerprint fingerprint = true →
      Ascii (lit "ed25519:" ++ fingerprint.take 16) := by
    intro fingerprint print c inside
    rcases List.mem_append.mp inside with first | rest
    · exact (by decide : Ascii (lit "ed25519:")) c first
    · exact ascii_fingerprint print c (List.mem_of_mem_take rest)
  simp only [rotationShape, List.append_eq_nil_iff, issueIf_eq_nil, Bool.not_eq_false', prior, fingerprint_alike same]
  constructor
  · rintro ⟨⟨prior, print⟩, other⟩
    cases found : (asStr (get event "successor_fingerprint")).filter Verification.Event.isFingerprint with
    | none => simp [found] at print
    | some fingerprint =>
      have ascii := plain fingerprint (Option.filter_eq_some_iff.mp found).2
      simp only [found, issueIf_eq_nil, Bool.not_eq_false', strictEqual_str] at print
      refine ⟨fingerprint, found, (ascii_alike same.alike (by decide) ascii).mp print, prior, ?_⟩
      rintro rfl
      rw [print, (ascii_alike same.alike (by decide) ascii).mpr prior] at other
      simp [strictEqual] at other
  · rintro ⟨fingerprint, rotates⟩
    have ascii := plain fingerprint (Option.filter_eq_some_iff.mp rotates.printed).2
    have successor := (ascii_alike same.alike (by decide : Ascii (lit "successor_key_id")) ascii).mpr rotates.successor
    refine ⟨⟨rotates.prior, ?_⟩, ?_⟩
    · simp only [rotates.printed, successor, issueIf_eq_nil, Bool.not_eq_false', strictEqual_str]
    · rw [successor, Bool.eq_false_iff, ne_eq, strictEqual_str, ascii_alike same.alike (by decide) ascii, rotates.prior]
      intro equal
      cases equal
      exact rotates.other rfl

/-- The checks of a type agree, but for those that only one verifier makes. -/
theorem shape_iff (same : SameEvent host trusted keyring event record digest)
    (fields : Verification.Event.missingFields type event = [])
    (digested : eventDigest host (unsignedPayload event) = .ok hashed) (known : SameCheckpoints checkpoints records)
    (fresh : first = true ↔ previous = none) (ascii : ∀ hash, previous = some hash → Ascii hash)
    (link : get event "previous_event_hash" = linkOf previous) {id : Str} (key : get event "key_id" = .str id) :
    (shapeIssues 0 first type record = some [] ∧
        (type = .countersignature → countersignatureIssues 0 records record = [])) ∧ PythonAsks event type ↔
      Verification.Event.shapeIssues host 0 checkpoints type event = .ok [] ∧ TypeScriptAsks event type := by
  have alone : ∀ {p : Prop}, type ≠ .countersignature →
      (p ∧ (type = .countersignature → countersignatureIssues 0 records record = []) ↔ p) :=
    fun other => and_iff_left (fun same => absurd same other)
  cases type with
  | decision =>
    rw [alone (by decide), decision_iff same]
    simp [PythonAsks, Verification.Event.shapeIssues]
  | outcome =>
    rw [alone (by decide)]
    exact outcome_iff same
  | checkpoint =>
    rw [alone (by decide)]
    exact checkpoint_alike same fields ascii link
  | resolution =>
    rw [alone (by decide), resolution_iff same]
    exact (and_iff_left trivial).symm
  | countersignature =>
    rw [← countersignature_iff same fields digested known, forall_prop_of_true rfl]
  | archive =>
    rw [alone (by decide)]
    exact archive_iff same fields fresh link
  | rotation =>
    rw [alone (by decide)]
    simp only [shapeIssues, Verification.Event.shapeIssues, Option.some.injEq, Except.ok.injEq, PythonAsks, TypeScriptAsks,
      rotationShape_python key, rotationShape_typeScript same digested key]

end Events

/-! ## Lines in both languages -/

/-- What only one verifier asks holds of an event of a known type. -/
def Asks (asks : Dict → EventType → Prop) (event : Dict) : Prop :=
  ∀ type, Verification.Event.typeOf event = some type → asks event type

/-- What the passes over the same lines know. -/
structure SameState (first : Bool) (previous : Option Str) (checkpoints : Verification.Event.Checkpoints)
    (records : Checkpoints) (newest : Option Dict) (newestRecord : Option Record) : Prop where
  fresh : first = true ↔ previous = none
  ascii : ∀ hash, previous = some hash → Ascii hash
  known : SameCheckpoints checkpoints records
  newest : Option.Rel SameCheckpoint newest newestRecord

theorem ascii_hex (bytes : Bytes) : Ascii (hex bytes) := by
  intro c inside
  obtain ⟨b, -, digit⟩ := List.mem_flatMap.mp inside
  have small : ∀ n, n < 16 → Text.Json.hexDigit n < 128 := by decide
  have byte : b.toNat < 256 := b.toNat_lt
  simp only [List.mem_cons, List.not_mem_nil, or_false] at digit
  rcases digit with rfl | rfl
  · exact small _ (by omega)
  · exact small _ (by omega)

section Lines

variable {host : Python.Value.Host} {trusted : Verification.Event.Keyring} {keyring : Keyring} {event : Dict}
  {record : Record} {digest : Except Str Bytes} {hashed : Bytes} {first : Bool} {previous : Option Str}
  {checkpoints : Verification.Event.Checkpoints} {records : Checkpoints} {newest : Option Dict}
  {newestRecord : Option Record}

/-- One event is clean for both, but for what only one verifier asks. -/
theorem clean_iff (same : SameEvent host trusted keyring event record digest)
    (state : SameState first previous checkpoints records newest newestRecord) :
    (∃ type hashed, digest = .ok hashed ∧ Typed type record ∧
        CleanRecord keyring first previous records type record hashed) ∧ Asks PythonAsks event ↔
      Verification.Valid.IsClean host trusted previous checkpoints event ∧ Asks TypeScriptAsks event := by
  have plainName : ∀ type : EventType, Ascii (lit type.name) := by
    intro type
    cases type <;> decide
  have version := @ascii_alike event record "schema_version" same.alike (by decide) (lit "1") (by decide)
  have named : ∀ type : EventType, item record "event_type" = some (.str (lit type.name)) ↔
      get event "event_type" = .str (lit type.name) :=
    fun type => ascii_alike same.alike (by decide) (plainName type)
  have identified : ∀ {signer}, Verification.Event.signerOf trusted event = some signer → ∃ id, get event "key_id" = .str id := by
    intro signer found
    obtain ⟨id, written, -⟩ := Option.bind_eq_some_iff.mp found
    exact ⟨id, Python.Value.asStr_eq_some.mp written⟩
  have linked : ∀ {type : EventType}, Verification.Event.missingFields type event = [] →
      (item record "previous_event_hash" = some (previous.elim .null .str) ↔
        get event "previous_event_hash" = linkOf previous) :=
    fun fields => linked_iff same (by decide) (missingFields_eq_nil.mp fields _ (by simp)) state.ascii
  have stored : ∀ hashed, item record "event_hash" = some (.str (hex hashed)) ↔ get event "event_hash" = .str (hex hashed) :=
    fun hashed => ascii_alike same.alike (by decide) (ascii_hex hashed)
  constructor
  · rintro ⟨⟨type, hashed, hash, typed, clean⟩, asks⟩
    have digested := (same.hashed hashed).mpr hash
    have fields := (missing_iff same.alike).mp typed.fields
    have link := (linked fields).mp clean.link
    obtain ⟨signer, known, verified⟩ := (same.signed hashed hash).mp clean.signed
    obtain ⟨id, key⟩ := identified known
    have isType := Verification.Event.typeOf_eq_some.mpr ((named type).mp typed.typed)
    have shapes := (shape_iff same fields digested state.known state.fresh state.ascii link key).mp
      ⟨⟨clean.shape, clean.known⟩, asks type isType⟩
    refine ⟨⟨type, hashed, signer, ⟨version.mp typed.schema, (named type).mp typed.typed, fields, shapes.1, link, digested,
      (stored hashed).mp clean.stored, known, verified⟩⟩, ?_⟩
    intro other isOther
    cases isType.symm.trans isOther
    exact shapes.2
  · rintro ⟨⟨type, hashed, signer, clean⟩, asks⟩
    have hash := (same.hashed hashed).mp clean.hashed
    have fields := clean.fields
    obtain ⟨id, key⟩ := identified clean.signed
    have isType := Verification.Event.typeOf_eq_some.mpr clean.typed
    have shapes := (shape_iff same fields clean.hashed state.known state.fresh state.ascii clean.link key).mpr
      ⟨clean.shape, asks type isType⟩
    refine ⟨⟨type, hashed, hash, ⟨version.mpr clean.schema, (named type).mpr clean.typed, (missing_iff same.alike).mpr fields⟩,
      ⟨shapes.1.1, (linked fields).mpr clean.link, (stored hashed).mpr clean.stored,
        (same.signed hashed hash).mpr ⟨signer, clean.signed, clean.verified⟩, shapes.1.2⟩⟩, ?_⟩
    intro other isOther
    cases isType.symm.trans isOther
    exact shapes.2

/-- What the passes know after an event that is clean for both. -/
theorem sameState_note (same : SameEvent host trusted keyring event record digest)
    (state : SameState first previous checkpoints records newest newestRecord)
    (isClean : Verification.Valid.IsClean host trusted previous checkpoints event)
    (typeScript : Asks TypeScriptAsks event) :
    text (item record "event_hash") = asStr (get event "event_hash") ∧
      SameState false (asStr (get event "event_hash")) (Verification.Journal.noteCheckpoint checkpoints event)
        (noteCheckpoint records record) (Verification.Journal.noteNewest newest event) (noteNewest newestRecord record) := by
  obtain ⟨type, hashed, signer, clean⟩ := isClean
  have isType := Verification.Event.typeOf_eq_some.mpr clean.typed
  have own : asStr (get event "event_hash") = some (hex hashed) := by
    rw [clean.stored]
    rfl
  have read := text_alike same.alike (by decide : Ascii (lit "event_hash"))
  rw [own, Option.map_some, (utf16Encode_eq_ascii (ascii_hex hashed)).mpr rfl] at read
  have isOne : isText (item record "event_type") "checkpoint" = Verification.Journal.isCheckpoint event := by
    rw [Bool.eq_iff_iff, isText_iff, ascii_alike same.alike (by decide) (by decide)]
    simp only [Verification.Journal.isCheckpoint, beq_iff_eq, Python.Value.asStr_eq_some]
  have noted : Verification.Journal.isCheckpoint event = true → SameCheckpoint event record := by
    intro checkpoint
    simp only [Verification.Journal.isCheckpoint, beq_iff_eq, Python.Value.asStr_eq_some] at checkpoint
    cases isType.symm.trans (Verification.Event.typeOf_eq_some.mpr checkpoint : _ = some EventType.checkpoint)
    have shape := clean.shape
    simp only [Verification.Event.shapeIssues, Verification.Event.checkpointShape, Except.ok.injEq, List.append_eq_nil_iff,
      Verification.Event.issueIf_eq_nil, Bool.not_eq_false', clean.link, Verification.Event.pyEq_linkOf] at shape
    constructor
    · cases count : get event "checkpoint_count" with
      | int n => exact ⟨n, rfl, same.exact _ (by decide) n count⟩
      | bool b => exact absurd count (typeScript _ isType b)
      | _ => simp [count, Verification.Event.badCount, asInt] at shape
    · refine ⟨previous, state.ascii, shape.1, ?_⟩
      exact (linked_iff same (by decide) (has_required clean.fields (by simp [required])) state.ascii).mpr shape.1
  rw [own]
  refine ⟨read, by simp, ?_, ?_, ?_⟩
  · intro hash found
    cases found
    exact ascii_hex hashed
  · unfold Verification.Journal.noteCheckpoint noteCheckpoint
    rw [isOne, text_alike same.alike (by decide)]
    split_ifs with checkpoint
    · cases named : asStr (get event "event_id") with
      | none => exact state.known
      | some id =>
        have scalars := scalars_of_digest clean.hashed (by decide) (by decide) (Python.Value.asStr_eq_some.mp named)
        intro other plain
        simp only [Option.map_some, Option.elim_some]
        by_cases equal : other = id
        · subst equal
          rw [Members.get_put_self, Members.get_put_self]
          exact .some (noted checkpoint)
        · have different : utf16Encode other ≠ utf16Encode id := fun encoded => equal (encode_injective plain scalars encoded)
          rw [Members.get_put_of_ne equal, Members.get_put_of_ne different]
          exact state.known other plain
    · exact state.known
  · unfold Verification.Journal.noteNewest noteNewest
    rw [isOne]
    split_ifs with checkpoint
    · exact .some (noted checkpoint)
    · exact state.newest

theorem covered_iff (rel : Option.Rel SameCheckpoint newest newestRecord) (total : Nat) :
    Covered newestRecord total ↔ Verification.Valid.Covered newest total := by
  cases rel with
  | none => simp [Covered, Verification.Valid.Covered]
  | some both =>
    obtain ⟨n, counted, exact⟩ := both.count
    simp only [Covered, Verification.Valid.Covered, Verification.Valid.countOf, Option.some.injEq, forall_eq', exact,
      Option.mem_def, counted, asInt]
    norm_cast

/-- A line in both languages: the same event, or no event. -/
inductive SameLine (host : Python.Value.Host) (trusted : Verification.Event.Keyring) (keyring : Keyring)
    (line : Bytes) (reading : Reading) : Prop
  | event {event : Dict} {record : Record} (decoded : decodeLine host line = .ok (.dict event))
      (parsed : reading.parsed = some (.obj record))
      (same : SameEvent host trusted keyring event record reading.digest)
  | other (decoded : ∀ event, decodeLine host line ≠ .ok (.dict event))
      (parsed : ∀ record, reading.parsed ≠ some (.obj record))

/-- What only one verifier asks holds of the events of known types. -/
def AsksAll (host : Python.Value.Host) (asks : Dict → EventType → Prop) (lines : List Bytes) : Prop :=
  ∀ line ∈ lines, ∀ event, decodeLine host line = .ok (.dict event) → Asks asks event

theorem asksAll_cons {asks : Dict → EventType → Prop} {line : Bytes} {lines : List Bytes}
    (decoded : decodeLine host line = .ok (.dict event)) :
    AsksAll host asks (line :: lines) ↔ Asks asks event ∧ AsksAll host asks lines := by
  unfold AsksAll
  rw [List.forall_mem_cons]
  simp [decoded]

/-- A pass over the rest of the lines, from what both know. -/
theorem cleanFrom_iff {lines : List Bytes} {readings : List Reading}
    (same : List.Forall₂ (SameLine host trusted keyring) lines readings)
    (state : SameState first previous checkpoints records newest newestRecord) (total : Nat) :
    (∃ pairs, List.Forall₂ Reads readings pairs ∧ CleanFrom keyring first previous records pairs ∧
        Covered ((pairs.map Prod.fst).foldl noteNewest newestRecord) (total + pairs.length)) ∧ AsksAll host PythonAsks lines ↔
      (∃ events, Decoded host lines events ∧ Verification.Valid.CleanFrom host trusted previous checkpoints events ∧
        Verification.Valid.Covered (events.foldl Verification.Journal.noteNewest newest) (total + events.length)) ∧
          AsksAll host TypeScriptAsks lines := by
  induction same generalizing first previous checkpoints records newest newestRecord total with
  | nil =>
    constructor
    · rintro ⟨⟨pairs, reads, -, covered⟩, -⟩
      cases reads
      exact ⟨⟨[], .nil, trivial, (covered_iff state.newest total).mp covered⟩, by simp [AsksAll]⟩
    · rintro ⟨⟨events, decoded, -, covered⟩, -⟩
      cases decoded
      exact ⟨⟨[], .nil, trivial, (covered_iff state.newest total).mpr covered⟩, by simp [AsksAll]⟩
  | @cons line reading lines readings one rest ih =>
    cases one with
    | other decoded parsed =>
      constructor
      · rintro ⟨⟨pairs, reads, -⟩, -⟩
        cases reads with
        | cons here _ => exact absurd here.1 (parsed _)
      · rintro ⟨⟨events, others, -⟩, -⟩
        cases others with
        | cons here _ => exact absurd here (decoded _)
    | @event event record decoded parsed same =>
      rw [asksAll_cons decoded, asksAll_cons decoded]
      constructor
      · rintro ⟨⟨pairs, reads, clean, covered⟩, asks, asksRest⟩
        cases reads with
        | @cons _ pair _ pairs here reads =>
          obtain ⟨own, hashed⟩ := pair
          cases parsed.symm.trans here.1
          obtain ⟨⟨type, typed, isClean⟩, cleanRest⟩ := clean
          obtain ⟨both, typeScript⟩ := (clean_iff same state).mp ⟨⟨type, hashed, here.2, typed, isClean⟩, asks⟩
          obtain ⟨hash, next⟩ := sameState_note same state both typeScript
          rw [hash] at cleanRest
          have shift : total + (pairs.length + 1) = total + 1 + pairs.length := by omega
          rw [List.length_cons, shift] at covered
          obtain ⟨⟨events, others, cleanEvents, coveredEvents⟩, typeScriptRest⟩ :=
            (ih next (total + 1)).mp ⟨⟨pairs, reads, cleanRest, covered⟩, asksRest⟩
          have shift : total + (events.length + 1) = total + 1 + events.length := by omega
          rw [← shift] at coveredEvents
          exact ⟨⟨event :: events, .cons decoded others, ⟨both, cleanEvents⟩, coveredEvents⟩, typeScript, typeScriptRest⟩
      · rintro ⟨⟨events, others, clean, covered⟩, typeScript, typeScriptRest⟩
        cases others with
        | @cons _ own _ events here others =>
          cases decoded.symm.trans here
          obtain ⟨both, cleanRest⟩ := clean
          obtain ⟨⟨type, hashed, hash, typed, isClean⟩, asks⟩ := (clean_iff same state).mpr ⟨both, typeScript⟩
          obtain ⟨stored, next⟩ := sameState_note same state both typeScript
          have shift : total + (events.length + 1) = total + 1 + events.length := by omega
          rw [List.length_cons, shift] at covered
          obtain ⟨⟨pairs, reads, cleanPairs, coveredPairs⟩, asksRest⟩ :=
            (ih next (total + 1)).mpr ⟨⟨events, others, cleanRest, covered⟩, typeScriptRest⟩
          have shift : total + (pairs.length + 1) = total + 1 + pairs.length := by omega
          rw [← stored] at cleanPairs
          rw [← shift] at coveredPairs
          exact ⟨⟨(record, hashed) :: pairs, .cons ⟨parsed, hash⟩ reads, ⟨⟨type, typed, isClean⟩, cleanPairs⟩, coveredPairs⟩,
            asks, asksRest⟩

end Lines

theorem valid_iff_valid {host : Python.Value.Host} {keys : List Verification.Event.PublicKey} {keyring : Keyring}
    {runtime : Runtime} {content : Bytes} {readings : List (Option Reading)}
    (same : List.Forall₂ (SameLine host (Verification.Event.toKeyring host keys) keyring) (Lines.records content)
      readings.reduceOption) :
    (∃ r, verifyReadings runtime keyring readings = some r ∧ r.valid = true) ∧
        AsksAll host PythonAsks (Lines.records content) ↔
      (∃ r, Verification.Journal.verifyJournal host (.readable content none) keys none = .ok r ∧ r.valid = true) ∧
        AsksAll host TypeScriptAsks (Lines.records content) := by
  have start : SameState true none [] [] none none :=
    ⟨by simp, fun _ found => (by cases found), fun _ _ => .none, .none⟩
  have passes := cleanFrom_iff same start 0
  simp only [Nat.zero_add] at passes
  rw [valid_iff, passes, Verification.Valid.verifyJournal_valid_iff]
  apply and_congr_left'
  constructor
  · rintro ⟨events, decoded, clean, covered⟩
    exact ⟨content, events, rfl, decoded, clean, covered⟩
  · rintro ⟨_, events, found, file⟩
    cases found
    exact ⟨events, file.decoded, file.clean, file.covered⟩

def bareRuntime : Runtime := { FloatTokens.exactHost with numberOfText := fun _ => .nan, causeOf := fun _ => [] }

end Tesera.TypeScript.SameVerdict
