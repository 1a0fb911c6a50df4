import Tesera.Journal.Append
import Tesera.Verification.Valid

/-!
Appending to a valid file. A builder that finalizes and signs a well-formed payload makes
an event the verifier is clean with; written on a blank fragment, it is the next event
of a file that is valid again.
-/

namespace Tesera.Verification.Extend
open Tesera.Text Tesera.Text.Unicode Tesera.Text.Lines Tesera.Python.Value Tesera.Canonical
open Tesera.Journal.Record Tesera.Journal.Tail Tesera.Journal.Append
open Tesera.Verification.Event Tesera.Verification.Journal Tesera.Verification.Valid

/-! ## The state after some events -/

def hashAfter (before : Option Str) (events : List Dict) : Option Str :=
  events.foldl (fun _ event => asStr (get event "event_hash")) before

def checkpointsAfter (checkpoints : Checkpoints) (events : List Dict) : Checkpoints :=
  events.foldl noteCheckpoint checkpoints

theorem hashAfter_eq_lastHash (events : List Dict) : hashAfter none events = lastHash events := by
  induction events using List.reverseRecOn with
  | nil => rfl
  | append_singleton events event _ =>
    simp only [hashAfter, lastHash, List.foldl_append, List.foldl_cons, List.foldl_nil,
      List.getLast?_concat, Option.bind_some]

theorem cleanFrom_append {host : Host} {trusted : Keyring} {before : Option Str}
    {checkpoints : Checkpoints} {events more : List Dict} :
    CleanFrom host trusted before checkpoints (events ++ more) ↔
      CleanFrom host trusted before checkpoints events ∧
        CleanFrom host trusted (hashAfter before events) (checkpointsAfter checkpoints events) more := by
  induction events generalizing before checkpoints with
  | nil => simp [CleanFrom, hashAfter, checkpointsAfter]
  | cons event events ih => simp [CleanFrom, hashAfter, checkpointsAfter, ih, and_assoc]

/-! ## Well-formed payloads -/

theorem has_unsignedPayload_of_ne (event : Dict) (field : String) (notHash : field ≠ "event_hash")
    (notSignature : field ≠ "signature") : has (unsignedPayload event) field = has event field := by
  simp only [has, get_unsignedPayload, ne_eq, lit_inj, notHash, notSignature, not_false_eq_true,
    and_self, if_true]

/-- The shape of an event is the shape of its payload. -/
theorem shapeIssues_unsignedPayload (host : Host) (line : Nat) (checkpoints : Checkpoints)
    (type : EventType) (event : Dict) :
    shapeIssues host line checkpoints type (unsignedPayload event) =
      shapeIssues host line checkpoints type event := by
  have same := fun field notHash notSignature =>
    get_unsignedPayload_of_ne event field notHash notSignature
  have present := fun field notHash notSignature =>
    has_unsignedPayload_of_ne event field notHash notSignature
  cases type <;>
    simp [shapeIssues, outcomeShape, checkpointShape, resolutionShape, countersignatureShape,
      referencedCheckpoint, archiveShape, rotationShape, same, present]

/-- A payload that carries the hash it is built on and, finalized and signed after the
given events, is an event the verifier accepts there. -/
structure WellFormed (host : Host) (trusted : Keyring) (events : List Dict) (previous : Option Str)
    (type : EventType) (payload : Dict) (sign : Bytes → Except PyError Str) : Prop where
  ok : DictOk host payload
  noHash : has payload "event_hash" = false
  noSignature : has payload "signature" = false
  schema : get payload "schema_version" = .str (lit "1")
  typed : get payload "event_type" = .str (lit type.name)
  fields : ∀ field ∈ type.required, field = "event_hash" ∨ field = "signature" ∨ has payload field = true
  linked : has payload "previous_event_hash" = true
  link : get payload "previous_event_hash" = linkOf previous
  shape : shapeIssues host 0 (checkpointsAfter [] events) type payload = .ok []
  counted : type = .checkpoint → ∀ n ∈ countOf payload, n ≤ events.length
  signer : ∃ key, signerOf trusted payload = some key ∧ ∀ digest signature,
    eventDigest host payload = .ok digest → sign digest = .ok signature →
      verifySignature host key digest signature = true

section Finalized

variable {host : Host} {trusted : Keyring} {events : List Dict} {previous : Option Str}
  {type : EventType} {payload event : Dict} {sign : Bytes → Except PyError Str}

theorem get_of_payload (stripped : unsignedPayload event = payload) (field : String)
    (notHash : field ≠ "event_hash") (notSignature : field ≠ "signature") :
    get event field = get payload field := by
  rw [← stripped, get_unsignedPayload_of_ne event field notHash notSignature]

theorem isClean_of_wellFormed (formed : WellFormed host trusted events previous type payload sign)
    (final : finalizeEvent host payload sign = .ok event) :
    IsClean host trusted previous (checkpointsAfter [] events) event := by
  obtain ⟨digest, signature, signed, finalized⟩ :=
    finalizeEvent_spec formed.ok formed.noHash formed.noSignature final
  have same := get_of_payload finalized.payload_eq
  obtain ⟨key, found, verifies⟩ := formed.signer
  have hash : get event "event_hash" = .str (hex digest) := by
    simp [Python.Value.get, finalized.hash]
  have signatureIs : get event "signature" = .str signature := by
    simp [Python.Value.get, finalized.sign]
  have present : ∀ field ∈ type.required, has event field = true := by
    intro field member
    by_cases isHash : field = "event_hash"
    · rw [isHash]
      simp [has, finalized.hash]
    · by_cases isSignature : field = "signature"
      · rw [isSignature]
        simp [has, finalized.sign]
      · rw [← has_unsignedPayload_of_ne event field isHash isSignature, finalized.payload_eq]
        exact ((formed.fields field member).resolve_left isHash).resolve_left isSignature
  refine ⟨type, digest, key, ?_, ?_, ?_, ?_, ?_, finalized.digest_eq, hash, ?_, ?_⟩
  · rw [same _ (by decide) (by decide), formed.schema]
  · rw [same _ (by decide) (by decide), formed.typed]
  · have linked : has event "previous_event_hash" = true := by
      rw [← has_unsignedPayload_of_ne event _ (by decide) (by decide), finalized.payload_eq,
        formed.linked]
    simp only [missingFields, linked, if_true, List.append_nil, List.filter_eq_nil_iff]
    intro field member
    simp [present field member]
  · rw [← shapeIssues_unsignedPayload, finalized.payload_eq, formed.shape]
  · rw [same _ (by decide) (by decide), formed.link]
  · rw [signerOf, same _ (by decide) (by decide)]
    exact found
  · rw [signatureIs]
    exact verifies digest signature (finalized.payload_eq ▸ finalized.digest_eq) signed

/-- A checkpoint event is of the checkpoint type. -/
theorem checkpoint_of_isCheckpoint
    (formed : WellFormed host trusted events previous type payload sign)
    (stripped : unsignedPayload event = payload) (checkpoint : isCheckpoint event = true) :
    type = .checkpoint := by
  simp only [isCheckpoint, beq_iff_eq, asStr_eq_some] at checkpoint
  rw [get_of_payload stripped _ (by decide) (by decide), formed.typed, Json.str.injEq, lit_inj] at checkpoint
  revert checkpoint
  cases type <;> decide

end Finalized

/-! ## A valid file and one more event -/

/-- A clean event written on a blank fragment is the next event of a valid file. -/
theorem validFile_written {host : Host} {trusted : Keyring} {content line : Bytes} {events : List Dict}
    {event : Dict} (file : ValidFile host trusted content events) (blank : Blank (fragment content))
    (ok : DictOk host event) (encoded : encodeEvent host event = .ok line)
    (clean : IsClean host trusted (lastHash events) (checkpointsAfter [] events) event)
    (counted : isCheckpoint event = true → ∀ n ∈ countOf event, n ≤ (events.length : Int)) :
    ValidFile host trusted (content ++ (line ++ [10])) (events ++ [event]) where
  decoded := by
    rw [records_written_of_blank (solid_encodeEvent encoded) blank]
    exact decoded_append file.decoded (.cons (decodeLine_encodeEvent ok encoded) .nil)
  clean := by
    rw [cleanFrom_append, hashAfter_eq_lastHash]
    exact ⟨file.clean, clean, trivial⟩
  covered := by
    intro checkpoint newest n count
    rw [List.foldl_append, List.foldl_cons, List.foldl_nil, noteNewest] at newest
    simp only [List.length_append, List.length_singleton]
    split_ifs at newest with isOne
    · cases newest
      have := counted isOne n count
      omega
    · have := file.covered checkpoint newest n count
      omega

/-- The calls that append one event: a builder is run under the lock, with the hash of
the tail and whatever else the call passes it. -/
inductive Call (host : Host) (name : String) (file : Option Bytes)
    (Builds : (Option Str → Except PyError Dict) → Prop) : Appended → Prop where
  | event (build : Option Str → Except PyError Dict) (appended : Appended) (builds : Builds build)
      (returned : appendEvent host name file build = .ok appended) : Call host name file Builds appended
  | atomic (useIndex : Bool) (cache after : Journal.Idempotency.IdemCache) (query : Option (Str × Str))
      (build : Option Str → Option Str → Except PyError Dict) (appended : Appended)
      (builds : ∀ blocking, Builds (fun previous => build previous blocking))
      (returned : appendEventAtomic host useIndex name cache file query build = .ok (appended, after)) :
      Call host name file Builds appended
  | checkpoint (build : Nat → Option Str → Except PyError Dict) (appended : Appended)
      (builds : Builds (build (countEventLines (file.getD []))))
      (returned : appendCheckpoint host name file build = .ok appended) : Call host name file Builds appended

theorem Call.mono {host : Host} {name : String} {file : Option Bytes}
    {Builds Allows : (Option Str → Except PyError Dict) → Prop} {appended : Appended}
    (weaker : ∀ build, Builds build → Allows build) (call : Call host name file Builds appended) :
    Call host name file Allows appended := by
  cases call with
  | event build _ builds returned => exact .event build appended (weaker _ builds) returned
  | atomic useIndex cache after query build _ builds returned =>
    exact .atomic useIndex cache after query build appended (fun blocking => weaker _ (builds blocking)) returned
  | checkpoint build _ builds returned => exact .checkpoint build appended (weaker _ builds) returned

/-- Every such call builds on the tail and writes one line. -/
theorem Call.built {host : Host} {name : String} {file : Option Bytes}
    {Builds : (Option Str → Except PyError Dict) → Prop} {appended : Appended}
    (call : Call host name file Builds appended) :
    ∃ build, Builds build ∧ appendBuilt host name (file.getD []) build = .ok appended := by
  cases call with
  | event build _ builds returned => exact ⟨build, builds, returned⟩
  | atomic useIndex cache after query build _ builds returned =>
    simp only [appendEventAtomic, bind_eq_ok, pure, Except.pure, Except.ok.injEq, Prod.mk.injEq] at returned
    obtain ⟨looked, -, written, built, rfl, -⟩ := returned
    exact ⟨_, builds looked.1, built⟩
  | checkpoint build _ builds returned => exact ⟨_, builds, returned⟩

/-- A builder that finalizes and signs a well-formed payload on the hash it is given. -/
def Builds (host : Host) (trusted : Keyring) (events : List Dict)
    (build : Option Str → Except PyError Dict) : Prop :=
  ∀ previous event, build previous = .ok event → ∃ type payload sign,
    WellFormed host trusted events previous type payload sign ∧
      finalizeEvent host payload sign = .ok event

/-- What a call that returns has written: one line, that of an event the verifier is
clean with. -/
structure Wrote (host : Host) (trusted : Keyring) (content : Bytes) (events : List Dict)
    (appended : Appended) (line : Bytes) : Prop where
  content_eq : appended.content = content ++ (line ++ [10])
  encoded : encodeEvent host appended.event = .ok line
  ok : DictOk host appended.event
  clean : IsClean host trusted (lastHash events) (checkpointsAfter [] events) appended.event
  counted : isCheckpoint appended.event = true → ∀ n ∈ countOf appended.event, n ≤ (events.length : Int)

theorem Call.wrote {host : Host} {trusted : Keyring} {name : String} {file : Option Bytes}
    {events : List Dict} {appended : Appended} (decoded : Decoded host (records (file.getD [])) events)
    (call : Call host name file (Builds host trusted events) appended) :
    ∃ line, Wrote host trusted (file.getD []) events appended line := by
  obtain ⟨build, builds, built⟩ := call.built
  obtain ⟨line, tail, made, encoded, content⟩ := appendBuilt_eq_ok.mp built
  obtain ⟨type, payload, sign, formed, final⟩ := builds _ _ made
  obtain ⟨digest, signature, -, finalized⟩ :=
    finalizeEvent_spec formed.ok formed.noHash formed.noSignature final
  have previous := readLastEventHash_sound decoded tail
  refine ⟨line, content, encoded, finalized.ok, previous ▸ isClean_of_wellFormed formed final, ?_⟩
  intro isOne n count
  apply formed.counted (checkpoint_of_isCheckpoint formed finalized.payload_eq isOne) n
  rwa [countOf, ← get_of_payload finalized.payload_eq _ (by decide) (by decide)]

/-- A call on a valid file whose fragment is blank leaves a valid file. -/
theorem validFile_of_call {host : Host} {trusted : Keyring} {name : String} {file : Option Bytes}
    {events : List Dict} {appended : Appended} (valid : ValidFile host trusted (file.getD []) events)
    (blank : Blank (fragment (file.getD [])))
    (call : Call host name file (Builds host trusted events) appended) :
    ValidFile host trusted appended.content (events ++ [appended.event]) := by
  obtain ⟨line, wrote⟩ := call.wrote valid.decoded
  rw [wrote.content_eq]
  exact validFile_written valid blank wrote.ok wrote.encoded wrote.clean wrote.counted

/-- On any other fragment the new line is glued to the last one, and the file has as
many records as before. -/
theorem not_decoded_of_glued {host : Host} {trusted : Keyring} {content : Bytes} {events : List Dict}
    {appended : Appended} {line : Bytes} (decoded : Decoded host (records content) events)
    (glued : ¬ Blank (fragment content)) (wrote : Wrote host trusted content events appended line) :
    ¬ Decoded host (records appended.content) (events ++ [appended.event]) := by
  intro more
  have before := decoded.length_eq
  have after := more.length_eq
  rw [wrote.content_eq, length_records_written (solid_encodeEvent wrote.encoded) glued, before] at after
  simp at after

end Tesera.Verification.Extend
