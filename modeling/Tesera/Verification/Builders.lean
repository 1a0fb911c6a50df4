import Tesera.Journal.Payloads
import Tesera.Verification.Extend

/-!
The payloads of the maintenance commands are well formed: signed by a trusted key after
the events they are built on, each is an event the verifier accepts there.
-/

namespace Tesera.Verification.Builders
open Tesera.Text Tesera.Text.Unicode Tesera.Python.Value Tesera.Canonical
open Tesera.Journal.Payloads Tesera.Journal.Tail
open Tesera.Verification.Event Tesera.Verification.Journal Tesera.Verification.Valid
open Tesera.Verification.Extend

/-- A signer whose key is trusted under the id it gives, and whose signatures verify. -/
def TrustedSigner (host : Host) (trusted : Keyring) (signer : Signer) : Prop :=
  ∃ key, Members.get trusted signer.keyId = some key ∧ ∀ digest signature,
    signer.sign digest = .ok signature → verifySignature host key digest signature = true

section Payloads

variable {host : Host} {trusted : Keyring} {events : List Dict} {signer : Signer} {stamp : Stamp}
  {previous : Option Str}

theorem signer_of_trusted {payload : Dict} (trustedSigner : TrustedSigner host trusted signer)
    (named : get payload "key_id" = .str signer.keyId) :
    ∃ key, signerOf trusted payload = some key ∧ ∀ digest signature,
      eventDigest host payload = .ok digest → signer.sign digest = .ok signature →
        verifySignature host key digest signature = true := by
  obtain ⟨key, found, verifies⟩ := trustedSigner
  refine ⟨key, ?_, fun digest signature _ signed => verifies digest signature signed⟩
  rw [signerOf, named]
  exact found

theorem wellFormed_checkpoint (trustedSigner : TrustedSigner host trusted signer) {count : Nat}
    (reached : count ≤ events.length) :
    WellFormed host trusted events previous .checkpoint (checkpointPayload signer stamp count previous)
      signer.sign where
  ok := dictOk_checkpointPayload host signer stamp count previous
  noHash := by simp [has, checkpointPayload, Members.get]
  noSignature := by simp [has, checkpointPayload, Members.get]
  schema := by simp [Python.Value.get, checkpointPayload, Members.get]
  typed := by simp [Python.Value.get, checkpointPayload, Members.get, EventType.name]
  fields := by simp [EventType.required, chainRequiredFields, has, checkpointPayload, Members.get]
  linked := by simp [has, checkpointPayload, Members.get]
  link := by simp [Python.Value.get, checkpointPayload, Members.get]
  shape := by
    simp [shapeIssues, checkpointShape, Python.Value.get, checkpointPayload, Members.get, pyEq_linkOf,
      badCount, asInt]
  counted := by
    intro _ n counted
    simp only [countOf, Python.Value.get, checkpointPayload, Members.get] at counted
    simp [asInt] at counted
    omega
  signer := signer_of_trusted trustedSigner (by simp [Python.Value.get, checkpointPayload, Members.get])

/-- A number is equal to itself. -/
theorem pyEq_self_of_asInt (host : Host) {v : Json} {n : Int} (value : asInt v = some n) :
    pyEq host v v = true := by
  cases v <;> simp_all [asInt, pyEq, number, Number.eq]

theorem ok_of_asInt (host : Host) {v : Json} {n : Int} (value : asInt v = some n) : v.Ok host := by
  cases v with
  | bool b => simp [Json.Ok]
  | int m => simp [Json.Ok]
  | _ => simp [asInt] at value

/-- A countersignature of the newest checkpoint. -/
theorem wellFormed_countersignature (trustedSigner : TrustedSigner host trusted signer) {checkpoint : Dict}
    {checkpointId : Str} {n : Int} {link : Option Str}
    (known : Members.get (checkpointsAfter [] events) checkpointId = some checkpoint)
    (count : countOf checkpoint = some n) (positive : 0 ≤ n)
    (head : get checkpoint "head_sha256" = linkOf link) :
    WellFormed host trusted events previous .countersignature
      (countersignaturePayload signer stamp checkpointId (get checkpoint "checkpoint_count")
        (get checkpoint "head_sha256") previous) signer.sign where
  ok := by
    exact dictOk_countersignaturePayload signer stamp checkpointId previous (ok_of_asInt host count)
      (head ▸ ok_linkOf host link)
  noHash := by simp [has, countersignaturePayload, Members.get]
  noSignature := by simp [has, countersignaturePayload, Members.get]
  schema := by simp [Python.Value.get, countersignaturePayload, Members.get]
  typed := by simp [Python.Value.get, countersignaturePayload, Members.get, EventType.name]
  fields := by
    simp [EventType.required, chainRequiredFields, has, countersignaturePayload, Members.get]
  linked := by simp [has, countersignaturePayload, Members.get]
  link := by simp [Python.Value.get, countersignaturePayload, Members.get]
  shape := by
    have sameCount := pyEq_self_of_asInt host count
    have sameHead : pyEq host (get checkpoint "head_sha256") (get checkpoint "head_sha256") = true := by
      rw [head, pyEq_linkOf]
    have counted : badCount 0 (get checkpoint "checkpoint_count") = false := by
      have isInt : asInt (get checkpoint "checkpoint_count") = some n := count
      simp [badCount, isInt, positive]
    have id : asStr (get (countersignaturePayload signer stamp checkpointId
        (get checkpoint "checkpoint_count") (get checkpoint "head_sha256") previous)
          "checkpoint_event_id") = some checkpointId := by
      simp [Python.Value.get, countersignaturePayload, Members.get, asStr]
    have countIs : get (countersignaturePayload signer stamp checkpointId
        (get checkpoint "checkpoint_count") (get checkpoint "head_sha256") previous)
          "checkpoint_count" = get checkpoint "checkpoint_count" := by
      simp [Python.Value.get, countersignaturePayload, Members.get]
    have headIs : get (countersignaturePayload signer stamp checkpointId
        (get checkpoint "checkpoint_count") (get checkpoint "head_sha256") previous)
          "head_sha256" = get checkpoint "head_sha256" := by
      simp [Python.Value.get, countersignaturePayload, Members.get]
    simp [shapeIssues, countersignatureShape, referencedCheckpoint, id, known, countIs, headIs, sameCount,
      sameHead, counted]
  counted := by simp
  signer := signer_of_trusted trustedSigner
    (by simp [Python.Value.get, countersignaturePayload, Members.get])

theorem wellFormed_resolution (trustedSigner : TrustedSigner host trusted signer)
    {actionId actionName contractHash : Json} {decisionId resolution note : Str}
    (idOk : actionId.Ok host) (nameOk : actionName.Ok host) (contractOk : contractHash.Ok host)
    (known : resolution ∈ knownResolutions.map lit) :
    WellFormed host trusted events previous .resolution
      (resolutionPayload signer stamp actionId actionName contractHash decisionId resolution note previous)
      signer.sign where
  ok := dictOk_resolutionPayload signer stamp decisionId resolution note previous idOk nameOk contractOk
  noHash := by simp [has, resolutionPayload, Members.get]
  noSignature := by simp [has, resolutionPayload, Members.get]
  schema := by simp [Python.Value.get, resolutionPayload, Members.get]
  typed := by simp [Python.Value.get, resolutionPayload, Members.get, EventType.name]
  fields := by
    simp [EventType.required, sharedRequiredFields, has, resolutionPayload, Members.get]
  linked := by simp [has, resolutionPayload, Members.get]
  link := by simp [Python.Value.get, resolutionPayload, Members.get]
  shape := by
    have isKnown : inSet knownResolutions (.str resolution) = .ok true := by simp only [inSet, known, decide_true]
    simp [shapeIssues, resolutionShape, Python.Value.get, resolutionPayload, Members.get, isKnown, notStr,
      asStr, issueIf, bind, Except.bind, pure, Except.pure]
  counted := by simp
  signer := signer_of_trusted trustedSigner (by simp [Python.Value.get, resolutionPayload, Members.get])

/-- An archive record opens a file. -/
theorem wellFormed_archive (trustedSigner : TrustedSigner host trusted signer) {count : Nat}
    {head : Option Str} {archivedPath : Str} (positive : 1 ≤ count) (bare : notBareName archivedPath = false) :
    WellFormed host trusted [] none .archive (archivePayload signer stamp count head archivedPath)
      signer.sign where
  ok := dictOk_archivePayload host signer stamp count head archivedPath
  noHash := by simp [has, archivePayload, Members.get]
  noSignature := by simp [has, archivePayload, Members.get]
  schema := by simp [Python.Value.get, archivePayload, Members.get]
  typed := by simp [Python.Value.get, archivePayload, Members.get, EventType.name]
  fields := by simp [EventType.required, chainRequiredFields, has, archivePayload, Members.get]
  linked := by simp [has, archivePayload, Members.get]
  link := by simp [Python.Value.get, archivePayload, Members.get, linkOf]
  shape := by
    have counted : ¬ (count : Int) < 1 := by omega
    simp [shapeIssues, archiveShape, Python.Value.get, archivePayload, Members.get, badCount, asInt, counted,
      bare]
  counted := by simp
  signer := signer_of_trusted trustedSigner (by simp [Python.Value.get, archivePayload, Members.get])

/-- A field that an update does not have stays. -/
theorem get_update_of_notMem {payload extra : Dict} {field : Str} (apart : field ∉ extra.map Prod.fst) :
    Members.get (update payload extra) field = Members.get payload field := by
  unfold update
  induction extra generalizing payload with
  | nil => rfl
  | cons p extra ih =>
    simp only [List.map_cons, List.mem_cons, not_or] at apart
    rw [List.foldl_cons, ih apart.2, Members.get_put_of_ne apart.1]

/-- A field that an update has is there. -/
theorem isSome_get_update {payload extra : Dict} {field : Str}
    (there : (Members.get payload field).isSome = true ∨ field ∈ extra.map Prod.fst) :
    (Members.get (update payload extra) field).isSome = true := by
  unfold update
  induction extra generalizing payload with
  | nil => simpa using there
  | cons p extra ih =>
    rw [List.foldl_cons]
    apply ih
    by_cases same : field = p.1
    · left
      rw [same, Members.get_put_self]
      rfl
    · rw [Members.get_put_of_ne same]
      simpa [same] using there

/-- The fields of every record, and the two that seal it. -/
def recordFields : List String :=
  ["action_id", "action_name", "contract_hash", "event_id", "event_type", "key_id", "previous_event_hash",
    "schema_version", "timestamp_utc", "event_hash", "signature"]

/-- A decision or an outcome of an action, with the fields of its type beside those of
every record. -/
theorem wellFormed_recordPayload (trustedSigner : TrustedSigner host trusted signer) {contract : ActionContract}
    {type : EventType} {extra : Dict} (values : ∀ p ∈ extra, p.2.Ok host)
    (apart : ∀ field ∈ recordFields, lit field ∉ extra.map Prod.fst)
    (complete : ∀ field ∈ type.required, field ∈ recordFields ∨ lit field ∈ extra.map Prod.fst)
    (record : type = .decision ∨ (type = .outcome ∧ outcomeShape 0
      (recordPayload signer stamp contract type.name previous extra) = [])) :
    WellFormed host trusted events previous type
      (recordPayload signer stamp contract type.name previous extra) signer.sign := by
  have kept : ∀ field ∈ recordFields, Members.get (recordPayload signer stamp contract type.name previous extra)
      (lit field) = Members.get (recordPayload signer stamp contract type.name previous []) (lit field) := by
    intro field member
    exact get_update_of_notMem (apart field member)
  constructor
  · exact dictOk_recordPayload signer stamp contract type.name previous values
  · rw [has, kept _ (by decide)]
    simp [recordPayload, update, Members.get]
  · rw [has, kept _ (by decide)]
    simp [recordPayload, update, Members.get]
  · rw [Python.Value.get, kept _ (by decide)]
    simp [recordPayload, update, Members.get]
  · rw [Python.Value.get, kept _ (by decide)]
    simp [recordPayload, update, Members.get]
  · intro field required
    by_cases hash : field = "event_hash"
    · exact .inl hash
    · by_cases signature : field = "signature"
      · exact .inr (.inl signature)
      · right
        right
        apply isSome_get_update
        apply (complete field required).imp_left
        intro member
        simp only [recordFields, List.mem_cons, List.not_mem_nil, hash, signature, or_false] at member
        rcases member with rfl | rfl | rfl | rfl | rfl | rfl | rfl | rfl | rfl <;> simp [Members.get]
  · rw [has, kept _ (by decide)]
    simp [recordPayload, update, Members.get]
  · rw [Python.Value.get, kept _ (by decide)]
    simp [recordPayload, update, Members.get]
  · rcases record with rfl | ⟨rfl, shape⟩
    · rfl
    · exact congrArg Except.ok shape
  · rintro rfl
    rcases record with impossible | ⟨impossible, -⟩ <;> cases impossible
  · apply signer_of_trusted trustedSigner
    rw [Python.Value.get, kept _ (by decide)]
    simp [recordPayload, update, Members.get]

end Payloads

end Tesera.Verification.Builders
