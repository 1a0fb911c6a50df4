import Tesera.Canonical

/-!
The events the library builds: the records of an action, and those of the maintenance
commands, a checkpoint, a countersignature, a resolution and the archive record that
opens a new file. Each payload is given in key order, with the hash it is built on.
-/

namespace Tesera.Journal.Payloads
open Tesera.Text Tesera.Text.Unicode Tesera.Python.Value Tesera.Canonical

/-- A signing identity: the id of its key, and its signature of a digest. -/
structure Signer where
  keyId : Str
  sign : Bytes → Except PyError Str

/-- What a call makes up for its event: `new_event_id()` and `utc_timestamp()`. -/
structure Stamp where
  eventId : Str
  timestamp : Str

def checkpointPayload (signer : Signer) (stamp : Stamp) (count : Nat) (previous : Option Str) : Dict :=
  [(lit "checkpoint_count", .int count),
    (lit "event_id", .str stamp.eventId),
    (lit "event_type", .str (lit "checkpoint")),
    (lit "head_sha256", linkOf previous),
    (lit "key_id", .str signer.keyId),
    (lit "previous_event_hash", linkOf previous),
    (lit "schema_version", .str (lit "1")),
    (lit "timestamp_utc", .str stamp.timestamp)]

def countersignaturePayload (signer : Signer) (stamp : Stamp) (checkpointId : Str) (count head : Json)
    (previous : Option Str) : Dict :=
  [(lit "checkpoint_count", count),
    (lit "checkpoint_event_id", .str checkpointId),
    (lit "event_id", .str stamp.eventId),
    (lit "event_type", .str (lit "countersignature")),
    (lit "head_sha256", head),
    (lit "key_id", .str signer.keyId),
    (lit "previous_event_hash", linkOf previous),
    (lit "schema_version", .str (lit "1")),
    (lit "timestamp_utc", .str stamp.timestamp)]

def resolutionPayload (signer : Signer) (stamp : Stamp) (actionId actionName contractHash : Json)
    (decisionId resolution note : Str) (previous : Option Str) : Dict :=
  [(lit "action_id", actionId),
    (lit "action_name", actionName),
    (lit "contract_hash", contractHash),
    (lit "decision_event_id", .str decisionId),
    (lit "event_id", .str stamp.eventId),
    (lit "event_type", .str (lit "resolution")),
    (lit "key_id", .str signer.keyId),
    (lit "note", .str note),
    (lit "previous_event_hash", linkOf previous),
    (lit "resolution", .str resolution),
    (lit "schema_version", .str (lit "1")),
    (lit "timestamp_utc", .str stamp.timestamp)]

def archivePayload (signer : Signer) (stamp : Stamp) (count : Nat) (head : Option Str)
    (archivedPath : Str) : Dict :=
  [(lit "archived_path", .str archivedPath),
    (lit "event_id", .str stamp.eventId),
    (lit "event_type", .str (lit "archive")),
    (lit "key_id", .str signer.keyId),
    (lit "previous_event_hash", .null),
    (lit "prior_count", .int count),
    (lit "prior_head", linkOf head),
    (lit "schema_version", .str (lit "1")),
    (lit "timestamp_utc", .str stamp.timestamp)]

/-- The fields of a contract that the records of its action carry. -/
structure ActionContract where
  actionName : Str
  actionId : Str
  contractHash : Str
  risk : Str
  approvalMode : Str

/-- `payload.update(extra)`. -/
def update (payload extra : Dict) : Dict :=
  extra.foldl (fun updated p => Members.put p.1 p.2 updated) payload

/-- The payload of `_append_event`: the fields every record of an action has, and those of
its type. -/
def recordPayload (signer : Signer) (stamp : Stamp) (contract : ActionContract) (type : String)
    (previous : Option Str) (extra : Dict) : Dict :=
  update
    [(lit "action_id", .str contract.actionId),
      (lit "action_name", .str contract.actionName),
      (lit "contract_hash", .str contract.contractHash),
      (lit "event_id", .str stamp.eventId),
      (lit "event_type", .str (lit type)),
      (lit "key_id", .str signer.keyId),
      (lit "previous_event_hash", linkOf previous),
      (lit "schema_version", .str (lit "1")),
      (lit "timestamp_utc", .str stamp.timestamp)] extra

/-! ## Their values are well formed -/

/-- A payload whose keys are in order and whose values are well formed. -/
theorem dictOk_of_keys {host : Host} {payload : Dict} (keys : (payload.map Prod.fst).Pairwise (· < ·))
    (values : ∀ p ∈ payload, p.2.Ok host) : DictOk host payload :=
  dictOk_iff.mpr ⟨List.pairwise_map.mp keys, values⟩

theorem dictOk_checkpointPayload (host : Host) (signer : Signer) (stamp : Stamp) (count : Nat)
    (previous : Option Str) : DictOk host (checkpointPayload signer stamp count previous) := by
  apply dictOk_of_keys
  · simp only [checkpointPayload, List.map_cons, List.map_nil]
    decide
  · simp [checkpointPayload, Json.Ok, ok_linkOf]

theorem dictOk_countersignaturePayload {host : Host} (signer : Signer) (stamp : Stamp) (checkpointId : Str)
    {count head : Json} (previous : Option Str) (countOk : count.Ok host) (headOk : head.Ok host) :
    DictOk host (countersignaturePayload signer stamp checkpointId count head previous) := by
  apply dictOk_of_keys
  · simp only [countersignaturePayload, List.map_cons, List.map_nil]
    decide
  · simp [countersignaturePayload, Json.Ok, ok_linkOf, countOk, headOk]

theorem dictOk_resolutionPayload {host : Host} (signer : Signer) (stamp : Stamp)
    {actionId actionName contractHash : Json} (decisionId resolution note : Str) (previous : Option Str)
    (idOk : actionId.Ok host) (nameOk : actionName.Ok host) (contractOk : contractHash.Ok host) :
    DictOk host (resolutionPayload signer stamp actionId actionName contractHash decisionId resolution
      note previous) := by
  apply dictOk_of_keys
  · simp only [resolutionPayload, List.map_cons, List.map_nil]
    decide
  · simp [resolutionPayload, Json.Ok, ok_linkOf, idOk, nameOk, contractOk]

theorem dictOk_archivePayload (host : Host) (signer : Signer) (stamp : Stamp) (count : Nat)
    (head : Option Str) (archivedPath : Str) :
    DictOk host (archivePayload signer stamp count head archivedPath) := by
  apply dictOk_of_keys
  · simp only [archivePayload, List.map_cons, List.map_nil]
    decide
  · simp [archivePayload, Json.Ok, ok_linkOf]

theorem dictOk_update {host : Host} {payload extra : Dict} (ok : DictOk host payload)
    (values : ∀ p ∈ extra, p.2.Ok host) : DictOk host (update payload extra) := by
  unfold update
  induction extra generalizing payload with
  | nil => exact ok
  | cons p extra ih =>
    exact ih (dictOk_put ok p.1 (values p List.mem_cons_self))
      (fun q member => values q (List.mem_cons_of_mem p member))

theorem dictOk_recordPayload {host : Host} (signer : Signer) (stamp : Stamp) (contract : ActionContract)
    (type : String) (previous : Option Str) {extra : Dict} (values : ∀ p ∈ extra, p.2.Ok host) :
    DictOk host (recordPayload signer stamp contract type previous extra) := by
  apply dictOk_update _ values
  apply dictOk_of_keys
  · simp only [List.map_cons, List.map_nil]
    decide
  · simp [Json.Ok, ok_linkOf]

end Tesera.Journal.Payloads
