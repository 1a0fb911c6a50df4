import Tesera.Journal.Append
import Tesera.Journal.Payloads
import Tesera.Verification.Event

/-!
The evidence home of a signer: its private key, its public key and the keys it trusts, and what
`identity.py` does with them. A key is registered before it signs, and a rotation keeps the outgoing
one. Every write may fail, with nothing or only a part of the file written.
-/

namespace Tesera.Identity
open Tesera.Text Tesera.Text.Unicode Tesera.Python.Value Tesera.Canonical
open Tesera.Journal.Payloads Tesera.Journal.Append Tesera.Verification.Event

/-- An Ed25519 private key; its public key accepts what it signs. -/
structure PrivateKey where
  publicKey : PublicKey
  sign : Bytes → Bytes
  accepted : ∀ digest, publicKey.accepts (sign digest) digest = true

/-- `base64.b64encode`, which `b64decode` undoes. -/
structure Encoder (host : Host) where
  encode : Bytes → Str
  decoded : ∀ bytes, host.b64decode (encode bytes) = some bytes

/-- `signing_key.pem`: the key, if the file can be loaded, and whether others may read it. -/
structure PrivateFile where
  key : Option PrivateKey
  exposed : Bool

/-- The files of an evidence home; a public key file that cannot be loaded holds `none`. The files of
`trusted_keys` come in the order of their names. -/
structure Home where
  privateFile : Option PrivateFile
  publicFile : Option (Option PublicKey)
  trustedKeys : Members.Entries Str (Option PublicKey)

def Home.empty : Home := ⟨none, none, []⟩

/-- How a write ends: it is done, or it raises before or after the file is truncated. -/
inductive Write where
  | written
  | refused
  | torn
  deriving DecidableEq

/-- The file after a write. -/
def Write.file {α : Type} (write : Write) (old : Option α) (content broken : α) : Option α :=
  match write with
  | .written => some content
  | .refused => old
  | .torn => some broken

section Homes

variable (host : Host)

/-- `public_key_fingerprint`. -/
def publicKeyFingerprint (key : PublicKey) : Str := hex (host.sha256 key.raw)

def pemName (key : PublicKey) : Str := publicKeyFingerprint host key ++ lit ".pem"

/-- `register_public_key`, and whether it returns. -/
def registerPublicKey (write : Write) (key : PublicKey) (home : Home) : Home × Bool :=
  if (Members.get home.trustedKeys (pemName host key)).isSome then (home, true)
  else match write with
    | .written => ({ home with trustedKeys := Members.put (pemName host key) (some key) home.trustedKeys }, true)
    | .refused => (home, false)
    | .torn => ({ home with trustedKeys := Members.put (pemName host key) none home.trustedKeys }, false)

/-- The keys of some files, if each of them loads. -/
def loadAll (files : List (Str × Option PublicKey)) : Option (List PublicKey) := files.mapM Prod.snd

/-- `LocalSigningIdentity.sign`, under the id of the key. -/
def signerOf (encoder : Encoder host) (key : PrivateKey) : Signer where
  keyId := keyIdFor host key.publicKey
  sign := fun digest => .ok (encoder.encode (key.sign digest))

/-- How the writes of `load_or_create` end. -/
structure LoadWrites where
  privateKey : Write
  publicKey : Write
  healed : Write
  trusted : Write

/-- The key that `load_or_create` goes on with; `generated` is a new one. -/
def loadKey (writes : LoadWrites) (generated : PrivateKey) (home : Home) : Home × Option PrivateKey :=
  match home.privateFile with
  | some file => (home, if file.exposed then none else file.key)
  | none =>
      let stored := { home with privateFile := writes.privateKey.file none ⟨some generated, false⟩ ⟨none, false⟩ }
      if writes.privateKey = .written then
        ({ stored with publicFile := writes.publicKey.file stored.publicFile (some generated.publicKey) none },
          if writes.publicKey = .written then some generated else none)
      else (stored, none)

/-- `LocalSigningIdentity.load_or_create`. -/
def loadOrCreate (writes : LoadWrites) (generated : PrivateKey) (home : Home) : Home × Option PrivateKey :=
  match loadKey writes generated home with
  | (loaded, none) => (loaded, none)
  | (loaded, some key) =>
      let heals := loaded.publicFile.isNone
      let healed := if heals then
        { loaded with publicFile := writes.healed.file loaded.publicFile (some key.publicKey) none } else loaded
      if heals && writes.healed ≠ .written then (healed, none)
      else
        let registered := registerPublicKey host writes.trusted key.publicKey healed
        (registered.1, if registered.2 then some key else none)

/-! ## Rotation -/

/-- The payload of `record_rotation_event`. -/
def rotationPayload (signer : Signer) (stamp : Stamp) (successor : PublicKey) (previous : Option Str) : Dict :=
  [(lit "event_id", .str stamp.eventId),
    (lit "event_type", .str (lit "rotation")),
    (lit "key_id", .str signer.keyId),
    (lit "previous_event_hash", linkOf previous),
    (lit "prior_key_id", .str signer.keyId),
    (lit "schema_version", .str (lit "1")),
    (lit "successor_fingerprint", .str (publicKeyFingerprint host successor)),
    (lit "successor_key_id", .str (keyIdFor host successor)),
    (lit "timestamp_utc", .str stamp.timestamp)]

/-- `build` of `record_rotation_event`. -/
def buildRotation (signer : Signer) (stamp : Stamp) (successor : PublicKey) (previous : Option Str) : Except PyError Dict :=
  finalizeEvent host (rotationPayload host signer stamp successor previous) signer.sign

/-- How the writes of `rotate_key` end; `recorded` tells of the append, which may also raise once its
line is written. -/
structure RotationWrites where
  registerPublic : Write
  registerPrivate : Write
  recorded : Bool
  privateKey : Write
  publicKey : Write
  registerNew : Write

/-- The public key file in the loop of `rotate_key`: its key stays trusted. Errors are passed over. -/
def retirePublic (write : Write) (home : Home) : Home :=
  match home.publicFile with
  | some (some key) => (registerPublicKey host write key home).1
  | _ => home

/-- The private key file in that loop: the outgoing key is loaded, and stays trusted. -/
def retirePrivate (write : Write) (home : Home) : Home × Option PrivateKey :=
  match home.privateFile with
  | some ⟨some key, false⟩ => ((registerPublicKey host write key.publicKey home).1, some key)
  | _ => (home, none)

def retire (writes : RotationWrites) (home : Home) : Home × Option PrivateKey :=
  retirePrivate host writes.registerPrivate (retirePublic host writes.registerPublic home)

/-- The journal after the outgoing key has named its successor, if it is asked to and there is one. A
failure of the append is passed over. -/
def recordRotation (encoder : Encoder host) (name : String) (record recorded : Bool) (prior : Option PrivateKey)
    (stamp : Stamp) (successor : PublicKey) (journal : Option Bytes) : Option Bytes :=
  match prior, journal with
  | some key, some content =>
      if record && recorded then
        match appendBuilt host name content (buildRotation host (signerOf host encoder key) stamp successor) with
        | .ok appended => some appended.content
        | .error _ => some content
      else some content
  | _, _ => journal

/-- `rotate_key`: the home and the journal it leaves, and whether it returns. -/
def rotateKey (encoder : Encoder host) (name : String) (writes : RotationWrites) (record : Bool) (stamp : Stamp)
    (newKey : PrivateKey) (home : Home) (journal : Option Bytes) : Home × Option Bytes × Bool :=
  let retired := retire host writes home
  let after := recordRotation host encoder name record writes.recorded retired.2 stamp newKey.publicKey journal
  let stored := { retired.1 with
    privateFile := writes.privateKey.file retired.1.privateFile ⟨some newKey, false⟩ ⟨none, false⟩ }
  if writes.privateKey = .written then
    let published := { stored with publicFile := writes.publicKey.file stored.publicFile (some newKey.publicKey) none }
    if writes.publicKey = .written then
      let registered := registerPublicKey host writes.registerNew newKey.publicKey published
      (registered.1, after, registered.2)
    else (published, after, false)
  else (stored, after, false)

end Homes

end Tesera.Identity
