import Tesera.Engine.Events
import Tesera.Identity
import Tesera.Transition
import Tesera.Verification.Builders
import Tesera.Verification.Custody

/-!
Key rotation and the journal. The keys of a home only grow in number, and a key is among them before an
event is signed with it; so that a journal of guarded calls, checkpoints and rotations verifies against
the keys its home trusts, as long as no key names itself as its successor.
-/

namespace Tesera.Verification.Successors
open Tesera.Text Tesera.Text.Unicode Tesera.Text.Lines Tesera.Python.Value Tesera.Canonical Tesera.Transition
open Tesera.Text.Json (hexDigit)
open Tesera.Journal.Record Tesera.Journal.Tail Tesera.Journal.Append Tesera.Journal.Payloads
open Tesera.Verification.Event (PublicKey Keyring EventType keyIdFor toKeyring verifySignature shapeIssues rotationShape
  isFingerprint isLowerHex issueIf chainRequiredFields outcomeShape)
open Tesera.Verification.Journal Tesera.Verification.Valid Tesera.Verification.Extend Tesera.Verification.Builders
open Tesera.Engine.Events Tesera.Identity
open Tesera.Approval (ApprovalDecision Verdict)

/-! ## Fingerprints -/

theorem isLowerHex_hexDigit {n : Nat} (small : n < 16) : isLowerHex (hexDigit n) = true := by
  have all : ∀ m < 16, isLowerHex (hexDigit m) = true := by decide
  exact all n small

theorem length_hex (bytes : Bytes) : (hex bytes).length = 2 * bytes.length := by
  induction bytes with
  | nil => rfl
  | cons b bytes ih =>
    rw [hex, List.flatMap_cons, List.length_append, ← hex, ih, List.length_cons]
    simp only [List.length_cons, List.length_nil]
    omega

theorem isFingerprint_hex {bytes : Bytes} (length : bytes.length = 32) : isFingerprint (hex bytes) = true := by
  rw [isFingerprint, length_hex, length, Bool.and_eq_true]
  refine ⟨by decide, ?_⟩
  rw [List.all_eq_true]
  intro c member
  obtain ⟨b, -, digit⟩ := List.mem_flatMap.mp member
  have bound : b.toNat < 256 := b.toNat_lt
  simp only [List.mem_cons, List.not_mem_nil, or_false] at digit
  rcases digit with rfl | rfl
  · exact isLowerHex_hexDigit (by omega)
  · exact isLowerHex_hexDigit (by omega)

/-! ## Rotation events -/

section Events

variable {host : Host} {trusted : Keyring} {events : List Dict} {signer : Signer} {stamp : Stamp} {successor : PublicKey}
  {previous : Option Str}

theorem keyIdFor_eq (key : PublicKey) : keyIdFor host key = lit "ed25519:" ++ (publicKeyFingerprint host key).take 16 := rfl

/-- A rotation has the shape the verifier asks for exactly when the successor has another id. -/
theorem rotationShape_iff (digests : ∀ bytes, (host.sha256 bytes).length = 32) {line : Nat} :
    rotationShape host line (rotationPayload host signer stamp successor previous) = [] ↔
      signer.keyId ≠ keyIdFor host successor := by
  have prior : get (rotationPayload host signer stamp successor previous) "prior_key_id" = .str signer.keyId := by
    simp [Python.Value.get, rotationPayload, Members.get]
  have key : get (rotationPayload host signer stamp successor previous) "key_id" = .str signer.keyId := by
    simp [Python.Value.get, rotationPayload, Members.get]
  have named : get (rotationPayload host signer stamp successor previous) "successor_key_id" =
      .str (keyIdFor host successor) := by simp [Python.Value.get, rotationPayload, Members.get]
  have fingerprint : get (rotationPayload host signer stamp successor previous) "successor_fingerprint" =
      .str (publicKeyFingerprint host successor) := by simp [Python.Value.get, rotationPayload, Members.get]
  have isOne : isFingerprint (publicKeyFingerprint host successor) = true := isFingerprint_hex (digests _)
  simp [rotationShape, prior, key, named, fingerprint, isOne, keyIdFor_eq, pyEq, asStr, issueIf, Option.filter]

theorem dictOk_rotationPayload : DictOk host (rotationPayload host signer stamp successor previous) := by
  apply dictOk_of_keys
  · simp only [rotationPayload, List.map_cons, List.map_nil]
    decide
  · simp [rotationPayload, Json.Ok, ok_linkOf]

/-- A rotation to another key, signed by a trusted one. -/
theorem wellFormed_rotationPayload (digests : ∀ bytes, (host.sha256 bytes).length = 32)
    (trustedSigner : TrustedSigner host trusted signer) (other : signer.keyId ≠ keyIdFor host successor) :
    WellFormed host trusted events previous .rotation (rotationPayload host signer stamp successor previous) signer.sign where
  ok := dictOk_rotationPayload
  noHash := by simp [has, rotationPayload, Members.get]
  noSignature := by simp [has, rotationPayload, Members.get]
  schema := by simp [Python.Value.get, rotationPayload, Members.get]
  typed := by simp [Python.Value.get, rotationPayload, Members.get, EventType.name]
  fields := by simp [EventType.required, chainRequiredFields, has, rotationPayload, Members.get]
  linked := by simp [has, rotationPayload, Members.get]
  link := by simp [Python.Value.get, rotationPayload, Members.get]
  shape := congrArg Except.ok ((rotationShape_iff digests).mpr other)
  counted := by
    intro impossible
    cases impossible
  signer := signer_of_trusted trustedSigner (by simp [Python.Value.get, rotationPayload, Members.get])

end Events

/-! ## Keyrings -/

section Keyrings

variable {host : Host} {trusted more : Keyring} {keys : List PublicKey} {Used : PublicKey → Prop}

/-- The keyring has every key that the other one has. -/
def Holds (trusted more : Keyring) : Prop := ∀ id key, Members.get trusted id = some key → Members.get more id = some key

theorem isClean_mono {previous : Option Str} {checkpoints : Event.Checkpoints} {event : Dict} (holds : Holds trusted more)
    (clean : IsClean host trusted previous checkpoints event) : IsClean host more previous checkpoints event := by
  obtain ⟨type, digest, signer, clean⟩ := clean
  refine ⟨type, digest, signer, clean.schema, clean.typed, clean.fields, clean.shape, clean.link, clean.hashed,
    clean.stored, ?_, clean.verified⟩
  obtain ⟨id, named, found⟩ := Option.bind_eq_some_iff.mp clean.signed
  exact Option.bind_eq_some_iff.mpr ⟨id, named, holds id signer found⟩

theorem cleanFrom_mono (holds : Holds trusted more) {events : List Dict} {previous : Option Str}
    {checkpoints : Event.Checkpoints} (clean : CleanFrom host trusted previous checkpoints events) :
    CleanFrom host more previous checkpoints events := by
  induction events generalizing previous checkpoints with
  | nil => trivial
  | cons event events ih => exact ⟨isClean_mono holds clean.1, ih clean.2⟩

theorem validFile_mono (holds : Holds trusted more) {content : Bytes} {events : List Dict}
    (file : ValidFile host trusted content events) : ValidFile host more content events :=
  ⟨file.decoded, cleanFrom_mono holds file.clean, file.covered⟩

/-- Where ids tell the keys in use apart, a keyring finds each of its keys. -/
theorem get_toKeyring (apart : ∀ a b, Used a → Used b → keyIdFor host a = keyIdFor host b → a = b)
    (used : ∀ key ∈ keys, Used key) {key : PublicKey} (member : key ∈ keys) :
    Members.get (toKeyring host keys) (keyIdFor host key) = some key := by
  rw [toKeyring, Members.get_ofPairs]
  cases found : Members.last (keys.map (fun key => (keyIdFor host key, key))) (keyIdFor host key) with
  | none =>
    have isSome : (Members.last (keys.map (fun key => (keyIdFor host key, key))) (keyIdFor host key)).isSome = true := by
      rw [Members.isSome_last, List.map_map]
      exact List.mem_map.mpr ⟨key, member, rfl⟩
    rw [found] at isSome
    cases isSome
  | some other =>
    rw [← Members.get_ofPairs] at found
    obtain ⟨one, inside, same⟩ := List.mem_map.mp (Members.mem_ofPairs (Members.mem_of_get found))
    obtain ⟨ids, rfl⟩ := Prod.mk.inj same
    rw [apart one key (used one inside) (used key member) ids]

theorem holds_toKeyring (apart : ∀ a b, Used a → Used b → keyIdFor host a = keyIdFor host b → a = b)
    {others : List PublicKey} (used : ∀ key ∈ others, Used key) (subset : ∀ key ∈ keys, key ∈ others) :
    Holds (toKeyring host keys) (toKeyring host others) := by
  intro id key found
  obtain ⟨one, inside, same⟩ := List.mem_map.mp (Members.mem_ofPairs (Members.mem_of_get found))
  obtain ⟨rfl, rfl⟩ := Prod.mk.inj same
  exact get_toKeyring apart used (subset one inside)

/-- A key of the keyring signs for it. -/
theorem trusted_signerOf (encoder : Encoder host) (apart : ∀ a b, Used a → Used b → keyIdFor host a = keyIdFor host b → a = b)
    (used : ∀ key ∈ keys, Used key) {key : PrivateKey} (member : key.publicKey ∈ keys) :
    TrustedSigner host (toKeyring host keys) (signerOf host encoder key) := by
  refine ⟨key.publicKey, get_toKeyring apart used member, ?_⟩
  rintro digest signature ⟨⟩
  rw [verifySignature, encoder.decoded]
  exact key.accepted digest

end Keyrings

/-! ## The keys of a home -/

section Homes

variable {host : Host} {Used : PublicKey → Prop} {home : Home} {write : Write} {key : PublicKey}

/-- The trusted keys, each in the file that is named for it. -/
structure Kept (host : Host) (Used : PublicKey → Prop) (home : Home) (keys : List PublicKey) : Prop where
  loaded : loadAll home.trustedKeys = some keys
  named : ∀ file ∈ home.trustedKeys, ∃ key, file = (pemName host key, some key)
  used : ∀ key ∈ keys, Used key
  publicFile : ∀ key, home.publicFile = some (some key) → Used key
  privateFile : ∀ file key, home.privateFile = some file → file.key = some key → Used key.publicKey

theorem mem_loadAll {files : List (Str × Option PublicKey)} {keys : List PublicKey} (loaded : loadAll files = some keys) :
    key ∈ keys ↔ ∃ file ∈ files, file.2 = some key := by
  induction files generalizing keys with
  | nil =>
    cases loaded
    simp
  | cons file files ih =>
    simp only [loadAll, List.mapM_cons, Option.bind_eq_bind, Option.bind_eq_some_iff, Option.pure_def,
      Option.some.injEq] at loaded
    obtain ⟨one, first, others, rest, rfl⟩ := loaded
    rw [List.mem_cons, ih rest, List.exists_mem_cons_iff, first, Option.some.injEq]
    exact or_congr_left eq_comm

theorem loadAll_isSome {files : List (Str × Option PublicKey)} (loads : ∀ file ∈ files, file.2.isSome = true) :
    ∃ keys, loadAll files = some keys := by
  induction files with
  | nil => exact ⟨[], rfl⟩
  | cons file files ih =>
    rw [List.forall_mem_cons] at loads
    obtain ⟨one, first⟩ := Option.isSome_iff_exists.mp loads.1
    obtain ⟨others, rest⟩ := ih loads.2
    refine ⟨one :: others, ?_⟩
    simp only [loadAll, List.mapM_cons, first, Option.bind_eq_bind, Option.bind_some]
    rw [loadAll] at rest
    rw [rest]
    rfl

theorem kept_empty : Kept host Used .empty [] where
  loaded := rfl
  named := List.forall_mem_nil _
  used := List.forall_mem_nil _
  publicFile := by simp [Home.empty]
  privateFile := by simp [Home.empty]

/-- Registration keeps what was trusted, and where it returns the key is. -/
theorem kept_registerPublicKey (apart : ∀ a b, Used a → Used b → keyIdFor host a = keyIdFor host b → a = b)
    {keys : List PublicKey} (kept : Kept host Used home keys) (used : Used key) (whole : write ≠ .torn) :
    ∃ others, Kept host Used (registerPublicKey host write key home).1 others ∧ (∀ one ∈ keys, one ∈ others) ∧
      ((registerPublicKey host write key home).2 = true → key ∈ others) := by
  unfold registerPublicKey
  by_cases there : (Members.get home.trustedKeys (pemName host key)).isSome = true
  · rw [if_pos there]
    refine ⟨keys, kept, fun _ member => member, ?_⟩
    intro _
    obtain ⟨file, found⟩ := Option.isSome_iff_exists.mp there
    have member := Members.mem_of_get found
    obtain ⟨other, same⟩ := kept.named _ member
    obtain ⟨names, rfl⟩ := Prod.mk.inj same
    have inside : other ∈ keys := (mem_loadAll kept.loaded).mpr ⟨_, member, rfl⟩
    have ids : keyIdFor host key = keyIdFor host other := by
      rw [keyIdFor_eq, keyIdFor_eq, List.append_cancel_right names]
    rwa [apart key other used (kept.used other inside) ids]
  · rw [if_neg there]
    cases write with
    | torn => exact absurd rfl whole
    | refused => exact ⟨keys, kept, fun _ member => member, fun impossible => by cases impossible⟩
    | written =>
      have files : ∀ file ∈ Members.put (pemName host key) (some key) home.trustedKeys,
          file = (pemName host key, some key) ∨ file ∈ home.trustedKeys := fun file member => Members.mem_put member
      have named : ∀ file ∈ Members.put (pemName host key) (some key) home.trustedKeys,
          ∃ one, file = (pemName host one, some one) := by
        intro file member
        rcases files file member with rfl | before
        · exact ⟨key, rfl⟩
        · exact kept.named file before
      obtain ⟨others, loaded⟩ := @loadAll_isSome (Members.put (pemName host key) (some key) home.trustedKeys) (by
        intro file member
        obtain ⟨one, rfl⟩ := named file member
        rfl)
      refine ⟨others, ⟨loaded, named, ?_, kept.publicFile, kept.privateFile⟩, ?_, ?_⟩
      · intro one member
        obtain ⟨file, inside, holds⟩ := (mem_loadAll loaded).mp member
        rcases files file inside with rfl | before
        · cases holds
          exact used
        · exact kept.used one ((mem_loadAll kept.loaded).mpr ⟨file, before, holds⟩)
      · intro one member
        obtain ⟨file, inside, holds⟩ := (mem_loadAll kept.loaded).mp member
        refine (mem_loadAll loaded).mpr ⟨file, Members.mem_put_of_ne inside ?_, holds⟩
        intro same
        exact there (Members.isSome_get.mpr (List.mem_map.mpr ⟨file, inside, same⟩))
      · intro _
        exact (mem_loadAll loaded).mpr ⟨_, Members.mem_put_self _ _ _, rfl⟩

/-- A key file that is written holds a key in use. -/
theorem Kept.publish {keys : List PublicKey} (kept : Kept host Used home keys) (used : Used key) :
    Kept host Used { home with publicFile := write.file home.publicFile (some key) none } keys where
  loaded := kept.loaded
  named := kept.named
  used := kept.used
  publicFile := by
    intro one found
    cases write with
    | written =>
      cases found
      exact used
    | refused => exact kept.publicFile one found
    | torn => cases found
  privateFile := kept.privateFile

theorem Kept.store {keys : List PublicKey} {own : PrivateKey} (kept : Kept host Used home keys) (used : Used own.publicKey) :
    Kept host Used { home with
      privateFile := write.file home.privateFile ⟨some own, false⟩ ⟨none, false⟩ } keys where
  loaded := kept.loaded
  named := kept.named
  used := kept.used
  publicFile := kept.publicFile
  privateFile := by
    intro file one found holds
    cases write with
    | written =>
      cases found
      cases holds
      exact used
    | refused => exact kept.privateFile file one found holds
    | torn =>
      cases found
      cases holds

theorem kept_loadKey {keys : List PublicKey} {writes : LoadWrites} {generated : PrivateKey}
    (kept : Kept host Used home keys) (used : Used generated.publicKey) :
    Kept host Used (loadKey writes generated home).1 keys ∧
      ∀ own, (loadKey writes generated home).2 = some own → Used own.publicKey := by
  unfold loadKey
  cases there : home.privateFile with
  | some file =>
    refine ⟨kept, ?_⟩
    intro own found
    by_cases exposed : file.exposed = true
    · simp only [if_pos exposed, reduceCtorEq] at found
    · simp only [if_neg exposed] at found
      exact kept.privateFile file own there found
  | none =>
    have stored := @Kept.store host Used home writes.privateKey keys generated kept used
    rw [there] at stored
    by_cases written : writes.privateKey = .written
    · simp only [if_pos written]
      refine ⟨stored.publish used, ?_⟩
      intro own found
      split_ifs at found
      cases found
      exact used
    · simp only [if_neg written]
      exact ⟨stored, fun own found => by cases found⟩

/-- A key that is loaded is trusted. -/
theorem kept_loadOrCreate (apart : ∀ a b, Used a → Used b → keyIdFor host a = keyIdFor host b → a = b)
    {keys : List PublicKey} {writes : LoadWrites} {generated : PrivateKey} (kept : Kept host Used home keys)
    (used : Used generated.publicKey) (whole : writes.trusted ≠ .torn) :
    ∃ others, Kept host Used (loadOrCreate host writes generated home).1 others ∧ (∀ one ∈ keys, one ∈ others) ∧
      ∀ own, (loadOrCreate host writes generated home).2 = some own → own.publicKey ∈ others := by
  obtain ⟨after, usedOwn⟩ := @kept_loadKey host Used home keys writes generated kept used
  unfold loadOrCreate
  cases loads : loadKey writes generated home with
  | mk loaded result =>
    rw [loads] at after usedOwn
    cases result with
    | none => exact ⟨keys, after, fun _ member => member, fun own found => by cases found⟩
    | some own =>
      have usedKey : Used own.publicKey := usedOwn own rfl
      have healed : Kept host Used (if loaded.publicFile.isNone = true then
          { loaded with publicFile := writes.healed.file loaded.publicFile (some own.publicKey) none }
          else loaded) keys := by
        by_cases heals : loaded.publicFile.isNone = true
        · rw [if_pos heals]
          exact after.publish usedKey
        · rw [if_neg heals]
          exact after
      by_cases stops : (loaded.publicFile.isNone && decide (writes.healed ≠ .written)) = true
      · simp only [if_pos stops]
        exact ⟨keys, healed, fun _ member => member, fun one found => by cases found⟩
      · simp only [if_neg stops]
        obtain ⟨others, registered, subset, member⟩ := kept_registerPublicKey apart healed usedKey whole
        refine ⟨others, registered, subset, ?_⟩
        intro one found
        obtain ⟨returned, same⟩ := Option.ite_none_right_eq_some.mp found
        cases same
        exact member returned

theorem kept_retirePublic (apart : ∀ a b, Used a → Used b → keyIdFor host a = keyIdFor host b → a = b)
    {keys : List PublicKey} (kept : Kept host Used home keys) (whole : write ≠ .torn) :
    ∃ others, Kept host Used (retirePublic host write home) others ∧ ∀ one ∈ keys, one ∈ others := by
  unfold retirePublic
  cases published : home.publicFile with
  | none => exact ⟨keys, kept, fun _ member => member⟩
  | some file =>
    cases file with
    | none => exact ⟨keys, kept, fun _ member => member⟩
    | some key =>
      obtain ⟨others, registered, subset, -⟩ := kept_registerPublicKey apart kept (kept.publicFile key published) whole
      exact ⟨others, registered, subset⟩

/-- The outgoing key, where it is loaded, is trusted. -/
theorem kept_retirePrivate (apart : ∀ a b, Used a → Used b → keyIdFor host a = keyIdFor host b → a = b)
    {keys : List PublicKey} (kept : Kept host Used home keys) :
    ∃ others, Kept host Used (retirePrivate host .written home).1 others ∧ (∀ one ∈ keys, one ∈ others) ∧
      ∀ own, (retirePrivate host .written home).2 = some own → own.publicKey ∈ others := by
  unfold retirePrivate
  split
  next own stored =>
    obtain ⟨others, registered, subset, member⟩ :=
      @kept_registerPublicKey host Used home .written own.publicKey apart keys kept
        (kept.privateFile _ own stored rfl) (by decide)
    refine ⟨others, registered, subset, ?_⟩
    intro one found
    cases found
    apply member
    unfold registerPublicKey
    split_ifs <;> rfl
  next => exact ⟨keys, kept, fun _ member => member, fun own found => by cases found⟩

theorem kept_retire (apart : ∀ a b, Used a → Used b → keyIdFor host a = keyIdFor host b → a = b)
    {keys : List PublicKey} {writes : RotationWrites} (kept : Kept host Used home keys)
    (wholePublic : writes.registerPublic ≠ .torn) (written : writes.registerPrivate = .written) :
    ∃ others, Kept host Used (retire host writes home).1 others ∧ (∀ one ∈ keys, one ∈ others) ∧
      ∀ own, (retire host writes home).2 = some own → own.publicKey ∈ others := by
  obtain ⟨others, known, subset⟩ := kept_retirePublic apart kept wholePublic
  obtain ⟨more, retired, wider, outgoing⟩ := kept_retirePrivate apart known
  rw [retire, written]
  exact ⟨more, retired, fun one member => wider one (subset one member), outgoing⟩

/-- `rotate_key` leaves a home that trusts what it did and what it loaded, and the key it returns. -/
theorem kept_rotateKey (apart : ∀ a b, Used a → Used b → keyIdFor host a = keyIdFor host b → a = b)
    {keys : List PublicKey} {writes : RotationWrites} {encoder : Encoder host} {name : String} {record : Bool}
    {stamp : Stamp} {newKey : PrivateKey} {journal : Option Bytes} (kept : Kept host Used home keys)
    (used : Used newKey.publicKey) (wholePublic : writes.registerPublic ≠ .torn)
    (written : writes.registerPrivate = .written) (wholeNew : writes.registerNew ≠ .torn) :
    ∃ others, Kept host Used (rotateKey host encoder name writes record stamp newKey home journal).1 others ∧
      (∀ one ∈ keys, one ∈ others) ∧ (∀ own, (retire host writes home).2 = some own → own.publicKey ∈ others) ∧
      ((rotateKey host encoder name writes record stamp newKey home journal).2.2 = true → newKey.publicKey ∈ others) := by
  obtain ⟨others, retired, subset, outgoing⟩ := kept_retire apart kept wholePublic written
  have stored := @Kept.store host Used _ writes.privateKey others newKey retired used
  unfold rotateKey
  by_cases private' : writes.privateKey = .written
  · simp only [if_pos private']
    by_cases public' : writes.publicKey = .written
    · simp only [if_pos public']
      obtain ⟨more, registered, wider, member⟩ := kept_registerPublicKey apart
        (@Kept.publish host Used _ writes.publicKey newKey.publicKey others stored used) used wholeNew
      exact ⟨more, registered, fun one inside => wider one (subset one inside),
        fun own found => wider _ (outgoing own found), member⟩
    · simp only [if_neg public']
      exact ⟨others, stored.publish used, subset, outgoing, fun impossible => by cases impossible⟩
  · simp only [if_neg private']
    exact ⟨others, stored, subset, outgoing, fun impossible => by cases impossible⟩

end Homes

/-! ## Stations -/

/-- What is recorded of a guarded call. -/
inductive Record where
  | decision (call : Engine.Events.Call) (decision : ApprovalDecision)
  | duplicate (call : Engine.Events.Call) (prior : Option Str)
  | outcome (contract : ActionContract) (id : Str) (ending : Ending)

def Record.type : Record → String
  | .decision .. => "decision"
  | .duplicate .. => "decision"
  | .outcome .. => "outcome"

def Record.contract : Record → ActionContract
  | .decision call _ => call.contract
  | .duplicate call _ => call.contract
  | .outcome contract _ _ => contract

def Record.extra : Record → Dict
  | .decision call verdict => allowedExtra call verdict
  | .duplicate call prior => duplicateExtra call prior
  | .outcome _ id ending => outcomeExtra (.str id) ending

/-- Metadata and receipts are values that can be written, and a receipt is an object. -/
def Record.Ok (host : Host) : Record → Prop
  | .decision call _ => ∀ v ∈ call.metadata, v.Ok host
  | .duplicate call _ => ∀ v ∈ call.metadata, v.Ok host
  | .outcome _ _ ending => ∀ v ∈ ending.receipt, v.Ok host ∧ ∃ fields, v = .dict fields

/-- An evidence home with its journal, and the keys that processes have loaded. -/
structure Station where
  home : Home
  journal : Option Bytes
  loaded : List PrivateKey

def Station.empty : Station := ⟨.empty, none, []⟩

inductive Action where
  | load (writes : LoadWrites) (generated : PrivateKey)
  | append (holder : Nat) (stamp : Stamp) (record : Record)
  | checkpoint (holder : Nat) (stamp : Stamp)
  | rotate (writes : RotationWrites) (record : Bool) (stamp : Stamp) (newKey : PrivateKey)

section Stations

variable (host : Host) (encoder : Encoder host) (name : String)

/-- The journal after an append, which may raise once the file is opened. -/
def appended (journal : Option Bytes) (result : Except PyError Appended) : Option Bytes :=
  match result with
  | .ok done => some done.content
  | .error _ => some (journal.getD [])

def step (station : Station) : Action → Option Station
  | .load writes generated =>
      let result := loadOrCreate host writes generated station.home
      some ⟨result.1, station.journal, station.loaded ++ result.2.toList⟩
  | .append holder stamp record => station.loaded[holder]?.map fun key =>
      let signer := Identity.signerOf host encoder key
      { station with journal := appended station.journal (appendEvent host name station.journal
          (buildEvent host signer stamp record.contract record.type record.extra)) }
  | .checkpoint holder stamp => station.loaded[holder]?.map fun key =>
      let signer := Identity.signerOf host encoder key
      { station with journal := appended station.journal (appendCheckpoint host name station.journal
          (fun count previous => finalizeEvent host (checkpointPayload signer stamp count previous) signer.sign)) }
  | .rotate writes record stamp newKey =>
      let result := rotateKey host encoder name writes record stamp newKey station.home station.journal
      some ⟨result.1, result.2.1, station.loaded ++ (if result.2.2 then [newKey] else [])⟩

/-- What is asked of an action: the records can be written, no trusted key file is left broken, and
a rotation that is recorded is one to a key with another id. -/
def Assumed (Used : PublicKey → Prop) (station : Station) : Action → Prop
  | .load writes generated => Used generated.publicKey ∧ writes.trusted ≠ .torn
  | .append _ _ record => record.Ok host
  | .checkpoint .. => True
  | .rotate writes record _ newKey => Used newKey.publicKey ∧ writes.registerPublic ≠ .torn ∧
      writes.registerPrivate = .written ∧ writes.registerNew ≠ .torn ∧
      (record = true → ∀ outgoing, (retire host writes station.home).2 = some outgoing →
        keyIdFor host outgoing.publicKey ≠ keyIdFor host newKey.publicKey)

/-- A journal that exists is valid, and made of whole lines. -/
def Verifies (trusted : Keyring) (journal : Option Bytes) : Prop :=
  ∀ content, journal = some content → ∃ events, ValidFile host trusted content events ∧ fragment content = []

/-- The journal is valid under the keys that the home trusts, and the loaded keys are among them. -/
structure Sound (Used : PublicKey → Prop) (station : Station) (keys : List PublicKey) : Prop where
  kept : Kept host Used station.home keys
  held : ∀ own ∈ station.loaded, own.publicKey ∈ keys
  valid : Verifies host (toKeyring host keys) station.journal
  opened : station.journal.isSome = true → keys ≠ []

end Stations

/-! ## Records -/

/-- The fields that the records of a call add to those of every record. -/
def ownFields : List String :=
  ["decision", "risk", "approval_mode", "redacted_input_summary", "parameter_retention", "input_hash", "approval_reason",
    "approved_by", "idempotency_key", "spend_cents", "duplicate_of", "dry_run", "metadata", "status", "decision_event_id",
    "observed_result_type", "redacted_output_hash", "receipt", "exception_type", "sanitized_error_summary"]

theorem own_append {first second : Dict} (left : ∀ p ∈ first, p.1 ∈ ownFields.map lit)
    (right : ∀ p ∈ second, p.1 ∈ ownFields.map lit) : ∀ p ∈ first ++ second, p.1 ∈ ownFields.map lit := by
  intro p member
  exact (List.mem_append.mp member).elim (left p) (right p)

theorem own_optional {field : String} (value : Option Json) (own : lit field ∈ ownFields.map lit) :
    ∀ p ∈ optional field value, p.1 ∈ ownFields.map lit := by
  intro p member
  obtain ⟨v, -, rfl⟩ := List.mem_map.mp member
  exact own

theorem own_extra (record : Record) : ∀ p ∈ record.extra, p.1 ∈ ownFields.map lit := by
  cases record with
  | decision call verdict =>
    apply own_append
    · simp only [List.forall_mem_cons, List.not_mem_nil, false_implies, implies_true, and_true]
      decide
    · apply own_append (own_optional _ (by decide))
      apply own_append (own_optional _ (by decide))
      apply own_append (own_optional _ (by decide))
      exact own_append (own_optional _ (by decide)) (own_optional _ (by decide))
  | duplicate call prior =>
    apply own_append
    · simp only [List.forall_mem_cons, List.not_mem_nil, false_implies, implies_true, and_true]
      decide
    · apply own_append (own_optional _ (by decide))
      exact own_append (own_optional _ (by decide)) (own_optional _ (by decide))
  | outcome contract id ending =>
    apply own_append
    · simp only [List.forall_mem_cons, List.not_mem_nil, false_implies, implies_true, and_true]
      decide
    · cases ending with
      | returned type outputHash receipt =>
        apply own_append
        · simp only [List.forall_mem_cons, List.not_mem_nil, false_implies, implies_true, and_true]
          decide
        · exact own_append (own_optional _ (by decide)) (own_optional _ (by decide))
      | raised type summary =>
        simp only [Ending.fields, List.forall_mem_cons, List.not_mem_nil, false_implies, implies_true, and_true]
        decide

def Record.eventType : Record → EventType
  | .decision .. => .decision
  | .duplicate .. => .decision
  | .outcome .. => .outcome

theorem type_eq (record : Record) : record.type = record.eventType.name := by
  cases record <;> rfl

theorem complete_extra (record : Record) : ∀ field ∈ record.eventType.required,
    field ∈ recordFields ∨ lit field ∈ record.extra.map Prod.fst := by
  have split : ∀ {fixed rest : Dict} {required : List String},
      (∀ field ∈ required, field ∈ recordFields ∨ lit field ∈ fixed.map Prod.fst) →
        ∀ field ∈ required, field ∈ recordFields ∨ lit field ∈ (fixed ++ rest).map Prod.fst := by
    intro fixed rest required complete field member
    rw [List.map_append]
    exact (complete field member).imp_right (List.mem_append_left _)
  cases record with
  | decision call verdict =>
    apply split
    simp only [Record.eventType, List.map_cons, List.map_nil]
    decide
  | duplicate call prior =>
    apply split
    simp only [Record.eventType, List.map_cons, List.map_nil]
    decide
  | outcome contract id ending =>
    apply split
    simp only [Record.eventType, List.map_cons, List.map_nil]
    decide

theorem valuesOk_extra {host : Host} {record : Record} (ok : record.Ok host) : ValuesOk host record.extra := by
  cases record with
  | decision call verdict => exact valuesOk_allowedExtra ok
  | duplicate call prior => exact valuesOk_duplicateExtra ok
  | outcome contract id ending => exact valuesOk_outcomeExtra (fun v found => (ok v found).1)

/-- The receipt of an outcome is an object. -/
theorem outcomeShape_record {host : Host} {signer : Signer} {stamp : Stamp} {contract : ActionContract} {id : Str}
    {ending : Ending} {previous : Option Str} (ok : (Record.outcome contract id ending).Ok host) :
    outcomeShape 0 (recordPayload signer stamp contract "outcome" previous (outcomeExtra (.str id) ending)) = [] := by
  have found : Members.get (recordPayload signer stamp contract "outcome" previous (outcomeExtra (.str id) ending))
      (lit "receipt") = ending.receipt := by
    rw [recordPayload, get_update]
    cases ending <;> simp [outcomeExtra, Ending.fields, Ending.receipt, last_append, last_optional, Members.last, Members.get]
  rw [outcomeShape]
  cases receipt : ending.receipt with
  | none =>
    rw [receipt] at found
    simp [has, found, issueIf]
  | some value =>
    obtain ⟨-, fields, rfl⟩ := ok value receipt
    rw [receipt] at found
    simp [Python.Value.get, found, asDict, issueIf]

/-- What is recorded of a call is accepted after any events. -/
theorem wellFormed_record {host : Host} {trusted : Keyring} {events : List Dict} {signer : Signer} {stamp : Stamp}
    {previous : Option Str} {record : Record} (trustedSigner : TrustedSigner host trusted signer) (ok : record.Ok host) :
    WellFormed host trusted events previous record.eventType
      (recordPayload signer stamp record.contract record.type previous record.extra) signer.sign := by
  have apart : ∀ field ∈ recordFields, lit field ∉ record.extra.map Prod.fst := by
    have disjoint : ∀ field ∈ recordFields, lit field ∉ ownFields.map lit := by decide
    intro field member inside
    obtain ⟨p, isField, same⟩ := List.mem_map.mp inside
    exact disjoint field member (same ▸ own_extra record p isField)
  rw [type_eq]
  apply wellFormed_recordPayload trustedSigner (valuesOk_extra ok) apart (complete_extra record)
  cases record with
  | decision call verdict => exact .inl rfl
  | duplicate call prior => exact .inl rfl
  | outcome contract id ending => exact .inr ⟨rfl, outcomeShape_record ok⟩

section Runs

variable {host : Host} {encoder : Encoder host} {name : String} {Used : PublicKey → Prop} {station after : Station}
  {keys : List PublicKey}

theorem sound_empty : Sound host Used .empty [] where
  kept := kept_empty
  held := List.forall_mem_nil _
  valid := by
    intro content found
    cases found
  opened := by
    intro impossible
    cases impossible

/-- A journal that no one has opened is as good as an empty one. -/
theorem Verifies.content {trusted : Keyring} {journal : Option Bytes} (verifies : Verifies host trusted journal) :
    ∃ events, ValidFile host trusted (journal.getD []) events ∧ fragment (journal.getD []) = [] := by
  cases found : journal with
  | none => exact ⟨[], ⟨.nil, trivial, by simp [Covered]⟩, rfl⟩
  | some content => exact verifies content found

/-- A journal that verifies still does after a call that builds well-formed events. -/
theorem Verifies.append {trusted : Keyring} {journal : Option Bytes} {result : Except PyError Appended}
    (verifies : Verifies host trusted journal)
    (call : ∀ events, ValidFile host trusted (journal.getD []) events → ∀ done, result = .ok done →
      Call host name journal (Extend.Builds host trusted events) done) :
    Verifies host trusted (appended journal result) := by
  obtain ⟨events, file, whole⟩ := verifies.content
  intro content found
  cases returned : result with
  | error e =>
    rw [returned] at found
    cases found
    exact ⟨events, file, whole⟩
  | ok done =>
    rw [returned] at found
    cases found
    have made := call events file done returned
    have blank : Blank (fragment (journal.getD [])) := by
      rw [whole]
      exact blank_nil
    obtain ⟨line, wrote⟩ := made.wrote file.decoded
    refine ⟨_, validFile_of_call file blank made, ?_⟩
    rw [wrote.content_eq, ← List.append_assoc]
    exact Custody.fragment_newline _

/-- What a rotation records keeps the journal valid, where its outgoing key is trusted and has another id than
the successor. -/
theorem verifies_recordRotation (digests : ∀ bytes, (host.sha256 bytes).length = 32) {trusted : Keyring}
    {record recorded : Bool} {prior : Option PrivateKey} {stamp : Stamp} {successor : PublicKey} {journal : Option Bytes}
    (verifies : Verifies host trusted journal)
    (signs : ∀ own, prior = some own → TrustedSigner host trusted (Identity.signerOf host encoder own))
    (other : record = true → ∀ own, prior = some own → keyIdFor host own.publicKey ≠ keyIdFor host successor) :
    Verifies host trusted (recordRotation host encoder name record recorded prior stamp successor journal) := by
  cases prior with
  | none => exact verifies
  | some own =>
    cases journal with
    | none => exact verifies
    | some content =>
      rw [recordRotation]
      by_cases isRecorded : (record && recorded) = true
      · rw [if_pos isRecorded]
        obtain ⟨asked, -⟩ := Bool.and_eq_true_iff.mp isRecorded
        have after := @Verifies.append host name trusted (some content) (appendBuilt host name content
            (buildRotation host (Identity.signerOf host encoder own) stamp successor)) verifies (by
          intro events file done returned
          have call : appendEvent host name (some content)
            (buildRotation host (Identity.signerOf host encoder own) stamp successor) = .ok done := returned
          apply Call.event _ done _ call
          intro previous event built
          exact ⟨.rotation, _, _, wellFormed_rotationPayload digests (signs own rfl) (other asked own rfl), built⟩)
        cases result : appendBuilt host name content
            (buildRotation host (Identity.signerOf host encoder own) stamp successor) with
        | error e => exact verifies
        | ok done =>
          rw [result] at after
          exact after
      · rw [if_neg isRecorded]
        exact verifies

theorem isSome_recordRotation {record recorded : Bool} {prior : Option PrivateKey} {stamp : Stamp} {successor : PublicKey}
    {journal : Option Bytes} : (recordRotation host encoder name record recorded prior stamp successor journal).isSome =
      journal.isSome := by
  unfold recordRotation
  cases prior with
  | none => rfl
  | some own =>
    cases journal with
    | none => rfl
    | some content =>
      simp only []
      split_ifs
      · cases appendBuilt host name content (buildRotation host (Identity.signerOf host encoder own) stamp successor) <;> rfl
      · rfl

/-- The journal of `rotate_key`, whatever becomes of the key files. -/
theorem rotateKey_journal {writes : RotationWrites} {record : Bool} {stamp : Stamp} {newKey : PrivateKey} {home : Home}
    {journal : Option Bytes} : (rotateKey host encoder name writes record stamp newKey home journal).2.1 =
      recordRotation host encoder name record writes.recorded (retire host writes home).2 stamp newKey.publicKey journal := by
  unfold rotateKey
  split_ifs <;> rfl

/-- A home that trusts more keys, and more of them loaded. -/
theorem Sound.wider (apart : ∀ a b, Used a → Used b → keyIdFor host a = keyIdFor host b → a = b)
    (sound : Sound host Used station keys) {home : Home} {others : List PublicKey} {more : List PrivateKey}
    (kept : Kept host Used home others) (subset : ∀ one ∈ keys, one ∈ others) (held : ∀ own ∈ more, own.publicKey ∈ others) :
    Sound host Used ⟨home, station.journal, station.loaded ++ more⟩ others where
  kept := kept
  held := by
    intro own member
    exact (List.mem_append.mp member).elim (fun before => subset _ (sound.held own before)) (held own)
  valid := by
    intro content found
    obtain ⟨events, file, whole⟩ := sound.valid content found
    exact ⟨events, validFile_mono (holds_toKeyring apart kept.used subset) file, whole⟩
  opened := by
    intro isSome
    obtain ⟨one, member⟩ := List.exists_mem_of_ne_nil keys (sound.opened isSome)
    exact List.ne_nil_of_mem (subset one member)

/-- The holder of a loaded key appends. -/
theorem Sound.append (sound : Sound host Used station keys) {own : PrivateKey} (holds : own ∈ station.loaded)
    {result : Except PyError Appended}
    (call : ∀ events, ValidFile host (toKeyring host keys) (station.journal.getD []) events → ∀ done, result = .ok done →
      Call host name station.journal (Extend.Builds host (toKeyring host keys) events) done) :
    Sound host Used { station with journal := appended station.journal result } keys where
  kept := sound.kept
  held := sound.held
  valid := sound.valid.append call
  opened := fun _ => List.ne_nil_of_mem (sound.held own holds)

/-- Every action keeps a sound station sound, and no trusted key is lost. -/
theorem sound_step (apart : ∀ a b, Used a → Used b → keyIdFor host a = keyIdFor host b → a = b)
    (digests : ∀ bytes, (host.sha256 bytes).length = 32) (sound : Sound host Used station keys) {action : Action}
    (assumed : Assumed host Used station action) (taken : step host encoder name station action = some after) :
    ∃ others, Sound host Used after others ∧ ∀ one ∈ keys, one ∈ others := by
  cases action with
  | load writes generated =>
    cases taken
    obtain ⟨used, whole⟩ := assumed
    obtain ⟨others, kept, subset, loaded⟩ := kept_loadOrCreate apart sound.kept used whole
    refine ⟨others, sound.wider apart kept subset ?_, subset⟩
    intro own member
    exact loaded own (Option.mem_toList.mp member)
  | append holder stamp record =>
    obtain ⟨own, found, rfl⟩ := Option.map_eq_some_iff.mp taken
    have holds := List.mem_of_getElem? found
    refine ⟨keys, @Sound.append host name Used station keys sound own holds _ ?_, fun _ member => member⟩
    intro events file done returned
    apply Call.event _ done _ returned
    intro previous event built
    have signs := trusted_signerOf encoder apart sound.kept.used (sound.held own holds)
    exact ⟨record.eventType, _, _, wellFormed_record signs assumed, built⟩
  | checkpoint holder stamp =>
    obtain ⟨own, found, rfl⟩ := Option.map_eq_some_iff.mp taken
    have holds := List.mem_of_getElem? found
    refine ⟨keys, @Sound.append host name Used station keys sound own holds _ ?_, fun _ member => member⟩
    intro events file done returned
    apply Call.checkpoint _ done _ returned
    intro previous event built
    have signs := trusted_signerOf encoder apart sound.kept.used (sound.held own holds)
    exact ⟨.checkpoint, _, _, wellFormed_checkpoint signs (le_of_eq file.decoded.length_eq), built⟩
  | rotate writes record stamp newKey =>
    cases taken
    obtain ⟨used, wholePublic, written, wholeNew, other⟩ := assumed
    obtain ⟨others, kept, subset, outgoing, returned⟩ := @kept_rotateKey host Used station.home apart keys writes encoder
      name record stamp newKey station.journal sound.kept used wholePublic written wholeNew
    have held : ∀ own ∈ (if (rotateKey host encoder name writes record stamp newKey station.home station.journal).2.2 then
        [newKey] else []), own.publicKey ∈ others := by
      intro own member
      split_ifs at member with done
      · rw [List.mem_singleton.mp member]
        exact returned done
      · cases member
    have wider := sound.wider apart kept subset held
    refine ⟨others, ⟨wider.kept, wider.held, ?_, ?_⟩, subset⟩
    · simp only [rotateKey_journal]
      apply verifies_recordRotation digests wider.valid _ other
      intro own found
      exact trusted_signerOf encoder apart wider.kept.used (outgoing own found)
    · intro isSome
      simp only [rotateKey_journal, isSome_recordRotation] at isSome
      exact wider.opened isSome

/-- Every run keeps the station sound. -/
theorem sound_run (digests : ∀ bytes, (host.sha256 bytes).length = 32)
    (apart : ∀ a b, Used a → Used b → keyIdFor host a = keyIdFor host b → a = b) {actions : List Action}
    (run : Run (step host encoder name) (Assumed host Used) .empty actions station) : ∃ keys, Sound host Used station keys := by
  apply run.keeps _ ⟨[], sound_empty⟩
  intro before action after assumed sound taken
  obtain ⟨keys, sound⟩ := sound
  obtain ⟨others, kept, -⟩ := sound_step apart digests sound assumed taken
  exact ⟨others, kept⟩

end Runs

/-! ## A station whose key is rotated -/

end Tesera.Verification.Successors
