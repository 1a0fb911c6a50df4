import Tesera.Commands.Archive
import Tesera.Commands.Checkpoint
import Tesera.Commands.Operator
import Tesera.Verification.Builders
import Tesera.Verification.Custody
import Tesera.Verification.Preserve

/-!
Runs of the writer's operations, one after the other, from a journal that is absent.
Every operation keeps the journal a chain of custody, whether it returns or raises: the
live file holds events that verify and its archive records lead through the files it was
archived as.
-/

namespace Tesera.Verification.WriterRuns
open Tesera.Effects Tesera.Text Tesera.Text.Unicode Tesera.Text.Lines Tesera.Python.Value Tesera.Canonical
open Tesera.Journal.Record Tesera.Journal.Tail Tesera.Journal.Payloads Tesera.Journal.Idempotency
open Tesera.Journal.Append Tesera.Journal.Store
open Tesera.Commands.Archive Tesera.Commands.Checkpoint Tesera.Commands.Operator
open Tesera.Verification.Event (PublicKey Keyring EventType notBareName toKeyring)
open Tesera.Verification.Journal Tesera.Verification.Valid Tesera.Verification.Extend
open Tesera.Verification.Builders Tesera.Verification.Chain Tesera.Verification.Custody
open Tesera.Verification.Preserve

/-! ## Operations -/

/-- The operations that write to a journal, with their arguments. -/
inductive Op where
  | append (build : Option Str → Except PyError Dict)
  | appendAtomic (useIndex : Bool) (cache : IdemCache) (query : Option (Str × Str))
      (build : Option Str → Option Str → Except PyError Dict)
  | checkpoint (identity : Except PyError Signer) (stamp : Stamp) (witness : WitnessPath)
  | countersign (identity : Except PyError Signer) (stamp : Stamp)
  | resolve (identity : Except PyError Signer) (stamp : Stamp) (decisionId resolution note : Str)
  | archive (identity : Except PyError Signer) (stamp : Stamp) (time : Time)

/-- The operation with its report dropped. -/
def Op.run (host : Host) (journal : Str) (io : Io) : Op → Command Unit
  | .append build => do
      let _ ← appendAt io journal (fun file => appendEvent host (shown journal) file build)
  | .appendAtomic useIndex cache query build => do
      let _ ← appendAt io journal (fun file =>
        (appendEventAtomic host useIndex (shown journal) cache file query build).map Prod.fst)
  | .checkpoint identity stamp witness => do
      let _ ← checkpointJournal host io journal identity stamp witness
  | .countersign identity stamp => do
      let _ ← countersignJournal host io journal identity stamp
  | .resolve identity stamp decisionId resolution note => do
      let _ ← resolveJournal host io journal identity stamp decisionId resolution note
  | .archive identity stamp time => do
      let _ ← archiveJournal host io journal identity stamp time

/-- A builder of finalized decision and outcome events. -/
def BuildsRecord (host : Host) (trusted : Keyring) (build : Option Str → Except PyError Dict) : Prop :=
  ∀ previous event, build previous = .ok event → ∃ type payload sign,
    (type = .decision ∨ type = .outcome) ∧ WellFormed host trusted [] previous type payload sign ∧
      finalizeEvent host payload sign = .ok event

def Trusts (host : Host) (trusted : Keyring) (identity : Except PyError Signer) : Prop :=
  ∀ signer, identity = .ok signer → TrustedSigner host trusted signer

/-- Appends are of finalized records, and every signing key is trusted. -/
def Op.Signed (host : Host) (trusted : Keyring) : Op → Prop
  | .append build => BuildsRecord host trusted build
  | .appendAtomic _ _ _ build => ∀ blocking, BuildsRecord host trusted (fun previous => build previous blocking)
  | .checkpoint identity _ _ => Trusts host trusted identity
  | .countersign identity _ => Trusts host trusted identity
  | .resolve identity _ _ _ _ => Trusts host trusted identity
  | .archive identity _ _ => Trusts host trusted identity

/-- An explicit witness path names neither the live journal nor a file it was archived
as. -/
def Op.Apart (journal : Str) (world : World) : Op → Prop
  | .checkpoint _ _ (.named name) => name ≠ journal ∧ name ∉ world.archived
  | _ => True

/-- The worlds that runs of allowed operations lead to. An operation may raise, and the
next one finds what it left. -/
inductive Reached (host : Host) (journal : Str) (Allowed : World → Op → Prop) : World → Prop where
  | absent {world : World} (none : world.file journal = none) (nothing : world.archived = []) :
      Reached host journal Allowed world
  | step {world after : World} {result : Except PyError Unit} (io : Io) (op : Op)
      (reached : Reached host journal Allowed world) (allowed : Allowed world op)
      (ran : op.run host journal io world = (result, after)) : Reached host journal Allowed after

/-! ## Custody -/

/-- The live journal, with the files it was archived as from the newest to the oldest. -/
structure InCustody (host : Host) (trusted : Keyring) (journal : Str) (events : List Dict)
    (names : List Str) (world : World) : Prop where
  chain : Chain host trusted world journal events names
  distinct : (journal :: names).Nodup
  listed : names.Sublist world.archived
  ending : ∀ name ∈ names, name.getLast? = some 108

/-- The invariant of a run. -/
def Stands (host : Host) (trusted : Keyring) (journal : Str) (world : World) : Prop :=
  ∃ events names, InCustody host trusted journal events names world

section Custody

variable {host : Host} {trusted : Keyring} {journal : Str} {events : List Dict} {names : List Str}
  {world : World}

/-- A journal that holds nothing is in custody. -/
theorem stands_of_empty (nothing : (world.file journal).getD [] = []) : Stands host trusted journal world := by
  refine ⟨[], [], ?_, List.nodup_singleton journal, List.nil_sublist _, List.forall_mem_nil _⟩
  apply Chain.genesis
  · rw [nothing]
    exact kept_nil host trusted
  · simp

theorem InCustody.touch (custody : InCustody host trusted journal events names world) :
    InCustody host trusted journal events names (world.touch journal) where
  chain := by
    apply custody.chain.rename
    · rw [World.file_touch, if_pos rfl]
    · intro file member
      have other : file ≠ journal := fun same => (List.nodup_cons.mp custody.distinct).1 (same ▸ member)
      rw [World.file_touch, if_neg other]
  distinct := custody.distinct
  listed := by
    rw [World.archived_touch]
    exact custody.listed
  ending := custody.ending

theorem InCustody.write_other (custody : InCustody host trusted journal events names world) {name : Str}
    (apart : name ∉ journal :: names) (content : Bytes) :
    InCustody host trusted journal events names (world.write name content) where
  chain := by
    apply custody.chain.frame
    intro file member
    have other : file ≠ name := fun same => apart (same ▸ member)
    rw [World.file_write, if_neg other]
  distinct := custody.distinct
  listed := custody.listed
  ending := custody.ending

theorem InCustody.append (custody : InCustody host trusted journal events names world) {content : Bytes}
    {event : Dict} (kept : Kept host trusted content (events ++ [event])) (record : isArchive event = false) :
    InCustody host trusted journal (events ++ [event]) names (world.write journal content) where
  chain := by
    apply custody.chain.append _ record
    · intro file member
      have other : file ≠ journal := fun same => (List.nodup_cons.mp custody.distinct).1 (same ▸ member)
      rw [World.file_write, if_neg other]
    · rwa [World.file_write, if_pos rfl, Option.getD_some]
  distinct := custody.distinct
  listed := custody.listed
  ending := custody.ending

/-! ## Appends -/

/-- A builder of well-formed events that are no archive records, and whose checkpoints
have ids. -/
def Makes (host : Host) (trusted : Keyring) (events : List Dict) (build : Option Str → Except PyError Dict) :
    Prop :=
  ∀ previous event, build previous = .ok event → ∃ type payload sign,
    (WellFormed host trusted events previous type payload sign ∧ finalizeEvent host payload sign = .ok event) ∧
      type ≠ .archive ∧ (type = .checkpoint → ∃ id, get payload "event_id" = .str id)

theorem isArchive_of_type {event : Dict} {type : EventType} (typed : get event "event_type" = .str (lit type.name))
    (other : type ≠ .archive) : isArchive event = false := by
  simp only [isArchive, typed, asStr, Option.some_beq_some, beq_eq_false_iff_ne, ne_eq, lit_inj]
  revert other
  cases type <;> decide

theorem kept_of_makes {name : String} {file : Option Bytes} {appended : Appended}
    (kept : Kept host trusted (file.getD []) events) (call : Call host name file (Makes host trusted events) appended) :
    Kept host trusted appended.content (events ++ [appended.event]) ∧ isArchive appended.event = false := by
  have builds : Call host name file (Builds host trusted events) appended := by
    apply call.mono
    intro build makes previous event built
    obtain ⟨type, payload, sign, formed, -⟩ := makes previous event built
    exact ⟨type, payload, sign, formed⟩
  obtain ⟨line, wrote⟩ := builds.wrote kept.valid.decoded
  obtain ⟨build, makes, built⟩ := call.built
  obtain ⟨_, -, made, -⟩ := appendBuilt_eq_ok.mp built
  obtain ⟨type, payload, sign, ⟨formed, final⟩, other, identified⟩ := makes _ _ made
  obtain ⟨_, _, -, finalized⟩ := finalizeEvent_spec formed.ok formed.noHash formed.noSignature final
  have same := get_of_payload finalized.payload_eq
  refine ⟨kept_written kept wrote ?_, ?_⟩
  · intro checkpoint
    rw [same _ (by decide) (by decide)]
    exact identified (checkpoint_of_isCheckpoint formed finalized.payload_eq checkpoint)
  · apply isArchive_of_type _ other
    rw [same _ (by decide) (by decide), formed.typed]

/-- Custody of a live file that is there. -/
def Present (host : Host) (trusted : Keyring) (journal : Str) (events : List Dict) (names : List Str)
    (world : World) : Prop :=
  InCustody host trusted journal events names world ∧ (world.file journal).isSome = true

theorem Present.stands (present : Present host trusted journal events names world) :
    Stands host trusted journal world := ⟨events, names, present.1⟩

/-- Custody of a live file that is there, whatever its events. -/
def Keeps (host : Host) (trusted : Keyring) (journal : Str) (names : List Str) (world : World) : Prop :=
  ∃ events, Present host trusted journal events names world

theorem Keeps.stands (keeps : Keeps host trusted journal names world) : Stands host trusted journal world := by
  obtain ⟨events, present⟩ := keeps
  exact present.stands

theorem Keeps.write_other (keeps : Keeps host trusted journal names world) {name : Str}
    (apart : name ∉ journal :: names) (content : Bytes) :
    Keeps host trusted journal names (world.write name content) := by
  obtain ⟨events, custody, there⟩ := keeps
  have other : journal ≠ name := fun same => apart (same ▸ List.mem_cons_self)
  refine ⟨events, custody.write_other apart content, ?_⟩
  rwa [World.file_write, if_neg other]

/-- An append of such a builder keeps custody of one event more. -/
theorem ensures_append {io : Io} {append : Option Bytes → Except PyError Appended}
    (calls : ∀ file appended, Kept host trusted (file.getD []) events → append file = .ok appended →
      Call host (shown journal) file (Makes host trusted events) appended) :
    Ensures (InCustody host trusted journal events names) (appendAt io journal append)
      (fun _ world => Keeps host trusted journal names world) (Stands host trusted journal) := by
  apply ensures_appendAt
  · exact fun _ custody => custody.touch
  · intro world appended custody returned
    obtain ⟨kept, record⟩ := kept_of_makes custody.chain.kept (calls _ _ custody.chain.kept returned)
    refine ⟨_, custody.append kept record, ?_⟩
    rw [World.file_write, if_pos rfl]
    rfl
  · exact fun _ custody => ⟨events, names, custody⟩
  · exact fun _ _ keeps => keeps.stands

theorem ensures_appendEvent {io : Io} {build : Option Str → Except PyError Dict}
    (makes : Makes host trusted events build) :
    Ensures (InCustody host trusted journal events names)
      (appendAt io journal (fun file => appendEvent host (shown journal) file build))
      (fun _ world => Keeps host trusted journal names world) (Stands host trusted journal) :=
  ensures_append (fun _ _ _ returned => .event build _ makes returned)

/-! ## Records -/

/-- Whether a decision or an outcome is well formed does not depend on the file. -/
theorem wellFormed_record {previous : Option Str} {type : EventType} {payload : Dict}
    {sign : Bytes → Except PyError Str} (record : type = .decision ∨ type = .outcome)
    (formed : WellFormed host trusted [] previous type payload sign) :
    WellFormed host trusted events previous type payload sign where
  ok := formed.ok
  noHash := formed.noHash
  noSignature := formed.noSignature
  schema := formed.schema
  typed := formed.typed
  fields := formed.fields
  linked := formed.linked
  link := formed.link
  shape := by
    have shape := formed.shape
    rcases record with rfl | rfl <;> exact shape
  counted := by
    rintro rfl
    rcases record with impossible | impossible <;> cases impossible
  signer := formed.signer

theorem makes_of_record {build : Option Str → Except PyError Dict} (record : BuildsRecord host trusted build) :
    Makes host trusted events build := by
  intro previous event built
  obtain ⟨type, payload, sign, isRecord, formed, final⟩ := record previous event built
  refine ⟨type, payload, sign, ⟨wellFormed_record isRecord formed, final⟩, ?_, ?_⟩
  · rcases isRecord with rfl | rfl <;> decide
  · rintro rfl
    rcases isRecord with impossible | impossible <;> cases impossible

theorem ensures_atomic {io : Io} {useIndex : Bool} {cache : IdemCache} {query : Option (Str × Str)}
    {build : Option Str → Option Str → Except PyError Dict}
    (records : ∀ blocking, BuildsRecord host trusted (fun previous => build previous blocking)) :
    Ensures (InCustody host trusted journal events names)
      (appendAt io journal (fun file =>
        (appendEventAtomic host useIndex (shown journal) cache file query build).map Prod.fst))
      (fun _ world => Keeps host trusted journal names world) (Stands host trusted journal) := by
  apply ensures_append
  intro file appended _ returned
  cases run : appendEventAtomic host useIndex (shown journal) cache file query build with
  | error e => simp [run, Except.map] at returned
  | ok pair =>
    obtain ⟨found, after⟩ := pair
    simp only [run, Except.map, Except.ok.injEq] at returned
    subst returned
    exact .atomic useIndex cache after query build found (fun blocking => makes_of_record (records blocking)) run

/-! ## Checkpoints -/

theorem makes_checkpoint {signer : Signer} (stamp : Stamp) {count : Nat}
    (trustedSigner : TrustedSigner host trusted signer) (reached : count ≤ events.length) :
    Makes host trusted events (fun previous =>
      finalizeEvent host (checkpointPayload signer stamp count previous) signer.sign) := by
  intro previous event built
  refine ⟨.checkpoint, _, _, ⟨wellFormed_checkpoint trustedSigner reached, built⟩, by decide, ?_⟩
  intro _
  exact ⟨stamp.eventId, by simp [Python.Value.get, checkpointPayload, Members.get]⟩

theorem ensures_writeDurable {io : Io} {target : Option Str} {text : Str}
    (apart : ∀ name ∈ target, name ∉ journal :: names) :
    Ensures (Keeps host trusted journal names) (writeDurable io target text)
      (fun _ world => Keeps host trusted journal names world) (Stands host trusted journal) := by
  have writes : ∀ content, Ensures (Keeps host trusted journal names) (writeTarget target content)
      (fun _ world => Keeps host trusted journal names world) (Stands host trusted journal) := by
    intro content
    apply ensures_change
    intro world keeps
    cases target with
    | none => exact keeps
    | some name => exact keeps.write_other (apart name rfl) content
  have tries : ∀ point, Ensures (Keeps host trusted journal names) (attempt io point)
      (fun _ world => Keeps host trusted journal names world) (Stands host trusted journal) :=
    fun point => ensures_attempt (fun _ keeps => keeps) (fun _ keeps => keeps.stands)
  apply ensures_bind (tries .witnessOpening)
  intro _
  apply ensures_bind (writes [])
  intro _
  apply ensures_bind (ensures_lift (fun _ _ keeps _ => keeps) (fun _ keeps => keeps.stands))
  intro encoded
  apply ensures_bind (tries .witnessWriting)
  exact fun _ => writes encoded

theorem ensures_checkpointJournal {io : Io} {identity : Except PyError Signer} {stamp : Stamp}
    {witness : WitnessPath} (trusts : Trusts host trusted identity)
    (apart : ∀ name ∈ witness.target journal, name ∉ journal :: names) :
    Ensures (InCustody host trusted journal events names)
      (checkpointJournal host io journal identity stamp witness)
      (fun _ world => Keeps host trusted journal names world) (Stands host trusted journal) := by
  apply ensures_bind
    (ensures_lift (Q := fun signer world => TrustedSigner host trusted signer ∧
        InCustody host trusted journal events names world)
      (fun _ signer custody found => ⟨trusts signer found, custody⟩) (fun _ custody => ⟨events, names, custody⟩))
  intro signer
  apply ensures_pure
  intro trustedSigner
  have stands : ∀ world, Keeps host trusted journal names world → Stands host trusted journal world :=
    fun _ keeps => keeps.stands
  apply ensures_bind (Q := fun _ world => Keeps host trusted journal names world)
  · apply ensures_append
    intro file appended kept returned
    refine .checkpoint _ appended ?_ returned
    have reached : countEventLines (file.getD []) ≤ events.length := kept.valid.decoded.length_eq.le
    exact makes_checkpoint stamp trustedSigner reached
  intro event
  apply ensures_bind (ensures_lift (fun _ _ keeps _ => keeps) stands)
  intro text
  apply ensures_bind (ensures_writeDurable apart)
  intro _
  apply ensures_bind (ensures_lift (fun _ _ keeps _ => keeps) stands)
  intro count
  exact ensures_ret (fun _ keeps => keeps)

/-! ## Countersignatures -/

/-- The lookup of the newest checkpoint finds the one the verifier knows. -/
theorem ensures_newestCheckpoint {io : Io} {point : Point} :
    Ensures (InCustody host trusted journal events names) (newestCheckpoint host io point journal)
      (fun found world => (∀ checkpoint ∈ found, events.foldl noteNewest none = some checkpoint) ∧
        InCustody host trusted journal events names world) (Stands host trusted journal) := by
  apply ensures_inspect
  · intro world found custody read
    refine ⟨?_, custody⟩
    rintro checkpoint rfl
    have kept := custody.chain.kept
    cases file : world.file journal with
    | none => cases failing : io point <;> simp [failing, file] at read
    | some content =>
      cases failing : io point with
      | some error => simp [failing, file] at read
      | none =>
        rw [file, Option.getD_some] at kept
        simp only [failing, file, readEvents_decoded kept.valid.decoded, Except.map, Except.ok.injEq] at read
        exact read
  · exact fun _ custody => ⟨events, names, custody⟩

theorem makes_countersignature {signer : Signer} (stamp : Stamp) {content : Bytes} {checkpoint : Dict}
    {id : Str} (trustedSigner : TrustedSigner host trusted signer) (kept : Kept host trusted content events)
    (newest : events.foldl noteNewest none = some checkpoint) (named : get checkpoint "event_id" = .str id) :
    Makes host trusted events (fun previous => finalizeEvent host
      (countersignaturePayload signer stamp id (get checkpoint "checkpoint_count")
        (get checkpoint "head_sha256") previous) signer.sign) := by
  intro previous event built
  obtain ⟨member, isOne⟩ := (isCheckpoint_foldl_noteNewest newest).resolve_left (by simp)
  obtain ⟨_, _, clean⟩ := isClean_of_mem kept.valid.clean member
  obtain ⟨n, count, positive⟩ := countOf_of_clean clean isOne
  refine ⟨.countersignature, _, _, ⟨?_, built⟩, by decide, by simp⟩
  exact wellFormed_countersignature trustedSigner (get_checkpointsAfter newest named) count positive
    (head_of_clean clean isOne)

theorem ensures_countersignCheckpoint {io : Io} {identity : Except PyError Signer} {stamp : Stamp}
    {checkpoint : Dict} (trusts : Trusts host trusted identity)
    (newest : events.foldl noteNewest none = some checkpoint) :
    Ensures (InCustody host trusted journal events names)
      (countersignCheckpoint host io journal identity stamp checkpoint)
      (fun _ world => Keeps host trusted journal names world) (Stands host trusted journal) := by
  have stands : ∀ world, InCustody host trusted journal events names world → Stands host trusted journal world :=
    fun _ custody => ⟨events, names, custody⟩
  have alive : ∀ world, Keeps host trusted journal names world → Stands host trusted journal world :=
    fun _ keeps => keeps.stands
  have looks : ∀ field, Ensures (InCustody host trusted journal events names)
      (Effect.lift (item checkpoint field)) (fun value world => get checkpoint field = value ∧
        InCustody host trusted journal events names world) (Stands host trusted journal) :=
    fun field => ensures_lift (fun _ _ custody found => ⟨(item_eq_ok found).2, custody⟩) stands
  apply ensures_bind
    (ensures_mapError (ensures_lift (Q := fun signer world => TrustedSigner host trusted signer ∧
        InCustody host trusted journal events names world)
      (fun _ signer custody found => ⟨trusts signer found, custody⟩) stands))
  intro signer
  apply ensures_pure
  intro trustedSigner
  apply ensures_bind (looks "event_id")
  intro idValue
  apply ensures_pure
  rintro rfl
  apply ensures_bind (looks "checkpoint_count")
  intro count
  apply ensures_pure
  rintro rfl
  apply ensures_bind (looks "head_sha256")
  intro head
  apply ensures_pure
  rintro rfl
  apply ensures_bind (Q := fun _ world => Keeps host trusted journal names world)
  · intro world custody
    have kept := custody.chain.kept
    obtain ⟨member, isOne⟩ := (isCheckpoint_foldl_noteNewest newest).resolve_left (by simp)
    obtain ⟨id, named⟩ := kept.named checkpoint member isOne
    have makes := makes_countersignature stamp trustedSigner kept newest named
    rw [named, pyStr]
    exact ensures_appendEvent makes world custody
  intro event
  apply ensures_bind (Q := fun _ world => Keeps host trusted journal names world)
  · exact ensures_inspect (fun _ _ keeps _ => keeps) alive
  intro latest
  apply ensures_bind (ensures_lift (fun _ _ keeps _ => keeps) alive)
  intro number
  exact ensures_ret (fun _ keeps => keeps)

theorem ensures_countersignJournal {io : Io} {identity : Except PyError Signer} {stamp : Stamp}
    (trusts : Trusts host trusted identity) :
    Ensures (InCustody host trusted journal events names)
      (countersignJournal host io journal identity stamp)
      (fun _ world => Keeps host trusted journal names world) (Stands host trusted journal) := by
  apply ensures_bind ensures_newestCheckpoint
  intro found
  apply ensures_pure
  intro newest
  cases found with
  | none => exact ensures_raise (fun _ custody => ⟨events, names, custody⟩)
  | some checkpoint => exact ensures_countersignCheckpoint trusts (newest checkpoint rfl)

/-! ## Resolutions -/

theorem findDecisionIn_decoded {id : Str} {lines : List Bytes} {found : List Dict} {decision : Dict}
    (decoded : Decoded host lines found) (looked : findDecisionIn host id lines = .ok (some decision)) :
    decision ∈ found := by
  induction decoded with
  | nil => simp [findDecisionIn] at looked
  | cons first _ ih =>
    simp only [findDecisionIn, first] at looked
    split_ifs at looked
    · cases looked
      exact List.mem_cons_self
    · exact List.mem_cons_of_mem _ (ih looked)

theorem ensures_findDecision {io : Io} {id : Str} :
    Ensures (InCustody host trusted journal events names) (findDecision host io journal id)
      (fun found world => (∀ decision ∈ found, DictOk host decision) ∧
        InCustody host trusted journal events names world) (Stands host trusted journal) := by
  apply ensures_inspect
  · intro world found custody read
    refine ⟨?_, custody⟩
    rintro decision rfl
    have kept := custody.chain.kept
    cases file : world.file journal with
    | none => cases failing : io .lookup <;> simp [failing, file] at read
    | some content =>
      cases failing : io .lookup with
      | some error => simp [failing, file] at read
      | none =>
        rw [file, Option.getD_some] at kept
        simp only [failing, file] at read
        exact dictOk_of_decoded kept.valid.decoded decision (findDecisionIn_decoded kept.valid.decoded read)
  · exact fun _ custody => ⟨events, names, custody⟩

theorem ok_of_item {decision : Dict} {field : String} {value : Json} (ok : DictOk host decision)
    (found : item decision field = .ok value) : value.Ok host :=
  (dictOk_iff.mp ok).2 _ (Members.mem_of_get (item_eq_ok found).1)

theorem makes_resolution {signer : Signer} (stamp : Stamp) {decision : Dict} {decisionId resolution : Str}
    (note : Str) (trustedSigner : TrustedSigner host trusted signer) (ok : DictOk host decision)
    (known : resolution ∈ knownResolutions) :
    Makes host trusted events (buildResolution host signer stamp decision decisionId resolution note) := by
  intro previous event built
  simp only [buildResolution, bind_eq_ok] at built
  obtain ⟨actionId, foundId, actionName, foundName, contractHash, foundContract, final⟩ := built
  refine ⟨.resolution, _, _, ⟨?_, final⟩, by decide, by simp⟩
  exact wellFormed_resolution trustedSigner (ok_of_item ok foundId) (ok_of_item ok foundName)
    (ok_of_item ok foundContract) known

theorem ensures_resolveJournal {io : Io} {identity : Except PyError Signer} {stamp : Stamp}
    {decisionId resolution note : Str} (trusts : Trusts host trusted identity) :
    Ensures (InCustody host trusted journal events names)
      (resolveJournal host io journal identity stamp decisionId resolution note)
      (fun _ world => Keeps host trusted journal names world) (Stands host trusted journal) := by
  have stands : ∀ world, InCustody host trusted journal events names world → Stands host trusted journal world :=
    fun _ custody => ⟨events, names, custody⟩
  apply ensures_ite
  · intro known
    apply ensures_bind ensures_findDecision
    intro found
    apply ensures_pure
    intro ok
    cases found with
    | none => exact ensures_raise stands
    | some decision =>
      simp only [resolveDecision]
      cases unresolvable host decisionId decision with
      | some message => exact ensures_raise stands
      | none =>
        apply ensures_bind
          (ensures_lift (Q := fun signer world => TrustedSigner host trusted signer ∧
              InCustody host trusted journal events names world)
            (fun _ signer custody found => ⟨trusts signer found, custody⟩) stands)
        intro signer
        apply ensures_pure
        intro trustedSigner
        exact ensures_appendEvent
          (makes_resolution stamp (boundedNote note) trustedSigner (ok decision rfl) (by simpa using known))
  · exact fun _ => ensures_raise stands

/-! ## Archives -/

/-- The journal renamed: the file under its archive name is in the live file's place, and
the live path holds nothing. -/
structure Renamed (host : Host) (trusted : Keyring) (journal archived : Str) (events : List Dict)
    (names listed : List Str) (world : World) : Prop where
  chain : Chain host trusted world archived events names
  there : (world.file archived).isSome = true
  empty : (world.file journal).getD [] = []
  distinct : (journal :: archived :: names).Nodup
  listed : listed.Sublist world.archived
  ending : ∀ name ∈ archived :: names, name.getLast? = some 108

theorem file_moveFile (source target other : Str) :
    (moveFile source target world).file other =
      if other = source then none
      else if other = target then some ((world.file source).getD []) else world.file other := by
  rw [moveFile, World.file_remove, World.file_write]

theorem touch_of_isSome {name : Str} (there : (world.file name).isSome = true) : world.touch name = world := by
  obtain ⟨content, found⟩ := Option.isSome_iff_exists.mp there
  rw [World.touch, found]

/-- A name that an archive can take. -/
structure ArchiveName (journal : Str) (names : List Str) (name : Str) : Prop where
  fresh : name ∉ journal :: names
  bare : notBareName name = false
  ending : name.getLast? = some 108

theorem bare_archiveName {time : Time} {index : Nat} (noSlash : 47 ∉ journal) (noBackslash : 92 ∉ journal) :
    notBareName (archiveName journal time index) = false := by
  have last := last_archiveName journal time index
  have plain : (archiveName journal time index).any (fun c => c == 47 || c == 92) = false := by
    rw [List.any_eq_false]
    intro c member
    simp only [Bool.or_eq_true, beq_iff_eq]
    rintro (rfl | rfl)
    · exact noSlash (mem_archiveName member (.inl rfl))
    · exact noBackslash (mem_archiveName member (.inr rfl))
  have notDot : archiveName journal time index ≠ lit "." := by
    intro same
    rw [same] at last
    revert last
    decide
  have notDots : archiveName journal time index ≠ lit ".." := by
    intro same
    rw [same] at last
    revert last
    decide
  simp [notBareName, plain, notDot, notDots]

theorem ensures_claimArchivePath {io : Io} {time : Time} (noSlash : 47 ∉ journal) (noBackslash : 92 ∉ journal) :
    Ensures (Present host trusted journal events names) (claimArchivePath io journal time)
      (fun name world => ArchiveName journal names name ∧ Present host trusted journal events names world)
      (Stands host trusted journal) := by
  apply ensures_bind (ensures_inspect (Q := fun name world => ArchiveName journal names name ∧
    Present host trusted journal events names world) ?_ (fun _ present => present.stands))
  · intro name
    apply ensures_pure
    intro claimed
    apply ensures_bind (ensures_mapError (ensures_attempt
      (Q := fun _ => Present host trusted journal events names) (fun _ present => present)
      (fun _ present => present.stands)))
    intro _
    apply ensures_bind (ensures_change (Q := fun _ => Present host trusted journal events names) ?_)
    · intro _
      exact ensures_ret (fun _ present => ⟨claimed, present⟩)
    · intro world present
      have other : journal ≠ name := fun same => claimed.fresh (same ▸ List.mem_cons_self)
      refine ⟨present.1.write_other claimed.fresh [], ?_⟩
      rw [World.file_write, if_neg other]
      exact present.2
  · rintro world name present ⟨⟩
    refine ⟨⟨?_, bare_archiveName noSlash noBackslash, last_archiveName _ _ _⟩, present⟩
    intro member
    have free := freeIndex_free world.files journal time
    have there : (world.file (archiveName journal time (freeIndex world.files journal time))).isSome = true := by
      rcases List.mem_cons.mp member with live | archived
      · rw [live]
        exact present.2
      · exact present.1.chain.present _ archived
    rw [World.file, free] at there
    cases there

theorem ensures_renameJournal {io : Io} {archived : Str} (claimed : ArchiveName journal names archived) :
    Ensures (Present host trusted journal events names) (renameJournal io journal archived)
      (fun _ world => Renamed host trusted journal archived events names names world)
      (Stands host trusted journal) := by
  have apart : archived ≠ journal ∧ archived ∉ names := by simpa using claimed.fresh
  apply ensures_bind (ensures_mapError (ensures_attempt
    (Q := fun _ => Present host trusted journal events names) (fun _ present => present)
    (fun _ present => present.stands)))
  intro _
  apply ensures_change
  intro world present
  have custody := present.1
  obtain ⟨notLive, distinct⟩ := List.nodup_cons.mp custody.distinct
  constructor
  · apply custody.chain.rename
    · rw [file_moveFile, if_neg apart.1, if_pos rfl]
    · intro file member
      have notJournal : file ≠ journal := fun same => notLive (same ▸ member)
      have notArchived : file ≠ archived := fun same => apart.2 (same ▸ member)
      rw [file_moveFile, if_neg notJournal, if_neg notArchived]
  · rw [file_moveFile, if_neg apart.1, if_pos rfl]
    rfl
  · rw [file_moveFile, if_pos rfl]
    rfl
  · refine List.nodup_cons.mpr ⟨?_, List.nodup_cons.mpr ⟨apart.2, distinct⟩⟩
    simpa [Ne.symm apart.1] using notLive
  · exact custody.listed
  · exact List.forall_mem_cons.mpr ⟨claimed.ending, custody.ending⟩

/-- The archive record on a file without events: the file is kept, and the record commits to
the count and the head it was given. -/
theorem kept_archive {name : String} {content : Bytes} {signer : Signer} {stamp : Stamp} {archived : Str}
    {count : Nat} {head : Option Str} {appended : Appended} (trustedSigner : TrustedSigner host trusted signer)
    (positive : 1 ≤ count) (bare : notBareName archived = false) (nothing : Kept host trusted content [])
    (returned : appendBuilt host name content (buildArchive host signer stamp journal archived (count, head)) =
      .ok appended) :
    Kept host trusted appended.content [appended.event] ∧ isArchive appended.event = true ∧
      get appended.event "archived_path" = .str archived ∧ get appended.event "prior_count" = .int count ∧
      get appended.event "prior_head" = linkOf head := by
  have builds : Builds host trusted [] (buildArchive host signer stamp journal archived (count, head)) := by
    intro previous event built
    cases previous with
    | some hash => simp [buildArchive] at built
    | none => exact ⟨.archive, _, _, wellFormed_archive trustedSigner positive bare, built⟩
  have call : Call host name (some content) (Builds host trusted []) appended :=
    .event _ appended builds returned
  obtain ⟨line, wrote⟩ := call.wrote nothing.valid.decoded
  obtain ⟨_, -, made, -⟩ := appendBuilt_eq_ok.mp returned
  cases previous : appended.previous with
  | some hash => simp [buildArchive, previous] at made
  | none =>
    simp only [buildArchive, previous] at made
    have formed : WellFormed host trusted [] none .archive (archivePayload signer stamp count head archived)
        signer.sign := wellFormed_archive trustedSigner positive bare
    obtain ⟨_, _, -, finalized⟩ := finalizeEvent_spec formed.ok formed.noHash formed.noSignature made
    have same := get_of_payload finalized.payload_eq
    refine ⟨kept_written nothing wrote ?_, ?_, ?_⟩
    · intro checkpoint
      cases checkpoint_of_isCheckpoint formed finalized.payload_eq checkpoint
    · rw [isArchive, same _ (by decide) (by decide), formed.typed]
      simp [asStr, EventType.name]
    · rw [same "archived_path" (by decide) (by decide), same "prior_count" (by decide) (by decide),
        same "prior_head" (by decide) (by decide)]
      simp [Python.Value.get, archivePayload, Members.get]

section Renamed

variable {archived : Str} {listed : List Str}

theorem Renamed.stands (renamed : Renamed host trusted journal archived events names listed world) :
    Stands host trusted journal world := stands_of_empty renamed.empty

/-- Rolled back or not, the journal stands. -/
theorem ensures_rollbackArchive {io : Io} :
    Ensures (Renamed host trusted journal archived events names names) (rollbackArchive io archived journal)
      (fun _ world => Stands host trusted journal world) (Stands host trusted journal) := by
  intro world renamed
  have same : rollbackArchive io archived journal world = (.ok false, world) ∨
      rollbackArchive io archived journal world = (.ok true, moveFile archived journal world) := by
    unfold rollbackArchive
    cases world.file journal with
    | some content => exact .inl rfl
    | none =>
      cases io .restore with
      | some error => exact .inl rfl
      | none => exact .inr rfl
  have restored : Stands host trusted journal (moveFile archived journal world) := by
    obtain ⟨notLive, distinct⟩ := List.nodup_cons.mp renamed.distinct
    obtain ⟨notAgain, distinct⟩ := List.nodup_cons.mp distinct
    have apart : journal ≠ archived ∧ journal ∉ names := by simpa using notLive
    refine ⟨events, names, ?_, List.nodup_cons.mpr ⟨apart.2, distinct⟩, renamed.listed,
      (List.forall_mem_cons.mp renamed.ending).2⟩
    apply renamed.chain.rename
    · rw [file_moveFile, if_neg apart.1, if_pos rfl]
    · intro file member
      have notArchived : file ≠ archived := fun same => notAgain (same ▸ member)
      have notJournal : file ≠ journal := fun same => apart.2 (same ▸ member)
      rw [file_moveFile, if_neg notArchived, if_neg notJournal]
  rcases same with same | same <;> rw [same]
  · constructor
    · rintro _ _ ⟨⟩
      exact renamed.stands
    · rintro _ _ ⟨⟩
  · constructor
    · rintro _ _ ⟨⟩
      exact restored
    · rintro _ _ ⟨⟩

theorem ensures_settle {io : Io} {stats : Nat × Option Str} :
    Ensures (Renamed host trusted journal archived events names names) (settle host io journal archived stats)
      (fun _ world => Renamed host trusted journal archived events names (archived :: names) world)
      (Stands host trusted journal) := by
  have rolled : ∀ error : PyError, Ensures (fun world => Stands host trusted journal world)
      (Effect.raise error : Command (Nat × Option Str)) (fun _ world =>
        Renamed host trusted journal archived events names names world) (Stands host trusted journal) :=
    fun error => ensures_raise (fun _ stands => stands)
  apply ensures_bind (Q := fun _ world => Renamed host trusted journal archived events names names world)
  · apply ensures_rescue (F := Renamed host trusted journal archived events names names)
    · apply (@ensures_archiveStatsAt _ _ _ (Renamed host trusted journal archived events names names)
        (Renamed host trusted journal archived events names names) _ _ ?_ (fun _ renamed => renamed) (fun _ renamed => renamed)).weaken
      · exact fun _ _ settled => settled.2
      · exact fun _ renamed => renamed
      · intro world renamed
        rwa [touch_of_isSome renamed.there]
    · intro error
      apply ensures_ite
      · intro _
        exact ensures_bind ensures_rollbackArchive (fun _ => rolled _)
      · exact fun _ => ensures_raise (fun _ renamed => renamed.stands)
  · intro settled
    apply ensures_ite
    · intro _
      apply ensures_change
      intro world renamed
      exact ⟨renamed.chain.frame (fun _ _ => rfl), renamed.there, renamed.empty, renamed.distinct,
        renamed.listed.cons_cons archived, renamed.ending⟩
    · intro _
      apply ensures_bind ensures_rollbackArchive
      intro restored
      exact ensures_ite (fun _ => ensures_raise (fun _ stands => stands))
        (fun _ => ensures_raise (fun _ stands => stands))

/-- The archive record on an empty file: it links to the file renamed. -/
theorem ensures_appendArchive {io : Io} {signer : Signer} {stamp : Stamp}
    (trustedSigner : TrustedSigner host trusted signer) (positive : events.length ≠ 0)
    (bare : notBareName archived = false) :
    Ensures (Renamed host trusted journal archived events names (archived :: names))
      (appendAt io journal (fun file => appendEvent host (shown journal) file
        (buildArchive host signer stamp journal archived (events.length, lastHash events))))
      (fun _ world => Keeps host trusted journal (archived :: names) world) (Stands host trusted journal) := by
  apply ensures_appendAt
  · intro world renamed
    have notArchived : ∀ file ∈ archived :: names, file ≠ journal := by
      intro file member same
      exact (List.nodup_cons.mp renamed.distinct).1 (same ▸ member)
    have same : ∀ file ∈ archived :: names, (world.touch journal).file file = world.file file := by
      intro file member
      rw [World.file_touch, if_neg (notArchived file member)]
    refine ⟨renamed.chain.frame same, ?_, ?_, renamed.distinct, ?_, renamed.ending⟩
    · rw [same _ List.mem_cons_self]
      exact renamed.there
    · rw [World.file_touch, if_pos rfl]
      exact renamed.empty
    · rw [World.archived_touch]
      exact renamed.listed
  · intro world appended renamed returned
    have nothing : Kept host trusted ((world.file journal).getD []) [] := by
      rw [renamed.empty]
      exact kept_nil host trusted
    obtain ⟨kept, isOne, path, count, head⟩ :=
      kept_archive trustedSigner (by omega) bare nothing returned
    have others : ∀ file ∈ archived :: names, (world.write journal appended.content).file file = world.file file := by
      intro file member
      have notJournal : file ≠ journal := fun same => (List.nodup_cons.mp renamed.distinct).1 (same ▸ member)
      rw [World.file_write, if_neg notJournal]
    refine ⟨[appended.event], ⟨?_, renamed.distinct, renamed.listed, renamed.ending⟩, ?_⟩
    · apply Chain.link _ isOne path bare count head
      · rw [others _ List.mem_cons_self]
        exact renamed.there
      · exact renamed.chain.frame others
      · rwa [World.file_write, if_pos rfl, Option.getD_some]
    · rw [World.file_write, if_pos rfl]
      rfl
  · exact fun _ renamed => renamed.stands
  · exact fun _ _ keeps => keeps.stands

end Renamed

theorem ensures_archiveJournal {io : Io} {identity : Except PyError Signer} {stamp : Stamp} {time : Time}
    (trusts : Trusts host trusted identity) (noSlash : 47 ∉ journal) (noBackslash : 92 ∉ journal) :
    Ensures (InCustody host trusted journal events names)
      (archiveJournal host io journal identity stamp time)
      (fun _ world => ∃ names, Keeps host trusted journal names world) (Stands host trusted journal) := by
  apply ensures_bind (Q := fun stats world => stats = (events.length, lastHash events) ∧
    Present host trusted journal events names world)
  · apply ensures_mapError
    apply (@ensures_archiveStatsAt _ _ _ (Present host trusted journal events names) _ _ _ ?_
      (fun _ custody => ⟨events, names, custody⟩) (fun _ present => present.stands)).weaken
    · rintro stats world ⟨found, present⟩
      exact ⟨archiveStats_kept present.1.chain.kept found, present⟩
    · exact fun _ stands => stands
    · intro world custody
      refine ⟨custody.touch, ?_⟩
      rw [World.file_touch, if_pos rfl]
      rfl
  intro stats
  apply ensures_pure
  rintro rfl
  apply ensures_ite
  · exact fun _ => ensures_raise (fun _ present => present.stands)
  intro positive
  apply ensures_bind (ensures_claimArchivePath noSlash noBackslash)
  intro archived
  apply ensures_pure
  intro claimed
  apply ensures_bind (ensures_renameJournal claimed)
  intro _
  apply ensures_bind ensures_settle
  intro _
  apply ensures_bind
    (ensures_lift (Q := fun signer world => TrustedSigner host trusted signer ∧
        Renamed host trusted journal archived events names (archived :: names) world)
      (fun _ signer renamed found => ⟨trusts signer found, renamed⟩) (fun _ renamed => renamed.stands))
  intro signer
  apply ensures_pure
  intro trustedSigner
  apply ensures_bind (ensures_mapError (ensures_appendArchive trustedSigner positive claimed.bare))
  intro event
  exact ensures_ret (fun _ keeps => ⟨archived :: names, keeps⟩)

/-! ## Runs -/

/-- The file a witness goes to is none of the chain. -/
theorem apart_target {witness : WitnessPath} {identity : Except PyError Signer} {stamp : Stamp}
    (custody : InCustody host trusted journal events names world)
    (apart : (Op.checkpoint identity stamp witness).Apart journal world) :
    ∀ name ∈ witness.target journal, name ∉ journal :: names := by
  intro name target member
  cases witness with
  | elsewhere => cases target
  | named other =>
    cases target
    rcases List.mem_cons.mp member with live | archived
    · exact apart.1 live
    · exact apart.2 (custody.listed.subset archived)
  | beside =>
    have shape : lit ".checkpoint" = lit ".checkpoin" ++ [116] := by decide
    cases target
    rcases List.mem_cons.mp member with live | archived
    · have := congrArg List.length live
      simp [lit] at this
    · have last := custody.ending _ archived
      rw [shape, ← List.append_assoc, List.getLast?_concat] at last
      revert last
      decide

/-- One operation: custody of a live file where it returns, and custody still where it
raises. -/
theorem ensures_run {op : Op} {io : Io} (noSlash : 47 ∉ journal) (noBackslash : 92 ∉ journal)
    (signed : op.Signed host trusted) :
    Ensures (fun world => Stands host trusted journal world ∧ op.Apart journal world) (op.run host journal io)
      (fun _ world => ∃ names, Keeps host trusted journal names world) (Stands host trusted journal) := by
  rintro world ⟨⟨events, names, custody⟩, apart⟩
  have drops : ∀ {α : Type} {call : Command α}, Ensures (InCustody host trusted journal events names) call
      (fun _ world => Keeps host trusted journal names world) (Stands host trusted journal) →
      Ensures (InCustody host trusted journal events names) (do let _ ← call)
        (fun _ world => ∃ names, Keeps host trusted journal names world) (Stands host trusted journal) :=
    fun ensured => ensures_bind ensured (fun _ => ensures_ret (fun _ keeps => ⟨names, keeps⟩))
  cases op with
  | append build => exact drops (ensures_appendEvent (makes_of_record signed)) world custody
  | appendAtomic useIndex cache query build => exact drops (ensures_atomic signed) world custody
  | checkpoint identity stamp witness =>
    exact drops (ensures_checkpointJournal signed (apart_target custody apart)) world custody
  | countersign identity stamp => exact drops (ensures_countersignJournal signed) world custody
  | resolve identity stamp decisionId resolution note =>
    exact drops (ensures_resolveJournal signed) world custody
  | archive identity stamp time =>
    exact ensures_bind (ensures_archiveJournal signed noSlash noBackslash)
      (fun _ => ensures_ret (fun _ keeps => keeps)) world custody

/-- The operations of a run: signed with trusted keys, their witnesses written apart. -/
def Allowed (host : Host) (keys : List PublicKey) (journal : Str) (world : World) (op : Op) : Prop :=
  op.Signed host (toKeyring host keys) ∧ op.Apart journal world

theorem stands_of_reached {keys : List PublicKey} (noSlash : 47 ∉ journal) (noBackslash : 92 ∉ journal)
    (reached : Reached host journal (Allowed host keys journal) world) :
    Stands host (toKeyring host keys) journal world := by
  induction reached with
  | absent none _ => exact stands_of_empty (by rw [none, Option.getD_none])
  | @step world after result io op _ allowed ran ih =>
    obtain ⟨returns, raises⟩ := @ensures_run _ _ _ _ io noSlash noBackslash allowed.1 world ⟨ih, allowed.2⟩
    cases result with
    | ok value =>
      obtain ⟨names, keeps⟩ := returns value after ran
      exact keeps.stands
    | error error => exact raises error after ran

end Custody

/-- After an operation of a run that returns, the live file verifies without an issue, and
so does its archive chain, while fewer archives were made than the limit. -/
theorem writer_runs_verify {host : Host} {keys : List PublicKey} {journal : Str} {world after : World}
    {op : Op} {io : Io} {maxLinks : Nat} (noSlash : 47 ∉ journal) (noBackslash : 92 ∉ journal)
    (reached : Reached host journal (Allowed host keys journal) world)
    (allowed : Allowed host keys journal world op) (returned : op.run host journal io world = (.ok (), after)) :
    (∃ content result, after.file journal = some content ∧
        verifyJournal host (.readable content none) keys none = .ok result ∧
        result.valid = true ∧ result.issues = []) ∧
      (after.archived.length < maxLinks → ∃ report,
        verifyArchiveChain host keys (World.directory after) maxLinks journal = .ok report ∧
          report.valid = true) := by
  have stands := stands_of_reached noSlash noBackslash reached
  obtain ⟨names, events, custody, there⟩ :=
    (@ensures_run _ _ _ _ io noSlash noBackslash allowed.1 world ⟨stands, allowed.2⟩).1 () after returned
  constructor
  · obtain ⟨content, found⟩ := Option.isSome_iff_exists.mp there
    have kept := custody.chain.kept
    rw [found, Option.getD_some] at kept
    obtain ⟨result, verified, valid, clean⟩ := verifyJournal_kept kept
    exact ⟨content, result, found, verified, valid, clean⟩
  · intro fewer
    have enough : names.length ≤ maxLinks := custody.listed.length_le.trans fewer.le
    exact walk_chain custody.chain there enough [] custody.distinct (by simp)

/-! ## Two checkpoints -/

theorem appendAt_returns {name : Str} {append : Option Bytes → Except PyError Appended} {world : World}
    {appended : Appended} (found : append ((world.touch name).file name) = .ok appended) :
    appendAt (fun _ => none) name append world =
      (.ok appended.event, (world.touch name).write name appended.content) := by
  simp [appendAt, Effect.mapError, Effect.rescue, run_bind, run_pure, Effect.andThen, attempt, Effect.lift,
    Effect.inspect, Effect.change, found]

/-- The world after a witness is written. -/
def witnessed (world : World) (encoded : Bytes) : Option Str → World
  | some name => (world.write name []).write name encoded
  | none => world

theorem writeDurable_returns {target : Option Str} {world : World} {text : Str} {encoded : Bytes}
    (bytes : encodeUtf8 text = .ok encoded) :
    writeDurable (fun _ => none) target text world = (.ok (), witnessed world encoded target) := by
  cases target <;>
    simp [writeDurable, writeTarget, run_bind, Effect.andThen, attempt, Effect.lift, Effect.inspect,
      Effect.change, bytes, witnessed]

/-- A checkpoint of the sample, with its witness text. -/
theorem checkpoint_returns {journal : Str} {world : World} {count : Nat} {witness : WitnessPath}
    {appended : Appended} {text : Str} {encoded : Bytes}
    (found : appendCheckpoint sampleHost (shown journal) ((world.touch journal).file journal)
      (fun n previous => finalizeEvent sampleHost (checkpointPayload sampleSigner (sampleStamp count) n previous)
        sampleSigner.sign) = .ok appended)
    (dumped : dumpsAscii sampleHost (.dict appended.event) = .ok text) (bytes : encodeUtf8 text = .ok encoded)
    (counted : (item appended.event "checkpoint_count" >>= pyInt sampleHost) = .ok (count : Int)) :
    (Op.checkpoint (.ok sampleSigner) (sampleStamp count) witness).run sampleHost journal (fun _ => none) world =
      (.ok (), witnessed ((world.touch journal).write journal appended.content) encoded
        (witness.target journal)) := by
  have appends := @appendAt_returns journal (fun file => appendCheckpoint sampleHost (shown journal) file _)
    world appended found
  simp only [Op.run, checkpointJournal, run_bind, Effect.andThen, Effect.lift, Effect.inspect, appends, dumped,
    writeDurable_returns bytes, counted, run_pure]

def sampleJournalName : Str := lit "journal.jsonl"

/-- The witness texts of the sample: its events are ASCII. -/
theorem sample_texts :
    (dumpsAscii sampleHost (.dict sampleEvents.1) >>= encodeUtf8) = .ok (sampleLine sampleEvents.1) ∧
      (dumpsAscii sampleHost (.dict sampleEvents.2) >>= encodeUtf8) = .ok (sampleLine sampleEvents.2) := by
  decide +kernel

theorem sample_counts :
    (item sampleEvents.1 "checkpoint_count" >>= pyInt sampleHost) = .ok ((0 : Nat) : Int) ∧
      (item sampleEvents.2 "checkpoint_count" >>= pyInt sampleHost) = .ok ((1 : Nat) : Int) := by
  decide +kernel

def sampleOp (count : Nat) (witness : WitnessPath) : Op := .checkpoint (.ok sampleSigner) (sampleStamp count) witness

theorem signed_sampleOp (count : Nat) (witness : WitnessPath) :
    (sampleOp count witness).Signed sampleHost (toKeyring sampleHost [sampleKey]) := by
  rintro signer ⟨⟩
  exact trusted_sampleSigner

/-- The directory after the first checkpoint. -/
def sampleWorld : World :=
  (World.touch ⟨[], []⟩ sampleJournalName).write sampleJournalName (sampleLine sampleEvents.1 ++ [10])

theorem file_sampleWorld : sampleWorld.file sampleJournalName = some (sampleLine sampleEvents.1 ++ [10]) := by
  rw [sampleWorld, World.file_write, if_pos rfl]

theorem sampleOp_first :
    (sampleOp 0 .elsewhere).run sampleHost sampleJournalName (fun _ => none) ⟨[], []⟩ = (.ok (), sampleWorld) := by
  obtain ⟨text, dumped, bytes⟩ := bind_eq_ok.mp sample_texts.1
  have empty : ((World.touch ⟨[], []⟩ sampleJournalName).file sampleJournalName) = some [] := by
    rw [World.file_touch, if_pos rfl]
    rfl
  refine @checkpoint_returns _ _ _ _ ⟨sampleLine sampleEvents.1 ++ [10], sampleEvents.1, none⟩ _ _ ?_ dumped bytes
    sample_counts.1
  rw [empty]
  exact sample_first

/-- The second checkpoint, with its witness on top of the journal. -/
theorem sampleOp_second :
    ∃ after, (sampleOp 1 (.named sampleJournalName)).run sampleHost sampleJournalName (fun _ => none) sampleWorld =
        (.ok (), after) ∧ after.archived = [] ∧ after.file sampleJournalName = some (sampleLine sampleEvents.2) := by
  obtain ⟨text, dumped, bytes⟩ := bind_eq_ok.mp sample_texts.2
  have file : (sampleWorld.touch sampleJournalName).file sampleJournalName =
      some (sampleLine sampleEvents.1 ++ [10]) := by
    rw [World.file_touch, if_pos rfl, file_sampleWorld]
    rfl
  refine ⟨_, @checkpoint_returns _ _ _ _ (sampleAppended (sampleLine sampleEvents.1 ++ [10])) _ _ ?_ dumped bytes
    sample_counts.2, ?_, ?_⟩
  · rw [file]
    have count : countEventLines (sampleLine sampleEvents.1 ++ [10]) = 1 :=
      (sample_valid (.inr rfl)).decoded.length_eq
    have second := @sample_second (shown sampleJournalName) _ (.inr rfl)
    rw [appendCheckpoint, Option.getD_some, count] at second ⊢
    exact second
  · simp [witnessed, WitnessPath.target, sampleWorld]
  · simp [witnessed, WitnessPath.target, World.file_write]

/-- The run of the first checkpoint. -/
theorem writer_runs_verify_sample :
    ∃ after content result, after.file sampleJournalName = some content ∧
      verifyJournal sampleHost (.readable content none) [sampleKey] none = .ok result ∧ result.valid = true ∧
      ∃ report, verifyArchiveChain sampleHost [sampleKey] (World.directory after) 1024 sampleJournalName =
        .ok report ∧ report.valid = true := by
  obtain ⟨⟨content, result, found, verified, valid, -⟩, chain⟩ :=
    @writer_runs_verify _ [sampleKey] _ _ _ _ _ 1024 (by decide) (by decide)
      (.absent (by decide) rfl) ⟨signed_sampleOp 0 .elsewhere, trivial⟩ sampleOp_first
  exact ⟨_, content, result, found, verified, valid, chain (by decide)⟩

/-- A witness written on top of the live journal: the operation returns and leaves a
checkpoint without the events before it. -/
theorem witness_overwrites :
    ∃ (world : World) (op : Op) (io : Io) (after : World),
      Reached sampleHost sampleJournalName (fun _ op => op.Signed sampleHost (toKeyring sampleHost [sampleKey])) world ∧
      op.Signed sampleHost (toKeyring sampleHost [sampleKey]) ∧
      op.run sampleHost sampleJournalName io world = (.ok (), after) ∧ after.archived.length < 1024 ∧
      ¬ ∃ content result, after.file sampleJournalName = some content ∧
        verifyJournal sampleHost (.readable content none) [sampleKey] none = .ok result ∧ result.valid = true := by
  obtain ⟨after, ran, archived, file⟩ := sampleOp_second
  refine ⟨sampleWorld, _, _, after, ?_, signed_sampleOp 1 (.named sampleJournalName), ran, by simp [archived], ?_⟩
  · exact .step (fun _ => none) (sampleOp 0 .elsewhere) (.absent (by decide) rfl) (signed_sampleOp 0 .elsewhere)
      sampleOp_first
  · rintro ⟨content, result, found, verified, valid⟩
    rw [file, Option.some.injEq] at found
    subst found
    obtain ⟨_, events, same, valid⟩ := verifyJournal_valid_iff.mp ⟨result, verified, valid⟩
    cases same
    have solid := solid_encodeEvent sample_lines.2
    have kept : ¬ Blank (sampleLine sampleEvents.2) := fun blank =>
      solid.nonempty (solid.stripped.symm.trans (strip_eq_nil.mpr blank))
    have alone := records_line_blank solid.plain kept blank_nil
    rw [List.append_nil, solid.stripped] at alone
    have ok : DictOk sampleHost sampleEvents.2 := by
      rw [sampleEvents]
      exact dictOk_put (dictOk_put (dictOk_checkpointPayload _ _ _ 1 _) _ (by simp [Json.Ok])) _ (by simp [Json.Ok])
    have decoded := valid.decoded
    rw [alone] at decoded
    have one : events = [sampleEvents.2] :=
      decoded_unique decoded (.cons (decodeLine_encodeEvent ok sample_lines.2) .nil)
    have clean := valid.clean
    rw [one] at clean
    obtain ⟨_, _, _, first⟩ := clean.1
    have linked : get sampleEvents.2 "previous_event_hash" = .str sampleHash := by
      rw [sampleEvents, Python.Value.get, Members.get_put_of_ne (by simp), Members.get_put_of_ne (by simp)]
      simp [samplePayload, checkpointPayload, Members.get, linkOf]
    rw [first.link] at linked
    cases linked

end Tesera.Verification.WriterRuns
