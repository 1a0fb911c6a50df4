import Tesera.HashChain
import Tesera.Verification.Preserve

/-!
Tamper evidence. A journal written by appends from an absent file is a chain of payloads
with distinct ids. Whatever file the verifier accepts under the same keys is, payload by
payload, a prefix of that journal, provided that no two payloads share a digest and no
signature verifies for a digest that was never signed. A witness fixes how long the
prefix must be.
-/

namespace Tesera.Verification.TamperEvidence
open Tesera.Text Tesera.Text.Unicode Tesera.Text.Lines Tesera.Python.Value Tesera.Canonical
open Tesera.Journal.Record Tesera.Journal.Tail Tesera.Journal.Append
open Tesera.Verification.Event Tesera.Verification.Journal Tesera.Verification.Valid
open Tesera.Journal.Payloads Tesera.Verification.Extend Tesera.Verification.Builders
open Tesera.Verification.Preserve Tesera.HashChain

/-! ## The journal that was written -/

/-- A builder that finalizes a payload with an id of its own, linked to the hash it is
given. -/
def Fresh (host : Host) (events : List Dict) (build : Option Str → Except PyError Dict) : Prop :=
  ∀ previous event, build previous = .ok event → ∃ payload sign id,
    DictOk host payload ∧ has payload "event_hash" = false ∧ has payload "signature" = false ∧
      get payload "previous_event_hash" = linkOf previous ∧ get payload "event_id" = .str id ∧
      (∀ earlier ∈ events, get earlier "event_id" ≠ .str id) ∧
      finalizeEvent host payload sign = .ok event

/-- The journals that appends make from an absent file, with the events appended. -/
inductive Produced (host : Host) (name : String) : Option Bytes → List Dict → Prop where
  | absent : Produced host name none []
  | append {file : Option Bytes} {events : List Dict} {appended : Appended}
      (before : Produced host name file events) (call : Call host name file (Fresh host events) appended) :
      Produced host name (some appended.content) (events ++ [appended.event])

/-- The payloads an event sequence commits to. -/
def payloads (events : List Dict) : List Dict := events.map unsignedPayload

/-- The name a payload is linked by. -/
def hashOf (host : Host) (payload : Dict) : Str :=
  match eventDigest host payload with
  | .ok digest => hex digest
  | .error _ => []

/-- The name a payload links to. -/
def previousOf (payload : Dict) : Option Str := asStr (get payload "previous_event_hash")

/-- An event that stores the digest of its payload. -/
structure Sealed (host : Host) (event : Dict) : Prop where
  ok : DictOk host event
  hash : ∃ digest, eventDigest host (unsignedPayload event) = .ok digest ∧
    get event "event_hash" = .str (hex digest)

theorem Sealed.stored {host : Host} {event : Dict} (sealed : Sealed host event) :
    asStr (get event "event_hash") = some (hashOf host (unsignedPayload event)) := by
  obtain ⟨digest, hashed, stored⟩ := sealed.hash
  rw [stored, hashOf, hashed]
  rfl

@[simp] theorem asStr_linkOf (previous : Option Str) : asStr (linkOf previous) = previous := by
  cases previous <;> rfl

theorem get_unsigned_id (event : Dict) : get (unsignedPayload event) "event_id" = get event "event_id" :=
  get_unsignedPayload_of_ne event _ (by decide) (by decide)

theorem get_unsigned_link (event : Dict) :
    get (unsignedPayload event) "previous_event_hash" = get event "previous_event_hash" :=
  get_unsignedPayload_of_ne event _ (by decide) (by decide)

theorem lastLink_payloads {host : Host} {events : List Dict} (sealed : ∀ event ∈ events, Sealed host event) :
    lastLink (hashOf host) none (payloads events) = lastHash events := by
  induction events using List.reverseRecOn with
  | nil => rfl
  | append_singleton events event _ =>
    have last := (sealed event (by simp)).stored
    simp only [lastLink, payloads, List.map_append, List.map_singleton, List.foldl_append,
      List.foldl_cons, List.foldl_nil, lastHash, List.getLast?_concat, Option.bind_some, last]

/-- What the appends keep: complete lines, sealed events in one chain, distinct ids. -/
structure Written (host : Host) (content : Bytes) (events : List Dict) : Prop where
  decoded : Decoded host (records content) events
  complete : fragment content = []
  sealed : ∀ event ∈ events, Sealed host event
  linked : Linked (hashOf host) previousOf none (payloads events)
  ids : events.Pairwise (fun a b => get a "event_id" ≠ get b "event_id")
  named : ∀ event ∈ events, ∃ id, get event "event_id" = .str id

theorem fragment_written (content line : Bytes) : fragment (content ++ (line ++ [10])) = [] := by
  rw [← List.append_assoc]
  exact List.rtakeWhile_concat_neg _ _ _ (by decide)

theorem written_of_produced {host : Host} {name : String} {file : Option Bytes} {events : List Dict}
    (produced : Produced host name file events) : Written host (file.getD []) events := by
  induction produced with
  | absent => exact ⟨.nil, rfl, by simp, trivial, .nil, by simp⟩
  | @append file events appended _ call ih =>
    obtain ⟨build, fresh, built⟩ := call.built
    obtain ⟨line, tail, made, encoded, content⟩ := appendBuilt_eq_ok.mp built
    obtain ⟨payload, sign, id, ok, noHash, noSignature, link, named, new, final⟩ := fresh _ _ made
    obtain ⟨digest, signature, -, finalized⟩ := finalizeEvent_spec ok noHash noSignature final
    have previous := readLastEventHash_sound ih.decoded tail
    have stored : get appended.event "event_hash" = .str (hex digest) := by
      simp [Python.Value.get, finalized.hash]
    have idIs : get appended.event "event_id" = .str id := by
      rw [get_of_payload finalized.payload_eq _ (by decide) (by decide), named]
    have sealedNew : Sealed host appended.event := ⟨finalized.ok, digest, finalized.digest_eq, stored⟩
    have sealed : ∀ event ∈ events ++ [appended.event], Sealed host event := by
      intro event member
      rcases List.mem_append.mp member with early | last
      · exact ih.sealed event early
      · exact List.mem_singleton.mp last ▸ sealedNew
    have blank : Blank (fragment (file.getD [])) := by
      rw [ih.complete]
      exact blank_nil
    rw [Option.getD_some, content]
    refine ⟨?_, fragment_written _ _, sealed, ?_, ?_, ?_⟩
    · rw [records_written_of_blank (solid_encodeEvent encoded) blank]
      exact decoded_append ih.decoded (.cons (decodeLine_encodeEvent finalized.ok encoded) .nil)
    · rw [payloads, List.map_append, linked_append]
      refine ⟨ih.linked, ?_, trivial⟩
      have last := lastLink_payloads ih.sealed
      rw [payloads] at last
      rw [last, previousOf, get_unsigned_link,
        get_of_payload finalized.payload_eq _ (by decide) (by decide), link, asStr_linkOf, previous]
    · refine List.pairwise_append.mpr ⟨ih.ids, List.pairwise_singleton _ _, ?_⟩
      intro earlier inside event last
      rw [List.mem_singleton.mp last, idIs]
      exact new earlier inside
    · intro event member
      rcases List.mem_append.mp member with early | last
      · exact ih.named event early
      · exact ⟨id, List.mem_singleton.mp last ▸ idIs⟩

/-! ## What the verifier accepts -/

/-- No two of the payloads have canonical bytes with the same hash. -/
def CollisionFree (host : Host) (all : List Dict) : Prop :=
  ∀ a ∈ all, ∀ b ∈ all, ∀ x y, canonicalJsonBytes host (.dict a) = .ok x →
    canonicalJsonBytes host (.dict b) = .ok y → host.sha256 x = host.sha256 y → x = y

/-- A signature verifies under one of the keys only for the digest of one of the events. -/
def Unforgeable (host : Host) (keys : List PublicKey) (events : List Dict) : Prop :=
  ∀ key ∈ keys, ∀ digest signature, verifySignature host key digest signature = true →
    ∃ event ∈ events, eventDigest host (unsignedPayload event) = .ok digest

/-- Payloads with the same digest are the same. -/
theorem payload_eq_of_digest {host : Host} {all : List Dict} (free : CollisionFree host all)
    {a b : Dict} (memberA : a ∈ all) (memberB : b ∈ all) (okA : DictOk host a) (okB : DictOk host b)
    {digest : Bytes} (digestA : eventDigest host a = .ok digest)
    (digestB : eventDigest host b = .ok digest) : a = b := by
  obtain ⟨x, bytesA, hashA⟩ := eventDigest_eq_ok.mp digestA
  obtain ⟨y, bytesB, hashB⟩ := eventDigest_eq_ok.mp digestB
  have same := free a memberA b memberB x y bytesA bytesB (hashA.symm.trans hashB)
  subst same
  exact Json.dict.inj (canonicalJsonBytes_injective okA okB bytesA bytesB)

theorem mem_of_signerOf {host : Host} {keys : List PublicKey} {event : Dict} {key : PublicKey}
    (found : signerOf (toKeyring host keys) event = some key) : key ∈ keys := by
  obtain ⟨id, -, entry⟩ := Option.bind_eq_some_iff.mp found
  obtain ⟨owner, member, same⟩ := List.mem_map.mp (Members.mem_ofPairs (Members.mem_of_get entry))
  have owns : owner = key := congrArg Prod.snd same
  exact owns ▸ member

theorem sealed_of_clean {host : Host} {trusted : Keyring} {previous : Option Str}
    {checkpoints : Checkpoints} {event : Dict} (ok : DictOk host event)
    (clean : IsClean host trusted previous checkpoints event) : Sealed host event := by
  obtain ⟨type, digest, signer, clean⟩ := clean
  exact ⟨ok, digest, clean.hashed, clean.stored⟩

/-- Clean events are a chain. -/
theorem linked_of_clean {host : Host} {trusted : Keyring} {previous : Option Str}
    {checkpoints : Checkpoints} {events : List Dict} (oks : ∀ event ∈ events, DictOk host event)
    (clean : CleanFrom host trusted previous checkpoints events) :
    Linked (hashOf host) previousOf previous (payloads events) := by
  induction events generalizing previous checkpoints with
  | nil => trivial
  | cons event events ih =>
    obtain ⟨⟨type, digest, signer, here⟩, rest⟩ := clean
    have sealed := sealed_of_clean (oks event List.mem_cons_self) ⟨type, digest, signer, here⟩
    refine ⟨?_, ?_⟩
    · rw [previousOf, get_unsigned_link, here.link, asStr_linkOf]
    · rw [← sealed.stored]
      exact ih (fun other member => oks other (List.mem_cons_of_mem event member)) rest

/-- Clean events, all signed by the keys of a journal, are a prefix of it. -/
theorem prefix_of_clean {host : Host} {keys : List PublicKey} {content : Bytes}
    {events others : List Dict} (written : Written host content events)
    (oks : ∀ event ∈ others, DictOk host event)
    (clean : CleanFrom host (toKeyring host keys) none [] others)
    (free : CollisionFree host (payloads (events ++ others)))
    (unforgeable : Unforgeable host keys events) : payloads others <+: payloads events := by
  have inAll : ∀ event ∈ events, unsignedPayload event ∈ payloads (events ++ others) :=
    fun event member => List.mem_map_of_mem (List.mem_append_left _ member)
  apply prefix_of_members written.linked (linked_of_clean oks clean)
  · rw [payloads, List.Nodup, List.pairwise_map]
    refine written.ids.imp ?_
    intro a b different same
    exact different (by rw [← get_unsigned_id a, same, get_unsigned_id])
  · intro a memberA b memberB same
    obtain ⟨eventA, insideA, rfl⟩ := List.mem_map.mp memberA
    obtain ⟨eventB, insideB, rfl⟩ := List.mem_map.mp memberB
    obtain ⟨digestA, hashedA, -⟩ := (written.sealed eventA insideA).hash
    obtain ⟨digestB, hashedB, -⟩ := (written.sealed eventB insideB).hash
    simp only [hashOf, hashedA, hashedB] at same
    have digests := hex_injective same
    subst digests
    exact payload_eq_of_digest free (inAll eventA insideA) (inAll eventB insideB)
      (dictOk_unsignedPayload (written.sealed eventA insideA).ok)
      (dictOk_unsignedPayload (written.sealed eventB insideB).ok) hashedA hashedB
  · intro payload member
    obtain ⟨event, inside, rfl⟩ := List.mem_map.mp member
    obtain ⟨_, _, type, digest, signer, here⟩ := isClean_of_mem clean inside
    obtain ⟨original, member, hashed⟩ :=
      unforgeable signer (mem_of_signerOf here.signed) digest _ here.verified
    have same := payload_eq_of_digest free (inAll original member)
      (List.mem_map_of_mem (List.mem_append_right _ inside))
      (dictOk_unsignedPayload (written.sealed original member).ok)
      (dictOk_unsignedPayload (oks event inside)) hashed here.hashed
    rw [← same]
    exact List.mem_map_of_mem member

/-! ## The witness -/

theorem invalidWitness_ne {message : String} {witness : Option Dict} :
    (pure (invalidWitness message) : Except PyError _) ≠ .ok (witness, []) := by
  simp [invalidWitness, witnessIssue, pure, Except.pure]

theorem checkWitness_sound {host : Host} {trusted : Keyring} {event : Dict} {witness : Option Dict}
    (checked : checkWitness host trusted event = .ok (witness, [])) : witness = some event := by
  obtain ⟨known, -, checked⟩ := bind_eq_ok.mp checked
  cases shape : witnessShape host known event with
  | some message =>
    simp only [shape] at checked
    exact absurd checked invalidWitness_ne
  | none =>
    simp only [shape] at checked
    obtain ⟨digest, -, checked⟩ := bind_eq_ok.mp checked
    cases problem : witnessSeal host trusted digest event with
    | some message =>
      simp only [problem] at checked
      exact absurd checked invalidWitness_ne
    | none =>
      simp only [problem] at checked
      cases checked
      rfl

/-- A witness that raises no issue is the event its file decodes to. -/
theorem loadCheckpointWitness_sound {host : Host} {source : Source} {trusted : Keyring}
    {witness : Option Dict} (loaded : loadCheckpointWitness host source trusted = .ok (witness, [])) :
    ∃ content event, source = .readable content none ∧ witness = some event ∧
      decodeLine host (strip content) = .ok (.dict event) := by
  unfold loadCheckpointWitness at loaded
  match source with
  | .unopenable error => simp [witnessIssue] at loaded
  | .readable content (some error) => simp [witnessIssue] at loaded
  | .readable content none =>
    simp only at loaded
    split_ifs at loaded with empty
    · exact absurd loaded invalidWitness_ne
    · cases decoded : decodeLine host (strip content) with
      | error e =>
        simp only [decoded] at loaded
        split_ifs at loaded
        exact absurd loaded invalidWitness_ne
      | ok v =>
        cases v with
        | dict event =>
          simp only [decoded] at loaded
          exact ⟨content, event, rfl, checkWitness_sound loaded, decoded⟩
        | _ =>
          simp only [decoded] at loaded
          exact absurd loaded invalidWitness_ne

/-- A witness that is not in the journal is an issue. -/
theorem witness_found {host : Host} {newest : Option Dict} {event : Dict} {found : Bool} {total : Nat}
    (covered : checkpointCoverage host newest (some event) found total = .ok []) : found = true := by
  cases found with
  | true => rfl
  | false =>
    simp only [checkpointCoverage, Bool.false_eq_true, if_false, Option.elim_some, bind_eq_ok, pure,
      Except.pure, Except.ok.injEq, List.append_eq_nil_iff] at covered
    obtain ⟨lost, missing, _, -, _, -, rfl, -⟩ := covered
    simp only [lostWitness, bind_eq_ok, pure, Except.pure, Except.ok.injEq] at missing
    obtain ⟨_, -, impossible⟩ := missing
    cases impossible

theorem getElem?_prefix_eq {α : Type} {xs ys : List α} (isPrefix : xs <+: ys) {i : Nat}
    (bound : i < xs.length) : xs[i]? = ys[i]? := by
  rw [List.getElem?_eq_getElem bound, isPrefix.getElem bound,
    List.getElem?_eq_getElem (bound.trans_le isPrefix.length_le)]

/-- In a prefix of a written journal an id stands where it stands in the journal. -/
theorem event_unique {host : Host} {content : Bytes} {events others : List Dict}
    (written : Written host content events) (isPrefix : payloads others <+: payloads events) {i n : Nat}
    {payload event : Dict} (here : (payloads others)[i]? = some payload)
    (there : events[n]? = some event) (same : get payload "event_id" = get event "event_id") : i = n := by
  obtain ⟨bound, value⟩ := List.getElem?_eq_some_iff.mp here
  have original := (getElem?_prefix_eq isPrefix bound).symm.trans here
  obtain ⟨inside, eventIs⟩ := List.getElem?_eq_some_iff.mp there
  have within : i < events.length := by
    have := (List.getElem?_eq_some_iff.mp original).1
    simpa [payloads] using this
  have payloadIs : payload = unsignedPayload events[i] := by
    simpa [payloads, List.getElem?_eq_getElem within, eq_comm] using original
  rw [payloadIs, get_unsigned_id, ← eventIs] at same
  by_contra different
  rcases Nat.lt_or_gt_of_ne different with lower | upper
  · exact List.pairwise_iff_getElem.mp written.ids i n within inside lower same
  · exact List.pairwise_iff_getElem.mp written.ids n i inside within upper same.symm

/-- A file the verifier accepts is a prefix of the journal that was written, and holds
the witness it was given, which stands where it stood. -/
theorem verified_is_prefix {host : Host} {name : String} {keys : List PublicKey}
    {file : Option Bytes} {events : List Dict} (produced : Produced host name file events)
    {source : Source} {checkpoint : Option Source} {result : Result}
    (verified : verifyJournal host source keys checkpoint = .ok result) (valid : result.valid = true)
    (collisionFree : ∀ content others, source = .readable content none →
      Decoded host (records content) others → CollisionFree host (payloads (events ++ others)))
    (unforgeable : Unforgeable host keys events) :
    ∃ content others, source = .readable content none ∧ Decoded host (records content) others ∧
      payloads others <+: payloads events ∧
      ∀ n event witness, checkpoint = some (.readable witness none) →
        decodeLine host (strip witness) = .ok (.dict event) → events[n]? = some event →
          (payloads others)[n]? = some (unsignedPayload event) ∧ n + 1 ≤ others.length := by
  have written := written_of_produced produced
  obtain ⟨read, readBack, returned⟩ := bind_eq_ok.mp verified
  have resultIs : read.1 = result := Except.ok.inj returned
  obtain ⟨loadedWitness, loaded, opened⟩ := bind_eq_ok.mp readBack
  cases source with
  | unopenable error =>
    cases opened
    cases resultIs
    cases valid
  | readable content failure =>
    obtain ⟨rfl, noIssues, decoded, clean, covered⟩ := readOpened_sound opened (resultIs ▸ valid)
    have oks := dictOk_of_decoded decoded
    have isPrefix := prefix_of_clean written oks clean (collisionFree content _ rfl decoded) unforgeable
    refine ⟨content, read.2, rfl, decoded, isPrefix, ?_⟩
    rintro n event witness rfl witnessDecoded position
    obtain ⟨found, issues⟩ := loadedWitness
    simp only at noIssues loaded
    subst noIssues
    obtain ⟨raw, same, sameSource, rfl, rawDecoded⟩ :=
      loadCheckpointWitness_sound (show loadCheckpointWitness host (.readable witness none) _ = _ from loaded)
    cases sameSource
    rw [witnessDecoded] at rawDecoded
    cases rawDecoded
    obtain ⟨other, member, matched⟩ := List.any_eq_true.mp (witness_found covered)
    obtain ⟨id, named⟩ := written.named event (List.mem_of_getElem? position)
    have otherId : get other "event_id" = .str id := by
      simpa [matchesWitness, named, pyStr, asStr_eq_some] using matched
    obtain ⟨i, bound, rfl⟩ := List.mem_iff_getElem.mp member
    have here : (payloads read.2)[i]? = some (unsignedPayload read.2[i]) := by simp [payloads, bound]
    have index := event_unique written isPrefix here position (by rw [get_unsigned_id, otherId, named])
    subst index
    refine ⟨?_, bound⟩
    have original : (payloads events)[i]? = some (unsignedPayload event) := by simp [payloads, position]
    rw [← original]
    exact getElem?_prefix_eq isPrefix (by simpa [payloads] using bound)

/-! ## The sample -/

theorem sample_unsigned :
    unsignedPayload sampleEvents.1 = samplePayload 0 none ∧
      unsignedPayload sampleEvents.2 = samplePayload 1 (some sampleHash) := by
  have stripped : ∀ {count previous event}, sampleBuild count previous = .ok event →
      unsignedPayload event = samplePayload count previous := by
    intro count previous event built
    obtain ⟨_, _, -, finalized⟩ := finalizeEvent_spec (dictOk_checkpointPayload _ _ _ count previous)
      (by simp [has, checkpointPayload, Members.get]) (by simp [has, checkpointPayload, Members.get]) built
    exact finalized.payload_eq
  exact ⟨stripped sampleBuild_eq.1, stripped sampleBuild_eq.2⟩

theorem get_samplePayload_id (count : Nat) (previous : Option Str) :
    get (samplePayload count previous) "event_id" = .str (sampleId count) := by
  simp [Python.Value.get, samplePayload, checkpointPayload, sampleStamp, Members.get]

theorem fresh_sample {events : List Dict} {count : Nat}
    (new : ∀ earlier ∈ events, get earlier "event_id" ≠ .str (sampleId count)) :
    Fresh sampleHost events (sampleBuild count) := by
  intro previous event built
  refine ⟨_, _, sampleId count, dictOk_checkpointPayload _ _ _ count previous, ?_, ?_, ?_,
    get_samplePayload_id count previous, new, built⟩
  · simp [has, checkpointPayload, Members.get]
  · simp [has, checkpointPayload, Members.get]
  · simp [Python.Value.get, checkpointPayload, Members.get]

/-- The sample with its newlines. -/
def sampleJournal : Bytes := (sampleAppended (sampleLine sampleEvents.1 ++ [10])).content

theorem produced_sample :
    Produced sampleHost "journal.jsonl" (some sampleJournal) [sampleEvents.1, sampleEvents.2] := by
  have first : Produced sampleHost "journal.jsonl" (some (sampleLine sampleEvents.1 ++ [10]))
      [sampleEvents.1] :=
    .append .absent (.checkpoint sampleBuild _ (fresh_sample (List.forall_mem_nil _)) sample_first)
  refine Produced.append first (.checkpoint sampleBuild _ ?_ (sample_second (.inr rfl)))
  have count : countEventLines (sampleLine sampleEvents.1 ++ [10]) = 1 :=
    (sample_valid (.inr rfl)).decoded.length_eq
  simp only [Option.getD_some, count]
  apply fresh_sample
  intro earlier member
  rw [List.mem_singleton.mp member, ← get_unsigned_id, sample_unsigned.1, get_samplePayload_id, Ne,
    Json.str.injEq]
  decide

theorem valid_sample :
    ValidFile sampleHost (toKeyring sampleHost [sampleKey]) sampleJournal [sampleEvents.1, sampleEvents.2] :=
  @validFile_of_call _ _ _ (some _) _ _ (sample_valid (.inr rfl)) (by decide +kernel) (sample_call (.inr rfl))

theorem collisionFree_of_two {host : Host} {payloads : List Dict} {one two : Dict} {first second : Bytes}
    (digestOne : eventDigest host one = .ok first) (digestTwo : eventDigest host two = .ok second)
    (different : first ≠ second) (cases : ∀ payload ∈ payloads, payload = one ∨ payload = two) :
    CollisionFree host payloads := by
  intro a memberA b memberB x y left right same
  have hashedA := eventDigest_eq_ok.mpr ⟨x, left, rfl⟩
  have hashedB := eventDigest_eq_ok.mpr ⟨y, right, rfl⟩
  rcases cases a memberA with rfl | rfl <;> rcases cases b memberB with rfl | rfl
  · exact Except.ok.inj (left.symm.trans right)
  · rw [digestOne] at hashedA
    rw [digestTwo, ← same] at hashedB
    exact absurd (Except.ok.inj (hashedA.trans hashedB.symm)) different
  · rw [digestTwo] at hashedA
    rw [digestOne, ← same] at hashedB
    exact absurd (Except.ok.inj (hashedB.trans hashedA.symm)) different
  · exact Except.ok.inj (left.symm.trans right)

theorem collisionFree_sample :
    CollisionFree sampleHost (payloads ([sampleEvents.1, sampleEvents.2] ++ [sampleEvents.1, sampleEvents.2])) := by
  apply collisionFree_of_two sample_digests.1 sample_digests.2 (by decide)
  intro payload member
  simp only [payloads, List.cons_append, List.nil_append, List.map_cons, List.map_nil, sample_unsigned,
    List.mem_cons, List.not_mem_nil, or_false] at member
  rcases member with first | second | first | second
  · exact .inl first
  · exact .inr second
  · exact .inl first
  · exact .inr second

theorem unforgeable_sample : Unforgeable sampleHost [sampleKey] [sampleEvents.1, sampleEvents.2] := by
  intro key member digest signature verified
  rw [List.mem_singleton.mp member] at verified
  unfold verifySignature at verified
  cases decoded : sampleHost.b64decode signature with
  | none => simp [decoded] at verified
  | some bytes =>
    simp only [decoded, sampleKey, Bool.or_eq_true, Bool.and_eq_true, beq_iff_eq] at verified
    rcases verified with ⟨-, rfl⟩ | ⟨-, rfl⟩
    · exact ⟨_, List.mem_cons_self, sample_unsigned.1 ▸ sample_digests.1⟩
    · exact ⟨_, List.mem_cons_of_mem _ List.mem_cons_self, sample_unsigned.2 ▸ sample_digests.2⟩

/-- The two checkpoints, verified with the second one as witness. -/
theorem verified_is_prefix_sample :
    ∃ others, Decoded sampleHost (records sampleJournal) others ∧
      payloads others <+: payloads [sampleEvents.1, sampleEvents.2] ∧ 2 ≤ others.length := by
  have file := valid_sample
  have solid := solid_encodeEvent sample_lines.2
  have ok : DictOk sampleHost sampleEvents.2 :=
    dictOk_of_decoded file.decoded _ (by simp)
  have decoded : decodeLine sampleHost (strip (sampleLine sampleEvents.2)) = .ok (.dict sampleEvents.2) := by
    rw [solid.stripped]
    exact decodeLine_encodeEvent ok sample_lines.2
  have same := fun field notHash notSignature =>
    sample_unsigned.2 ▸ (get_unsignedPayload_of_ne sampleEvents.2 field notHash notSignature)
  obtain ⟨result, verified, valid⟩ := verifyJournal_witness (n := 1) file
    (show sampleEvents.2 ∈ _ by simp)
    (by rw [isCheckpoint, ← same _ (by decide) (by decide)]
        simp [Python.Value.get, samplePayload, checkpointPayload, Members.get, asStr])
    ((same _ (by decide) (by decide)).symm.trans (get_samplePayload_id _ _))
    (by rw [countOf, ← same _ (by decide) (by decide)]
        simp [Python.Value.get, samplePayload, checkpointPayload, Members.get, asInt])
    (by simp) decoded
  obtain ⟨content, others, sameFile, read, isPrefix, witnessed⟩ :=
    verified_is_prefix produced_sample verified valid
      (by
        intro content others readable read
        cases readable
        rw [decoded_unique read file.decoded]
        exact collisionFree_sample)
      unforgeable_sample
  cases sameFile
  exact ⟨others, read, isPrefix, (witnessed 1 _ _ rfl decoded rfl).2⟩

end Tesera.Verification.TamperEvidence
