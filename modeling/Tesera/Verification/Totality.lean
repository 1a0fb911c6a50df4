import Tesera.Verification.Valid

/-!
When verification returns. A pass raises on a line nested too deeply, on an event whose
version, type or resolution cannot be hashed, and on one that cannot be written canonically;
the coverage check raises on a newest checkpoint without a usable count. On all other
files it returns a result that reports the line it stopped at.
-/

namespace Tesera.Verification.Totality
open Tesera.Text Tesera.Text.Unicode Tesera.Text.Lines Tesera.Python.Value Tesera.Canonical
open Tesera.Python.JsonCodec (checkDumps checkMembers checkMembers_iff loads_ok)
open Tesera.Journal.Record Tesera.Verification.Event Tesera.Verification.Journal
open Tesera.Verification.Valid

/-! ## Events -/

def hashable : Json → Bool
  | .list _ => false
  | .dict _ => false
  | _ => true

theorem inSet_isOk (names : List String) {v : Json} :
    (∃ known, inSet names v = .ok known) ↔ hashable v = true := by
  cases v <;> simp [inSet, hashable]

/-- An event the verifier returns the issues of. -/
structure Checkable (event : Dict) : Prop where
  schema : hashable (get event "schema_version") = true
  type : get event "schema_version" = .str (lit "1") → hashable (get event "event_type") = true
  resolution : get event "schema_version" = .str (lit "1") → typeOf event = some .resolution →
    missingFields .resolution event = [] → hashable (get event "resolution") = true
  canonical : ∀ type, get event "schema_version" = .str (lit "1") → typeOf event = some type →
    missingFields type event = [] → Canonicalizable (.dict (unsignedPayload event))

theorem checkDumps_unsignedPayload {host : Host} {depth : Nat} {event : Dict}
    (passed : checkDumps host true depth (.dict event) = .ok ()) :
    checkDumps host true depth (.dict (unsignedPayload event)) = .ok () := by
  cases depth with
  | zero => simp [checkDumps] at passed
  | succ depth =>
    simp only [checkDumps, checkMembers_iff] at passed ⊢
    exact fun p member => passed p (List.mem_filter.mp member).1

theorem eventDigest_isOk {host : Host} {event : Dict}
    (passed : checkDumps host true host.recursionLimit (.dict event) = .ok ()) :
    (∃ digest, eventDigest host (unsignedPayload event) = .ok digest) ↔
      Canonicalizable (.dict (unsignedPayload event)) := by
  rw [← canonicalJsonBytes_isOk (checkDumps_unsignedPayload passed)]
  simp only [eventDigest_eq_ok]
  constructor
  · rintro ⟨_, bytes, canonical, -⟩
    exact ⟨bytes, canonical⟩
  · rintro ⟨bytes, canonical⟩
    exact ⟨_, bytes, canonical, rfl⟩

theorem shapeIssues_isOk (host : Host) (line : Nat) (checkpoints : Checkpoints) {type : EventType}
    {event : Dict} : (∃ issues, shapeIssues host line checkpoints type event = .ok issues) ↔
      (type = .resolution → hashable (get event "resolution") = true) := by
  cases type
  case resolution =>
    simp only [shapeIssues, resolutionShape, bind_eq_ok, pure, Except.pure, Except.ok.injEq, true_implies,
      ← inSet_isOk knownResolutions]
    constructor
    · rintro ⟨_, known, found, -⟩
      exact ⟨known, found⟩
    · rintro ⟨known, found⟩
      exact ⟨_, known, found, rfl⟩
  all_goals simp [shapeIssues]

theorem bodyIssues_isOk {host : Host} {line : Nat} {expected : Option Str} {trusted : Keyring}
    {checkpoints : Checkpoints} {type : EventType} {event : Dict}
    (passed : checkDumps host true host.recursionLimit (.dict event) = .ok ()) :
    (∃ issues, bodyIssues host line expected trusted checkpoints type event = .ok issues) ↔
      (type = .resolution → hashable (get event "resolution") = true) ∧
        Canonicalizable (.dict (unsignedPayload event)) := by
  rw [← eventDigest_isOk passed,
    ← shapeIssues_isOk host line checkpoints]
  simp only [bodyIssues, bind_eq_ok, pure, Except.pure, Except.ok.injEq]
  constructor
  · rintro ⟨_, shape, shaped, digest, hashed, -⟩
    exact ⟨⟨shape, shaped⟩, digest, hashed⟩
  · rintro ⟨⟨shape, shaped⟩, digest, hashed⟩
    exact ⟨_, shape, shaped, digest, hashed, rfl⟩

/-- The verifier returns on an event exactly when it is checkable. -/
theorem verifyEvent_isOk {host : Host} {event : Dict} {line : Nat} {expected : Option Str}
    {trusted : Keyring} {checkpoints : Checkpoints}
    (passed : checkDumps host true host.recursionLimit (.dict event) = .ok ()) :
    (∃ issues, verifyEvent host event line expected trusted checkpoints = .ok issues) ↔
      Checkable event := by
  have version : ∀ known, inSet knownSchemaVersions (get event "schema_version") = .ok known →
      (known = true ↔ get event "schema_version" = .str (lit "1")) := by
    intro known found
    cases known with
    | true =>
      obtain ⟨name, member, same⟩ := inSet_eq_true.mp found
      rw [List.mem_singleton.mp member] at same
      simp [same]
    | false =>
      refine ⟨by simp, fun same => ?_⟩
      have isKnown : inSet knownSchemaVersions (get event "schema_version") = .ok true :=
        inSet_eq_true.mpr ⟨"1", List.mem_singleton_self _, same⟩
      rw [isKnown] at found
      cases found
  constructor
  · rintro ⟨issues, verified⟩
    simp only [verifyEvent, bind_eq_ok] at verified
    obtain ⟨known, schema, verified⟩ := verified
    have isVersion := version known schema
    refine ⟨(inSet_isOk _).mp ⟨known, schema⟩, ?_, ?_, ?_⟩
    · intro one
      simp only [if_pos (isVersion.mpr one), bind_eq_ok] at verified
      obtain ⟨knownType, typed, -⟩ := verified
      exact (inSet_isOk _).mp ⟨knownType, typed⟩
    · intro one typed fields
      simp only [if_pos (isVersion.mpr one), bind_eq_ok, typed, if_pos fields] at verified
      obtain ⟨-, -, body⟩ := verified
      exact ((bodyIssues_isOk passed).mp ⟨issues, body⟩).1 rfl
    · intro type one typed fields
      simp only [if_pos (isVersion.mpr one), bind_eq_ok, typed, if_pos fields] at verified
      obtain ⟨-, -, body⟩ := verified
      exact ((bodyIssues_isOk passed).mp ⟨issues, body⟩).2
  · intro checkable
    obtain ⟨known, schema⟩ := (inSet_isOk knownSchemaVersions).mpr checkable.schema
    simp only [verifyEvent, schema, bind, Except.bind]
    cases known with
    | false => exact ⟨_, rfl⟩
    | true =>
      have one := (version true schema).mp rfl
      obtain ⟨knownType, type⟩ := (inSet_isOk knownEventTypes).mpr (checkable.type one)
      simp only [if_true, type]
      cases typed : typeOf event with
      | none => exact ⟨_, rfl⟩
      | some type =>
        simp only
        split_ifs with fields
        · refine (bodyIssues_isOk passed).mpr ⟨?_, checkable.canonical type one typed fields⟩
          rintro rfl
          exact checkable.resolution one typed fields
        · exact ⟨_, rfl⟩

/-! ## Lines -/

/-- A line that is neither blank nor an object. -/
def Malformed (host : Host) (raw : Bytes) : Prop :=
  strip raw ≠ [] ∧ ∀ event, decodeLine host (strip raw) ≠ .ok (.dict event)

/-- The objects a pass reads: those before the first malformed line. -/
def objects (host : Host) : List Bytes → List Dict
  | [] => []
  | raw :: rest =>
      if strip raw = [] then objects host rest
      else
        match decodeLine host (strip raw) with
        | .ok (.dict event) => event :: objects host rest
        | _ => []

/-- What the first malformed line decodes to. -/
def ending (host : Host) : List Bytes → Option (Except PyError Json)
  | [] => none
  | raw :: rest =>
      if strip raw = [] then ending host rest
      else
        match decodeLine host (strip raw) with
        | .ok (.dict _) => ending host rest
        | other => some other

/-- The lines a pass reads decode without a recursion error, to checkable events. -/
structure Readable (host : Host) (lines : List Bytes) : Prop where
  parses : ∀ e, ending host lines = some (.error e) → e.isValueError = true
  events : ∀ event ∈ objects host lines, Checkable event

theorem passed_of_decodeLine {host : Host} {line : Bytes} {v : Json}
    (decoded : decodeLine host line = .ok v) : checkDumps host true host.recursionLimit v = .ok () := by
  obtain ⟨text, -, loaded⟩ := decodeLine_eq_ok.mp decoded
  exact (loads_ok loaded).2

/-- A pass returns exactly when its lines are readable. -/
theorem scan_isOk {host : Host} (trusted : Keyring) (witnessId : Option Str) (failure : Option String)
    {lines : List Bytes} (p : Progress) :
    (∃ q, scan host trusted witnessId failure lines p = .ok q) ↔ Readable host lines := by
  induction lines generalizing p with
  | nil =>
    refine iff_of_true ?_ ⟨by simp [ending], by simp [objects]⟩
    cases failure <;> exact ⟨_, rfl⟩
  | cons raw rest ih =>
    by_cases blank : strip raw = []
    · simp only [scan, if_pos blank, ih]
      constructor
      · rintro ⟨parses, events⟩
        exact ⟨by simpa only [ending, if_pos blank] using parses,
          by simpa only [objects, if_pos blank] using events⟩
      · rintro ⟨parses, events⟩
        exact ⟨by simpa only [ending, if_pos blank] using parses,
          by simpa only [objects, if_pos blank] using events⟩
    · cases decoded : decodeLine host (strip raw) with
      | error e =>
        have stops : ending host (raw :: rest) = some (.error e) := by
          simp only [ending, if_neg blank, decoded]
        have none : objects host (raw :: rest) = [] := by simp only [objects, if_neg blank, decoded]
        simp only [scan, if_neg blank, decoded]
        cases isValue : e.isValueError with
        | true =>
          refine iff_of_true ⟨_, rfl⟩ ⟨?_, by simp [none]⟩
          intro other same
          rw [stops] at same
          cases same
          exact isValue
        | false =>
          refine iff_of_false (by simp) ?_
          intro readable
          have := readable.parses e stops
          simp [isValue] at this
      | ok v =>
        cases v with
        | dict event =>
          have passed := passed_of_decodeLine decoded
          have tail : ending host (raw :: rest) = ending host rest := by
            simp only [ending, if_neg blank, decoded]
          have head : objects host (raw :: rest) = event :: objects host rest := by
            simp only [objects, if_neg blank, decoded]
          simp only [scan, if_neg blank, decoded, bind_eq_ok]
          constructor
          · rintro ⟨q, found, verified, scanned⟩
            obtain ⟨parses, events⟩ := (ih _).mp ⟨q, scanned⟩
            refine ⟨by rwa [tail], ?_⟩
            rw [head]
            exact List.forall_mem_cons.mpr ⟨(verifyEvent_isOk passed).mp ⟨found, verified⟩, events⟩
          · rintro ⟨parses, events⟩
            rw [head, List.forall_mem_cons] at events
            rw [tail] at parses
            obtain ⟨found, verified⟩ := (verifyEvent_isOk passed).mpr events.1
            obtain ⟨q, scanned⟩ := (ih _).mpr ⟨parses, events.2⟩
            exact ⟨q, found, verified, scanned⟩
        | _ =>
          refine iff_of_true ?_ ⟨?_, ?_⟩
          · simp only [scan, if_neg blank, decoded]
            exact ⟨_, rfl⟩
          · simp [ending, if_neg blank, decoded]
          · simp [objects, if_neg blank, decoded]

/-! ## Reports -/

/-- The issues of an event carry its line. -/
theorem verifyEvent_line {host : Host} {event : Dict} {line : Nat} {expected : Option Str}
    {trusted : Keyring} {checkpoints : Checkpoints} {issues : List Issue}
    (verified : verifyEvent host event line expected trusted checkpoints = .ok issues) :
    ∀ issue ∈ issues, issue.lineNumber = line := by
  have one : ∀ bad code message, ∀ issue ∈ issueIf bad line code message, issue.lineNumber = line := by
    intro bad code message
    cases bad <;> simp [issueIf]
  have shaped : ∀ {type shape}, shapeIssues host line checkpoints type event = .ok shape →
      ∀ issue ∈ shape, issue.lineNumber = line := by
    intro type shape found
    cases type
    case decision =>
      cases found
      exact List.forall_mem_nil _
    case outcome =>
      cases found
      exact one _ _ _
    case checkpoint =>
      cases found
      simp only [checkpointShape, List.forall_mem_append]
      exact ⟨one _ _ _, one _ _ _⟩
    case resolution =>
      simp only [shapeIssues, resolutionShape, bind_eq_ok, pure, Except.pure, Except.ok.injEq] at found
      obtain ⟨known, -, rfl⟩ := found
      simp only [List.forall_mem_append]
      exact ⟨⟨one _ _ _, one _ _ _⟩, one _ _ _⟩
    case countersignature =>
      cases found
      simp only [countersignatureShape, List.forall_mem_append]
      refine ⟨?_, one _ _ _⟩
      cases referencedCheckpoint checkpoints event with
      | none => simp
      | some checkpoint =>
        simp only [List.forall_mem_append]
        exact ⟨one _ _ _, one _ _ _⟩
    case archive =>
      cases found
      simp only [archiveShape, List.forall_mem_append]
      refine ⟨⟨one _ _ _, one _ _ _⟩, ?_⟩
      split
      · exact one _ _ _
      · simp
    case rotation =>
      cases found
      simp only [rotationShape, List.forall_mem_append]
      refine ⟨⟨⟨one _ _ _, one _ _ _⟩, ?_⟩, one _ _ _⟩
      split
      · simp
      · exact one _ _ _
  simp only [verifyEvent, bind_eq_ok] at verified
  obtain ⟨known, -, verified⟩ := verified
  cases known with
  | false =>
    cases verified
    simp
  | true =>
    simp only [if_true, bind_eq_ok] at verified
    obtain ⟨-, -, verified⟩ := verified
    cases typed : typeOf event with
    | none =>
      simp only [typed] at verified
      cases verified
      simp
    | some type =>
      simp only [typed] at verified
      split_ifs at verified with fields
      · simp only [bodyIssues, bind_eq_ok, pure, Except.pure, Except.ok.injEq] at verified
        obtain ⟨shape, found, digest, -, rfl⟩ := verified
        simp only [List.forall_mem_append]
        refine ⟨⟨⟨shaped found, one _ _ _⟩, one _ _ _⟩, ?_⟩
        unfold signatureIssues
        cases signerOf trusted event with
        | none => simp
        | some signer => exact one _ _ _
      · cases verified
        simp

/-- The index of the first malformed line. -/
def firstMalformed (host : Host) : List Bytes → Option Nat
  | [] => none
  | raw :: rest =>
      if strip raw = [] then (firstMalformed host rest).map (· + 1)
      else
        match decodeLine host (strip raw) with
        | .ok (.dict _) => (firstMalformed host rest).map (· + 1)
        | _ => some 0

/-- A line is reported as malformed. -/
def Reports (issues : List Issue) (line : Nat) : Prop :=
  ∃ issue ∈ issues, issue.lineNumber = line ∧ (issue.code = "malformed_json" ∨ issue.code = "malformed_event")

/-- What a pass that returns has done: it followed the objects, and reported the first
malformed line and none after it. -/
theorem scan_reports {host : Host} {trusted : Keyring} {witnessId : Option Str} {failure : Option String}
    {lines : List Bytes} {p q : Progress} (scanned : scan host trusted witnessId failure lines p = .ok q) :
    Followed witnessId p (objects host lines) q ∧
      ∃ more, q.issues = p.issues ++ more ∧ ∀ i ∈ firstMalformed host lines,
        Reports more (p.lineNumber + i + 1) ∧ ∀ issue ∈ more, issue.lineNumber ≤ p.lineNumber + i + 1 := by
  induction lines generalizing p with
  | nil =>
    cases failure with
    | none =>
      cases scanned
      exact ⟨⟨rfl, rfl, by simp [objects], by simp [objects]⟩, [], by simp, by simp [firstMalformed]⟩
    | some error =>
      cases scanned
      exact ⟨⟨rfl, rfl, by simp [objects, Progress.report], by simp [objects, Progress.report]⟩,
        [_], rfl, by simp [firstMalformed]⟩
  | cons raw rest ih =>
    simp only [scan] at scanned
    split_ifs at scanned with blank
    · obtain ⟨followed, more, issues, reports⟩ := ih scanned
      have same : objects host (raw :: rest) = objects host rest := by simp only [objects, if_pos blank]
      refine ⟨?_, more, issues, ?_⟩
      · rw [same]
        exact ⟨followed.newest, followed.total, followed.found, followed.read⟩
      · intro i first
        simp only [firstMalformed, if_pos blank, Option.mem_def, Option.map_eq_some_iff] at first
        obtain ⟨j, first, rfl⟩ := first
        have here := reports j first
        simp only [Nat.add_assoc, Nat.add_comm 1] at here ⊢
        exact here
    · cases decoded : decodeLine host (strip raw) with
      | error e =>
        have none : objects host (raw :: rest) = [] := by simp only [objects, if_neg blank, decoded]
        have first : firstMalformed host (raw :: rest) = some 0 := by
          simp only [firstMalformed, if_neg blank, decoded]
        simp only [decoded] at scanned
        split_ifs at scanned
        cases scanned
        refine ⟨?_, [_], rfl, ?_⟩
        · rw [none]
          exact ⟨rfl, rfl, by simp [Progress.report], by simp [Progress.report]⟩
        · rintro i same
          rw [first] at same
          cases same
          simp [Reports]
      | ok v =>
        cases v with
        | dict event =>
          have head : objects host (raw :: rest) = event :: objects host rest := by
            simp only [objects, if_neg blank, decoded]
          simp only [decoded, bind_eq_ok] at scanned
          obtain ⟨found, verified, scanned⟩ := scanned
          have line := verifyEvent_line verified
          obtain ⟨followed, more, issues, reports⟩ := ih scanned
          refine ⟨?_, found ++ more, ?_, ?_⟩
          · rw [head]
            have := followed.cons
            exact ⟨this.newest, this.total, this.found, this.read⟩
          · rw [issues, Progress.follow, List.append_assoc]
          · intro i first
            simp only [firstMalformed, if_neg blank, decoded, Option.mem_def, Option.map_eq_some_iff]
              at first
            obtain ⟨j, first, rfl⟩ := first
            obtain ⟨⟨issue, member, here⟩, bounds⟩ := reports j first
            simp only [Progress.follow, Nat.add_assoc, Nat.add_comm 1] at here bounds ⊢
            refine ⟨⟨issue, List.mem_append_right _ member, here⟩, ?_⟩
            intro other member
            rcases List.mem_append.mp member with early | late
            · have := line other early
              omega
            · exact bounds other late
        | _ =>
          have none : objects host (raw :: rest) = [] := by simp only [objects, if_neg blank, decoded]
          have first : firstMalformed host (raw :: rest) = some 0 := by
            simp only [firstMalformed, if_neg blank, decoded]
          simp only [decoded, Except.ok.injEq] at scanned
          subst scanned
          refine ⟨?_, [_], rfl, ?_⟩
          · rw [none]
            exact ⟨rfl, rfl, by simp [Progress.report], by simp [Progress.report]⟩
          · rintro i same
            rw [first] at same
            cases same
            simp [Reports]

theorem firstMalformed_of_malformed {host : Host} {raw : Bytes} (rest : List Bytes)
    (malformed : Malformed host raw) : firstMalformed host (raw :: rest) = some 0 := by
  rw [firstMalformed, if_neg malformed.1]
  split
  next event decoded => exact absurd decoded (malformed.2 event)
  next => rfl

theorem firstMalformed_of_not {host : Host} {raw : Bytes} (rest : List Bytes)
    (fine : ¬ Malformed host raw) :
    firstMalformed host (raw :: rest) = (firstMalformed host rest).map (· + 1) := by
  rw [firstMalformed]
  split_ifs with blank
  · rfl
  · split
    next => rfl
    next other => exact absurd ⟨blank, fun event decoded => other event decoded⟩ fine

theorem firstMalformed_eq_some {host : Host} {lines : List Bytes} {i : Nat}
    (first : firstMalformed host lines = some i) :
    ∃ raw, lines[i]? = some raw ∧ Malformed host raw := by
  induction lines generalizing i with
  | nil => cases first
  | cons raw rest ih =>
    by_cases bad : Malformed host raw
    · rw [firstMalformed_of_malformed rest bad] at first
      cases first
      exact ⟨raw, rfl, bad⟩
    · rw [firstMalformed_of_not rest bad] at first
      obtain ⟨j, found, rfl⟩ := Option.map_eq_some_iff.mp first
      exact ih found

theorem firstMalformed_le {host : Host} {lines : List Bytes} {i : Nat} {raw : Bytes}
    (here : lines[i]? = some raw) (malformed : Malformed host raw) :
    ∃ first ≤ i, firstMalformed host lines = some first := by
  induction lines generalizing i with
  | nil => cases here
  | cons head rest ih =>
    by_cases bad : Malformed host head
    · exact ⟨0, Nat.zero_le i, firstMalformed_of_malformed rest bad⟩
    · cases i with
      | zero =>
        cases here
        exact absurd malformed bad
      | succ i =>
        obtain ⟨first, bound, found⟩ := ih here
        exact ⟨first + 1, Nat.succ_le_succ bound, by rw [firstMalformed_of_not rest bad, found]; rfl⟩

/-! ## The witness -/

/-- The witness file decodes without a recursion error, and where it is an object its
version can be hashed and, if it has the shape of a checkpoint, its payload written. -/
structure WitnessReadable (host : Host) (content : Bytes) : Prop where
  parses : strip content ≠ [] → ∀ e, decodeLine host (strip content) = .error e → e.isValueError = true
  schema : ∀ event, decodeLine host (strip content) = .ok (.dict event) →
    hashable (get event "schema_version") = true
  canonical : ∀ event, decodeLine host (strip content) = .ok (.dict event) →
    get event "schema_version" = .str (lit "1") → witnessShape host true event = none →
      Canonicalizable (.dict (unsignedPayload event))

theorem known_iff {v : Json} {known : Bool} (found : inSet knownSchemaVersions v = .ok known) :
    known = true ↔ v = .str (lit "1") := by
  constructor
  · rintro rfl
    obtain ⟨name, member, same⟩ := inSet_eq_true.mp found
    rw [same, List.mem_singleton.mp member]
  · intro same
    have isKnown : inSet knownSchemaVersions v = .ok true :=
      inSet_eq_true.mpr ⟨"1", List.mem_singleton_self _, same⟩
    rw [isKnown] at found
    cases found
    rfl

theorem witnessShape_unknown (host : Host) (event : Dict) : witnessShape host false event ≠ none := by
  simp [witnessShape]

theorem checkWitness_isOk {host : Host} {trusted : Keyring} {event : Dict}
    (passed : checkDumps host true host.recursionLimit (.dict event) = .ok ()) :
    (∃ loaded, checkWitness host trusted event = .ok loaded) ↔
      hashable (get event "schema_version") = true ∧ (get event "schema_version" = .str (lit "1") →
        witnessShape host true event = none → Canonicalizable (.dict (unsignedPayload event))) := by
  rw [← inSet_isOk knownSchemaVersions, ← eventDigest_isOk passed]
  simp only [checkWitness, bind_eq_ok]
  constructor
  · rintro ⟨loaded, known, found, checked⟩
    refine ⟨⟨known, found⟩, ?_⟩
    intro one shape
    rw [(known_iff found).mpr one, shape] at checked
    obtain ⟨digest, hashed, -⟩ := bind_eq_ok.mp checked
    exact ⟨digest, hashed⟩
  · rintro ⟨⟨known, found⟩, digests⟩
    cases shape : witnessShape host known event with
    | some message =>
      refine ⟨invalidWitness message, known, found, ?_⟩
      simp only [shape]
      rfl
    | none =>
      have isKnown : known = true := by
        cases known with
        | true => rfl
        | false => exact absurd shape (witnessShape_unknown host event)
      subst isKnown
      obtain ⟨digest, hashed⟩ := digests ((known_iff found).mp rfl) shape
      cases problem : witnessSeal host trusted digest event with
      | some message =>
        refine ⟨invalidWitness message, true, found, ?_⟩
        simp [shape, hashed, problem, bind, Except.bind, pure, Except.pure]
      | none =>
        refine ⟨(some event, []), true, found, ?_⟩
        simp [shape, hashed, problem, bind, Except.bind, pure, Except.pure]

theorem loadCheckpointWitness_isOk {host : Host} {trusted : Keyring} {content : Bytes} :
    (∃ loaded, loadCheckpointWitness host (.readable content none) trusted = .ok loaded) ↔
      WitnessReadable host content := by
  unfold loadCheckpointWitness
  simp only
  split_ifs with empty
  · refine iff_of_true ⟨_, rfl⟩ ⟨fun nonempty => absurd empty nonempty, ?_, ?_⟩
    · rw [empty]
      exact fun event decoded => absurd decoded Journal.Tail.decodeLine_nil
    · rw [empty]
      exact fun event decoded => absurd decoded Journal.Tail.decodeLine_nil
  · cases decoded : decodeLine host (strip content) with
    | error e =>
      simp only
      cases isValue : e.isValueError with
      | true => exact iff_of_true ⟨_, rfl⟩ ⟨by simp [decoded, isValue], by simp [decoded], by simp [decoded]⟩
      | false =>
        refine iff_of_false (by simp) ?_
        intro readable
        have := readable.parses empty e decoded
        simp [isValue] at this
    | ok v =>
      cases v with
      | dict event =>
        simp only
        rw [checkWitness_isOk (passed_of_decodeLine decoded)]
        constructor
        · rintro ⟨schema, canonical⟩
          refine ⟨by simp [decoded], ?_, ?_⟩
          · intro other same
            cases decoded.symm.trans same
            exact schema
          · intro other same
            cases decoded.symm.trans same
            exact canonical
        · intro readable
          exact ⟨readable.schema event decoded, readable.canonical event decoded⟩
      | _ => exact iff_of_true ⟨_, rfl⟩ ⟨by simp [decoded], by simp [decoded], by simp [decoded]⟩

/-- Issues that belong to no line. -/
def NoLine (issues : List Issue) : Prop := ∀ issue ∈ issues, issue.lineNumber = 0

theorem countOf_of_witnessShape {host : Host} {known : Bool} {event : Dict}
    (shape : witnessShape host known event = none) : ∃ n, countOf event = some n := by
  have counted : badCount 0 (get event "checkpoint_count") = false := by
    by_contra bad
    rw [Bool.not_eq_false] at bad
    unfold witnessShape at shape
    simp only [bad, if_true] at shape
    split_ifs at shape
  unfold countOf
  cases count : asInt (get event "checkpoint_count") with
  | none => simp [badCount, count] at counted
  | some n => exact ⟨n, rfl⟩

/-- A witness that is loaded has a count, and its issues belong to no line. -/
theorem loadWitness_spec {host : Host} {trusted : Keyring} {checkpoint : Option Source}
    {witness : Option Dict} {issues : List Issue}
    (loaded : loadWitness host trusted checkpoint = .ok (witness, issues)) :
    NoLine issues ∧ ∀ event ∈ witness, ∃ n, countOf event = some n := by
  have rejected : ∀ code message, (witness, issues) = witnessIssue code message →
      NoLine issues ∧ ∀ event ∈ witness, ∃ n, countOf event = some n := by
    rintro code message same
    cases same
    exact ⟨by simp [NoLine], by simp⟩
  have unreadable : ∀ error : String, (Except.ok (witnessIssue "checkpoint_witness_unreadable"
      s!"cannot read checkpoint witness ({error})") : Except PyError _) = .ok (witness, issues) →
      NoLine issues ∧ ∀ event ∈ witness, ∃ n, countOf event = some n :=
    fun error same => rejected _ _ (Except.ok.inj same).symm
  have invalid : ∀ message, (Except.ok (invalidWitness message) : Except PyError _) = .ok (witness, issues) →
      NoLine issues ∧ ∀ event ∈ witness, ∃ n, countOf event = some n :=
    fun message same => rejected _ _ (Except.ok.inj same).symm
  match checkpoint with
  | none =>
    cases loaded
    exact ⟨by simp [NoLine], by simp⟩
  | some (.unopenable error) => exact unreadable error loaded
  | some (.readable content (some error)) => exact unreadable error loaded
  | some (.readable content none) =>
    simp only [loadWitness, loadCheckpointWitness] at loaded
    split_ifs at loaded with empty
    · exact invalid _ loaded
    · cases decoded : decodeLine host (strip content) with
      | error e =>
        simp only [decoded] at loaded
        split_ifs at loaded
        exact invalid _ loaded
      | ok v =>
        cases v with
        | dict event =>
          simp only [decoded, checkWitness, bind_eq_ok] at loaded
          obtain ⟨known, -, checked⟩ := loaded
          cases shape : witnessShape host known event with
          | some message =>
            rw [shape] at checked
            exact invalid message checked
          | none =>
            rw [shape] at checked
            obtain ⟨digest, -, checked⟩ := bind_eq_ok.mp checked
            cases problem : witnessSeal host trusted digest event with
            | some message =>
              rw [problem] at checked
              exact invalid message checked
            | none =>
              rw [problem] at checked
              cases checked
              refine ⟨List.forall_mem_nil _, ?_⟩
              intro other same
              cases Option.mem_some_iff.mp same
              exact countOf_of_witnessShape shape
        | _ =>
          simp only [decoded] at loaded
          exact invalid _ loaded

/-! ## Coverage -/

/-- A newest checkpoint whose count can be compared with that of a witness in the file
and, where that is not the greater one, converted to an integer. -/
structure CountUsable (host : Host) (present : Option Dict) (newest : Dict) : Prop where
  has_count : has newest "checkpoint_count" = true
  usable : match present with
    | none => ∃ n, pyInt host (get newest "checkpoint_count") = .ok n
    | some witness => ∃ greater,
        pyGt host (get witness "checkpoint_count") (get newest "checkpoint_count") = .ok greater ∧
          (greater = false → ∃ n, pyInt host (get newest "checkpoint_count") = .ok n)

theorem item_eq_ok {event : Dict} {field : String} {value : Json} :
    item event field = .ok value ↔ has event field = true ∧ value = get event field := by
  cases present : has event field with
  | true => simp [item_of_has present, eq_comm]
  | false =>
    simp only [has, Option.isSome_eq_false_iff, Option.isNone_iff_eq_none] at present
    simp [item, present]

theorem truncationIssues_isOk {host : Host} (total : Nat) {checkpoint : Dict} :
    (∃ issues, truncationIssues host total checkpoint = .ok issues) ↔
      has checkpoint "checkpoint_count" = true ∧
        ∃ n, pyInt host (get checkpoint "checkpoint_count") = .ok n := by
  simp only [truncationIssues, bind_eq_ok, item_eq_ok, pure, Except.pure, Except.ok.injEq]
  constructor
  · rintro ⟨_, _, ⟨present, rfl⟩, n, count, -⟩
    exact ⟨present, n, count⟩
  · rintro ⟨present, n, count⟩
    exact ⟨_, _, ⟨present, rfl⟩, n, count, rfl⟩

theorem truncationIssues_noLine {host : Host} {total : Nat} {checkpoint : Dict} {issues : List Issue}
    (truncated : truncationIssues host total checkpoint = .ok issues) : NoLine issues := by
  simp only [truncationIssues, bind_eq_ok, pure, Except.pure, Except.ok.injEq] at truncated
  obtain ⟨_, -, n, -, rfl⟩ := truncated
  intro issue member
  unfold issueIf at member
  split_ifs at member
  · rw [List.mem_singleton.mp member]
  · cases member

/-- The candidates of the coverage check: the newest checkpoint, then the witness. -/
theorem effective_isOk {host : Host} {newest present : Option Dict} (total : Nat)
    (counted : ∀ witness ∈ present, ∃ n, countOf witness = some n) :
    (∃ effective issues, effectiveCheckpoint host (newest.toList ++ present.toList) = .ok effective ∧
        coverageOf host total effective = .ok issues) ↔
      ∀ checkpoint ∈ newest, CountUsable host present checkpoint := by
  cases newest with
  | none =>
    refine iff_of_true ?_ (by simp)
    cases present with
    | none => exact ⟨none, [], rfl, rfl⟩
    | some witness =>
      obtain ⟨n, count⟩ := counted witness rfl
      obtain ⟨issues, truncated, -⟩ := truncationIssues_eq host total count
      refine ⟨some witness, issues, ?_, truncated⟩
      simp [effectiveCheckpoint, maxByCount, item_of_countOf count, bind, Except.bind, pure, Except.pure]
  | some checkpoint =>
    have single : (∀ other ∈ some checkpoint, CountUsable host present other) ↔
        CountUsable host present checkpoint := by simp
    rw [single]
    cases present with
    | none =>
      have split : (∃ effective issues,
          effectiveCheckpoint host ((some checkpoint).toList ++ (none : Option Dict).toList) = .ok effective ∧
            coverageOf host total effective = .ok issues) ↔
          has checkpoint "checkpoint_count" = true ∧
            ∃ issues, truncationIssues host total checkpoint = .ok issues := by
        simp only [Option.toList_some, Option.toList_none, List.append_nil, effectiveCheckpoint,
          maxByCount, bind_eq_ok, item_eq_ok, pure, Except.pure, Except.ok.injEq]
        constructor
        · rintro ⟨_, issues, ⟨_, ⟨present, rfl⟩, best, rfl, rfl⟩, covered⟩
          exact ⟨present, issues, covered⟩
        · rintro ⟨present, issues, covered⟩
          exact ⟨_, issues, ⟨_, ⟨present, rfl⟩, _, rfl, rfl⟩, covered⟩
      rw [split, truncationIssues_isOk]
      constructor
      · rintro ⟨present, -, usable⟩
        exact ⟨present, usable⟩
      · intro usable
        exact ⟨usable.has_count, usable.has_count, usable.usable⟩
    | some witness =>
      obtain ⟨n, count⟩ := counted witness rfl
      obtain ⟨covered, truncated, -⟩ := truncationIssues_eq host total count
      constructor
      · rintro ⟨effective, issues, chosen, covers⟩
        simp only [Option.toList_some, List.singleton_append, effectiveCheckpoint, maxByCount, bind_eq_ok,
          item_eq_ok, item_of_countOf count, Except.ok.injEq] at chosen
        obtain ⟨_, ⟨present, rfl⟩, best, ⟨_, rfl, greater, compared, chosen⟩, same⟩ := chosen
        refine ⟨present, greater, compared, ?_⟩
        rintro rfl
        cases chosen
        cases same
        exact ((truncationIssues_isOk total).mp ⟨issues, covers⟩).2
      · rintro ⟨present, greater, compared, usable⟩
        cases greater with
        | true =>
          refine ⟨some witness, covered, ?_, truncated⟩
          simp [effectiveCheckpoint, maxByCount, item_of_countOf count, item_of_has present, compared, bind,
            Except.bind, pure, Except.pure]
        | false =>
          obtain ⟨issues, truncatedNewest⟩ :=
            (truncationIssues_isOk total).mpr ⟨present, usable rfl⟩
          refine ⟨some checkpoint, issues, ?_, truncatedNewest⟩
          simp [effectiveCheckpoint, maxByCount, item_of_countOf count, item_of_has present, compared, bind,
            Except.bind, pure, Except.pure]

theorem checkpointCoverage_isOk {host : Host} {newest witness : Option Dict} {found : Bool} {total : Nat}
    (counted : ∀ event ∈ witness, ∃ n, countOf event = some n) :
    (∃ issues, checkpointCoverage host newest witness found total = .ok issues) ↔
      ∀ checkpoint ∈ newest, CountUsable host (if found then witness else none) checkpoint := by
  have present : ∀ event ∈ (if found then witness else none), ∃ n, countOf event = some n := by
    intro event member
    split_ifs at member
    · exact counted event member
    · cases member
  have lost : ∃ issues, (if found then none else witness).elim (.ok []) (lostWitness host total) =
      .ok issues := by
    cases found with
    | true => exact ⟨_, rfl⟩
    | false =>
      cases witness with
      | none => exact ⟨_, rfl⟩
      | some event =>
        obtain ⟨n, count⟩ := counted event rfl
        obtain ⟨issues, truncated, -⟩ := truncationIssues_eq host total count
        simp [lostWitness, truncated, bind, Except.bind, pure, Except.pure]
  have candidates : (if found then witness.toList else []) = (if found then witness else none).toList := by
    cases found <;> rfl
  rw [← effective_isOk total present]
  simp only [checkpointCoverage, candidates, bind_eq_ok, pure, Except.pure, Except.ok.injEq]
  obtain ⟨missing, lost⟩ := lost
  constructor
  · rintro ⟨_, _, -, effective, chosen, covered, covers, -⟩
    exact ⟨effective, covered, chosen, covers⟩
  · rintro ⟨effective, covered, chosen, covers⟩
    exact ⟨_, missing, lost, effective, chosen, covered, covers, rfl⟩

theorem checkpointCoverage_noLine {host : Host} {newest witness : Option Dict} {found : Bool} {total : Nat}
    {issues : List Issue} (covered : checkpointCoverage host newest witness found total = .ok issues) :
    NoLine issues := by
  simp only [checkpointCoverage, bind_eq_ok, pure, Except.pure, Except.ok.injEq] at covered
  obtain ⟨lost, missing, effective, -, truncated, covers, rfl⟩ := covered
  have lostNoLine : NoLine lost := by
    cases absent : (if found then none else witness) with
    | none =>
      rw [absent] at missing
      cases missing
      exact List.forall_mem_nil _
    | some event =>
      rw [absent] at missing
      obtain ⟨tail, truncatedTail, same⟩ := bind_eq_ok.mp missing
      cases same
      exact List.forall_mem_cons.mpr ⟨rfl, truncationIssues_noLine truncatedTail⟩
  have truncatedNoLine : NoLine truncated := by
    cases effective with
    | none =>
      cases covers
      exact List.forall_mem_nil _
    | some checkpoint => exact truncationIssues_noLine covers
  exact List.forall_mem_append.mpr ⟨lostNoLine, truncatedNoLine⟩

/-! ## The verifier -/

/-- A witness, where one of the events carries its id. -/
def presentWitness (host : Host) (events : List Dict) (witness : Option Dict) : Option Dict :=
  witness.filter (fun event => events.any (matchesWitness (some (pyStr host (get event "event_id")))))

/-- Nothing in the witness and in the lines read makes the verifier raise. -/
structure Handled (host : Host) (trusted : Keyring) (content : Bytes) (checkpoint : Option Source) :
    Prop where
  witness : ∀ raw, checkpoint = some (.readable raw none) → WitnessReadable host raw
  lines : Readable host (splitLines content)
  counts : ∀ loaded issues, loadWitness host trusted checkpoint = .ok (loaded, issues) →
    ∀ newest ∈ (objects host (splitLines content)).foldl noteNewest none,
      CountUsable host (presentWitness host (objects host (splitLines content)) loaded) newest

theorem loadWitness_isOk {host : Host} {trusted : Keyring} {checkpoint : Option Source} :
    (∃ loaded, loadWitness host trusted checkpoint = .ok loaded) ↔
      ∀ raw, checkpoint = some (.readable raw none) → WitnessReadable host raw := by
  match checkpoint with
  | none => exact iff_of_true ⟨_, rfl⟩ (by simp)
  | some (.unopenable error) => exact iff_of_true ⟨_, rfl⟩ (by simp)
  | some (.readable content (some error)) => exact iff_of_true ⟨_, rfl⟩ (by simp)
  | some (.readable content none) =>
    simp only [loadWitness, loadCheckpointWitness_isOk, Option.some.injEq, Source.readable.injEq, and_true]
    exact ⟨fun readable raw same => same ▸ readable, fun readable => readable content rfl⟩

theorem present_of_found (host : Host) (events : List Dict) (witness : Option Dict) :
    (if events.any (matchesWitness (witness.map (fun event => pyStr host (get event "event_id")))) then
      witness else none) = presentWitness host events witness := by
  cases witness with
  | none => simp [presentWitness]
  | some event => simp [presentWitness, Option.filter]

/-- What is done with an opened file, once its lines have been read. -/
theorem readOpened_isOk {host : Host} (trusted : Keyring) {content : Bytes} (failure : Option String)
    {witness : Option Dict} (witnessIssues : List Issue)
    (counted : ∀ event ∈ witness, ∃ n, countOf event = some n) :
    (∃ r, readOpened host trusted content failure witness witnessIssues = .ok r) ↔
      Readable host (splitLines content) ∧
        ∀ newest ∈ (objects host (splitLines content)).foldl noteNewest none,
          CountUsable host (presentWitness host (objects host (splitLines content)) witness) newest := by
  have coverage : ∀ p, scan host trusted (witness.map (fun event => pyStr host (get event "event_id"))) failure
      (splitLines content) (start witnessIssues) = .ok p →
      ((∃ issues, checkpointCoverage host p.newestCheckpoint witness p.witnessFound p.totalEvents =
        .ok issues) ↔ ∀ newest ∈ (objects host (splitLines content)).foldl noteNewest none,
          CountUsable host (presentWitness host (objects host (splitLines content)) witness) newest) := by
    intro p scanned
    have followed := (scan_reports scanned).1
    have newest := followed.newest
    have found := followed.found
    simp only [start, Bool.false_or] at newest found
    rw [checkpointCoverage_isOk counted, newest, found, present_of_found]
  rw [← scan_isOk trusted (witness.map (fun event => pyStr host (get event "event_id"))) failure
    (start witnessIssues)]
  simp only [readOpened, bind_eq_ok, pure, Except.pure, Except.ok.injEq]
  constructor
  · rintro ⟨r, p, scanned, issues, covered, -⟩
    exact ⟨⟨p, scanned⟩, (coverage p scanned).mp ⟨issues, covered⟩⟩
  · rintro ⟨⟨p, scanned⟩, counts⟩
    obtain ⟨issues, covered⟩ := (coverage p scanned).mpr counts
    exact ⟨_, p, scanned, issues, covered, rfl⟩

theorem readAndVerify_isOk {host : Host} {trusted : Keyring} {content : Bytes} (failure : Option String)
    {checkpoint : Option Source} :
    (∃ r, readAndVerify host (.readable content failure) trusted checkpoint = .ok r) ↔
      Handled host trusted content checkpoint := by
  simp only [readAndVerify, bind_eq_ok]
  constructor
  · rintro ⟨r, ⟨witness, witnessIssues⟩, loaded, opened⟩
    have spec := loadWitness_spec loaded
    obtain ⟨lines, counts⟩ := (readOpened_isOk trusted failure witnessIssues spec.2).mp ⟨r, opened⟩
    refine ⟨loadWitness_isOk.mp ⟨_, loaded⟩, lines, ?_⟩
    intro other issues same
    cases loaded.symm.trans same
    exact counts
  · rintro ⟨readable, lines, counts⟩
    obtain ⟨⟨witness, witnessIssues⟩, loaded⟩ := loadWitness_isOk.mpr readable
    have spec := loadWitness_spec loaded
    obtain ⟨r, opened⟩ := (readOpened_isOk trusted failure witnessIssues
      spec.2).mpr ⟨lines, counts _ _ loaded⟩
    exact ⟨r, _, loaded, opened⟩

/-- A result reports the first malformed line, and nothing after it. -/
theorem readAndVerify_reports {host : Host} {trusted : Keyring} {content : Bytes} {failure : Option String}
    {checkpoint : Option Source} {r : Result × List Dict}
    (verified : readAndVerify host (.readable content failure) trusted checkpoint = .ok r) :
    ∀ i ∈ firstMalformed host (splitLines content),
      Reports r.1.issues (i + 1) ∧ ∀ issue ∈ r.1.issues, issue.lineNumber ≤ i + 1 := by
  obtain ⟨⟨witness, witnessIssues⟩, loaded, opened⟩ := bind_eq_ok.mp verified
  simp only [readOpened, bind_eq_ok, pure, Except.pure, Except.ok.injEq] at opened
  obtain ⟨p, scanned, coverage, covered, rfl⟩ := opened
  obtain ⟨-, more, issues, reports⟩ := scan_reports scanned
  intro i first
  obtain ⟨⟨issue, member, here⟩, bounds⟩ := reports i first
  simp only [start, Nat.zero_add] at issues here bounds
  refine ⟨⟨issue, ?_, here⟩, ?_⟩
  · rw [issues]
    exact List.mem_append_left _ (List.mem_append_right _ member)
  · intro other inside
    rw [issues] at inside
    rcases List.mem_append.mp inside with early | late
    · rcases List.mem_append.mp early with fromWitness | fromScan
      · rw [(loadWitness_spec loaded).1 other fromWitness]
        exact Nat.zero_le _
      · exact bounds other fromScan
    · rw [checkpointCoverage_noLine covered other late]
      exact Nat.zero_le _

/-- A result that reports the first malformed line of a file. -/
def ReportsFirst (host : Host) (lines : List Bytes) (result : Result) : Prop :=
  ∀ i raw, lines[i]? = some raw → Malformed host raw →
    (∀ j other, j < i → lines[j]? = some other → ¬ Malformed host other) → Reports result.issues (i + 1)

/-- A result that reports each malformed line of a file. -/
def ReportsAll (host : Host) (lines : List Bytes) (result : Result) : Prop :=
  ∀ i raw, lines[i]? = some raw → Malformed host raw → Reports result.issues (i + 1)

def OneMalformed (host : Host) (lines : List Bytes) : Prop :=
  ∀ (i j : Nat) (a b : Bytes), lines[i]? = some a → Malformed host a → lines[j]? = some b → Malformed host b → i = j

theorem reports_of_readAndVerify {host : Host} {trusted : Keyring} {content : Bytes}
    {failure : Option String} {checkpoint : Option Source} {r : Result × List Dict}
    (verified : readAndVerify host (.readable content failure) trusted checkpoint = .ok r) :
    ReportsFirst host (splitLines content) r.1 ∧
      (ReportsAll host (splitLines content) r.1 ↔ OneMalformed host (splitLines content)) := by
  have reports := readAndVerify_reports verified
  have unique : ∀ i raw, (splitLines content)[i]? = some raw → Malformed host raw →
      Reports r.1.issues (i + 1) → firstMalformed host (splitLines content) = some i := by
    rintro i raw here malformed ⟨issue, member, line, -⟩
    obtain ⟨first, bound, found⟩ := firstMalformed_le here malformed
    have := (reports first found).2 issue member
    rw [found, show first = i by omega]
  refine ⟨?_, ?_, ?_⟩
  · intro i raw here malformed none
    obtain ⟨first, bound, found⟩ := firstMalformed_le here malformed
    obtain ⟨other, there, bad⟩ := firstMalformed_eq_some found
    have same : first = i := by
      rcases Nat.lt_or_ge first i with earlier | later
      · exact absurd bad (none first other earlier there)
      · omega
    exact (reports i (same ▸ found)).1
  · intro all i j a b hereA malformedA hereB malformedB
    have first := unique i a hereA malformedA (all i a hereA malformedA)
    have second := unique j b hereB malformedB (all j b hereB malformedB)
    exact Option.some.inj (first.symm.trans second)
  · intro one i raw here malformed
    obtain ⟨first, bound, found⟩ := firstMalformed_le here malformed
    obtain ⟨other, there, bad⟩ := firstMalformed_eq_some found
    rw [one i first raw other here malformed there bad]
    exact (reports first found).1

/-- `verify_journal` and the verification of a snapshot return a result that reports the
first malformed line exactly when nothing they read makes them raise. Each malformed line
is reported exactly when there is at most one besides, since a pass ends at the first. -/
theorem verification_returns_iff (host : Host) (keys : List PublicKey) (content : Bytes)
    (failure : Option String) (checkpoint : Option Source) (project : Dict → Dict) :
    ((∃ result, verifyJournal host (.readable content failure) keys checkpoint = .ok result ∧
        ReportsFirst host (splitLines content) result) ↔
      Handled host (toKeyring host keys) content checkpoint) ∧
    ((∃ result events, loadJournalSnapshot host (.readable content failure) keys project =
        .ok (result, events) ∧ ReportsFirst host (splitLines content) result) ↔
      Handled host (toKeyring host keys) content none) ∧
    ((∃ result, verifyJournal host (.readable content failure) keys checkpoint = .ok result ∧
        ReportsAll host (splitLines content) result) ↔
      Handled host (toKeyring host keys) content checkpoint ∧ OneMalformed host (splitLines content)) ∧
    ((∃ result events, loadJournalSnapshot host (.readable content failure) keys project =
        .ok (result, events) ∧ ReportsAll host (splitLines content) result) ↔
      Handled host (toKeyring host keys) content none ∧ OneMalformed host (splitLines content)) := by
  have verify : ∀ P : Result → Prop,
      (∃ result, verifyJournal host (.readable content failure) keys checkpoint = .ok result ∧ P result) ↔
        ∃ r, readAndVerify host (.readable content failure) (toKeyring host keys) checkpoint = .ok r ∧ P r.1 := by
    intro P
    simp only [verifyJournal, bind_eq_ok, pure, Except.pure, Except.ok.injEq]
    constructor
    · rintro ⟨_, ⟨r, read, rfl⟩, holds⟩
      exact ⟨r, read, holds⟩
    · rintro ⟨r, read, holds⟩
      exact ⟨r.1, ⟨r, read, rfl⟩, holds⟩
  have snapshot : ∀ P : Result → Prop,
      (∃ result events, loadJournalSnapshot host (.readable content failure) keys project =
          .ok (result, events) ∧ P result) ↔
        ∃ r, readAndVerify host (.readable content failure) (toKeyring host keys) none = .ok r ∧ P r.1 := by
    intro P
    simp only [loadJournalSnapshot, bind_eq_ok, pure, Except.pure, Except.ok.injEq, Prod.mk.injEq]
    constructor
    · rintro ⟨_, _, ⟨r, read, rfl, -⟩, holds⟩
      exact ⟨r, read, holds⟩
    · rintro ⟨r, read, holds⟩
      exact ⟨r.1, _, ⟨r, read, rfl, rfl⟩, holds⟩
  have first : ∀ source, (∃ r, readAndVerify host (.readable content failure) (toKeyring host keys) source =
      .ok r ∧ ReportsFirst host (splitLines content) r.1) ↔
      Handled host (toKeyring host keys) content source := by
    intro source
    rw [← readAndVerify_isOk failure]
    constructor
    · rintro ⟨r, read, -⟩
      exact ⟨r, read⟩
    · rintro ⟨r, read⟩
      exact ⟨r, read, (reports_of_readAndVerify read).1⟩
  have all : ∀ source, (∃ r, readAndVerify host (.readable content failure) (toKeyring host keys) source =
      .ok r ∧ ReportsAll host (splitLines content) r.1) ↔
      Handled host (toKeyring host keys) content source ∧ OneMalformed host (splitLines content) := by
    intro source
    rw [← readAndVerify_isOk failure]
    constructor
    · rintro ⟨r, read, every⟩
      exact ⟨⟨r, read⟩, (reports_of_readAndVerify read).2.mp every⟩
    · rintro ⟨⟨r, read⟩, one⟩
      exact ⟨r, read, (reports_of_readAndVerify read).2.mpr one⟩
  rw [verify, snapshot, verify, snapshot]
  exact ⟨first checkpoint, first none, all checkpoint, all none⟩

/-- A version that is a list makes the verifier raise a `TypeError`. -/
theorem verification_raises :
    verifyJournal (Host.plain (fun _ => []) (fun _ => none))
      (.readable ((utf8Encode (lit "\x7b\"schema_version\":[]\x7d")).getD []) none) [] none =
        .error .typeError := by
  decide +kernel

end Tesera.Verification.Totality
