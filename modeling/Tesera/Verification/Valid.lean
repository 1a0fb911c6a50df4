import Tesera.Journal.Tail
import Tesera.Verification.Journal

/-!
What a valid result says about a file: each record decodes to an event, each event is
clean against the one before it, and the newest checkpoint counts no more events than
there are. Conversely a file of which this holds is valid.
-/

namespace Tesera.Verification.Valid
open Tesera.Text Tesera.Text.Unicode Tesera.Text.Lines Tesera.Python.Value Tesera.Canonical
open Tesera.Journal.Record Tesera.Verification.Event Tesera.Verification.Journal

/-- An event the verifier has no issue with. -/
def IsClean (host : Host) (trusted : Keyring) (previous : Option Str) (checkpoints : Checkpoints)
    (event : Dict) : Prop :=
  ∃ type digest signer, Clean host event previous trusted checkpoints type digest signer

/-- Events each of which is clean after the ones before it. -/
def CleanFrom (host : Host) (trusted : Keyring) : Option Str → Checkpoints → List Dict → Prop
  | _, _, [] => True
  | previous, checkpoints, event :: rest =>
      IsClean host trusted previous checkpoints event ∧
        CleanFrom host trusted (asStr (get event "event_hash")) (noteCheckpoint checkpoints event) rest

/-- What a pass over clean events adds to its state. -/
structure Followed (witnessId : Option Str) (p : Progress) (events : List Dict) (q : Progress) : Prop where
  newest : q.newestCheckpoint = events.foldl noteNewest p.newestCheckpoint
  total : q.totalEvents = p.totalEvents + events.length
  found : q.witnessFound = (p.witnessFound || events.any (matchesWitness witnessId))
  read : q.events = p.events ++ events

theorem Followed.cons {witnessId : Option Str} {p q : Progress} {event : Dict} {found : List Issue}
    {rest : List Dict} (followed : Followed witnessId (p.follow witnessId event found) rest q) :
    Followed witnessId p (event :: rest) q where
  newest := followed.newest
  total := by rw [followed.total, Progress.follow, List.length_cons, Nat.add_assoc, Nat.add_comm 1]
  found := by rw [followed.found, Progress.follow, List.any_cons, Bool.or_assoc]
  read := by simp [followed.read, Progress.follow]

/-! ## A pass -/

/-- Issues are only added. -/
theorem scan_issues {host : Host} {trusted : Keyring} {witnessId : Option Str} {failure : Option String}
    {lines : List Bytes} {p q : Progress} (scanned : scan host trusted witnessId failure lines p = .ok q)
    (clean : q.issues = []) : p.issues = [] := by
  induction lines generalizing p with
  | nil =>
    unfold scan at scanned
    cases failure with
    | none =>
      cases scanned
      exact clean
    | some error =>
      cases scanned
      simp [Progress.report] at clean
  | cons raw rest ih =>
    simp only [scan] at scanned
    split_ifs at scanned with blank
    · have before := ih scanned
      exact before
    · cases decoded : decodeLine host (strip raw) with
      | error e =>
        simp only [decoded] at scanned
        split_ifs at scanned
        cases scanned
        simp [Progress.report] at clean
      | ok v =>
        cases v with
        | dict event =>
          simp only [decoded, bind_eq_ok] at scanned
          obtain ⟨found, -, scanned⟩ := scanned
          have := ih scanned
          simp only [Progress.follow, List.append_eq_nil_iff] at this
          exact this.1
        | _ =>
          simp only [decoded, Except.ok.injEq] at scanned
          subst scanned
          simp [Progress.report] at clean

/-- A pass without issues has met only clean events, and no failure. -/
theorem scan_sound {host : Host} {trusted : Keyring} {witnessId : Option Str} {failure : Option String}
    {lines : List Bytes} {p q : Progress} (scanned : scan host trusted witnessId failure lines p = .ok q)
    (clean : q.issues = []) :
    failure = none ∧ ∃ events,
      Decoded host ((lines.map strip).filter (fun line => line ≠ [])) events ∧
        CleanFrom host trusted p.previousHash p.checkpoints events ∧ Followed witnessId p events q := by
  induction lines generalizing p with
  | nil =>
    unfold scan at scanned
    cases failure with
    | none =>
      cases scanned
      exact ⟨rfl, [], .nil, trivial, ⟨rfl, rfl, by simp, by simp⟩⟩
    | some error =>
      cases scanned
      simp [Progress.report] at clean
  | cons raw rest ih =>
    simp only [scan] at scanned
    split_ifs at scanned with blank
    · obtain ⟨none, events, decoded, cleanFrom, followed⟩ := ih scanned
      refine ⟨none, events, by simpa [blank] using decoded, cleanFrom, ?_⟩
      exact ⟨followed.newest, followed.total, followed.found, followed.read⟩
    · cases decoded : decodeLine host (strip raw) with
      | error e =>
        simp only [decoded] at scanned
        split_ifs at scanned
        cases scanned
        simp [Progress.report] at clean
      | ok v =>
        cases v with
        | dict event =>
          simp only [decoded, bind_eq_ok] at scanned
          obtain ⟨found, verified, scanned⟩ := scanned
          have before := scan_issues scanned clean
          simp only [Progress.follow, List.append_eq_nil_iff] at before
          obtain ⟨-, rfl⟩ := before
          obtain ⟨none, events, rests, cleanFrom, followed⟩ := ih scanned
          refine ⟨none, event :: events, ?_, ⟨verifyEvent_eq_nil.mp verified, cleanFrom⟩, ?_⟩
          · rw [List.map_cons, List.filter_cons_of_pos (by simpa using blank)]
            exact .cons decoded rests
          · have := followed.cons
            exact ⟨this.newest, this.total, this.found, this.read⟩
        | _ =>
          simp only [decoded, Except.ok.injEq] at scanned
          subst scanned
          simp [Progress.report] at clean

/-- A pass over clean events returns without issues. -/
theorem scan_complete {host : Host} {trusted : Keyring} (witnessId : Option Str)
    {lines : List Bytes} {p : Progress} {events : List Dict} (before : p.issues = [])
    (decoded : Decoded host ((lines.map strip).filter (fun line => line ≠ [])) events)
    (clean : CleanFrom host trusted p.previousHash p.checkpoints events) :
    ∃ q, scan host trusted witnessId none lines p = .ok q ∧ q.issues = [] ∧
      Followed witnessId p events q := by
  induction lines generalizing p events with
  | nil =>
    cases decoded
    exact ⟨p, rfl, before, ⟨rfl, rfl, by simp, by simp⟩⟩
  | cons raw rest ih =>
    by_cases blank : strip raw = []
    · rw [List.map_cons, List.filter_cons_of_neg (by simpa using blank)] at decoded
      obtain ⟨q, scanned, issues, followed⟩ :=
        ih (p := { p with lineNumber := p.lineNumber + 1 }) before decoded clean
      refine ⟨q, ?_, issues, ⟨followed.newest, followed.total, followed.found, followed.read⟩⟩
      simp only [scan, if_pos blank, scanned]
    · rw [List.map_cons, List.filter_cons_of_pos (by simpa using blank)] at decoded
      cases decoded with
      | cons first others =>
        rename_i event events
        obtain ⟨cleanEvent, cleanRest⟩ := clean
        have verified : ∀ line, verifyEvent host event line p.previousHash trusted p.checkpoints = .ok [] :=
          fun line => verifyEvent_eq_nil.mpr cleanEvent
        obtain ⟨q, scanned, issues, followed⟩ :=
          ih (p := ({ p with lineNumber := p.lineNumber + 1 } : Progress).follow witnessId event [])
            (by simp [Progress.follow, before]) others cleanRest
        refine ⟨q, ?_, issues, ?_⟩
        · simp only [scan, if_neg blank, first, verified, bind, Except.bind]
          exact scanned
        · have := followed.cons
          exact ⟨this.newest, this.total, this.found, this.read⟩

/-! ## Coverage -/

/-- The count a checkpoint commits to. -/
def countOf (checkpoint : Dict) : Option Int := asInt (get checkpoint "checkpoint_count")

/-- No more events are committed to than there are. -/
def Covered (newest : Option Dict) (total : Nat) : Prop :=
  ∀ checkpoint ∈ newest, ∀ n ∈ countOf checkpoint, n ≤ (total : Int)

theorem pyInt_of_asInt {host : Host} {v : Json} {n : Int} (value : asInt v = some n) :
    pyInt host v = .ok n := by
  cases v <;> simp_all [asInt, pyInt]

theorem item_of_countOf {checkpoint : Dict} {n : Int} (count : countOf checkpoint = some n) :
    item checkpoint "checkpoint_count" = .ok (get checkpoint "checkpoint_count") := by
  apply item_of_has
  apply has_of_get_ne_null
  intro null
  simp [countOf, null, asInt] at count

theorem truncationIssues_eq (host : Host) (total : Nat) {checkpoint : Dict} {n : Int}
    (count : countOf checkpoint = some n) :
    ∃ issues, truncationIssues host total checkpoint = .ok issues ∧ (issues = [] ↔ n ≤ total) := by
  simp only [truncationIssues, item_of_countOf count, bind, Except.bind, pyInt_of_asInt count, pure,
    Except.pure]
  exact ⟨_, rfl, by simp only [issueIf_eq_nil, decide_eq_false_iff_not, not_lt]⟩

/-- A clean checkpoint has a count. -/
theorem countOf_of_clean {host : Host} {trusted : Keyring} {previous : Option Str}
    {checkpoints : Checkpoints} {event : Dict}
    (clean : IsClean host trusted previous checkpoints event) (checkpoint : isCheckpoint event = true) :
    ∃ n, countOf event = some n ∧ 0 ≤ n := by
  obtain ⟨type, digest, signer, clean⟩ := clean
  have typed := clean.typed
  simp only [isCheckpoint, beq_iff_eq, asStr_eq_some] at checkpoint
  rw [checkpoint, Json.str.injEq, lit_inj] at typed
  have isType : type = .checkpoint := by
    revert typed
    cases type <;> decide
  subst isType
  have shape := clean.shape
  simp only [shapeIssues, checkpointShape, Except.ok.injEq, List.append_eq_nil_iff, issueIf_eq_nil,
    badCount] at shape
  unfold countOf
  cases count : asInt (get event "checkpoint_count") with
  | none => simp [count] at shape
  | some n =>
    simp only [count, decide_eq_false_iff_not, not_lt] at shape
    exact ⟨n, rfl, shape.2⟩

/-- The head a clean checkpoint commits to is a hash or nothing. -/
theorem head_of_clean {host : Host} {trusted : Keyring} {previous : Option Str}
    {checkpoints : Checkpoints} {event : Dict}
    (clean : IsClean host trusted previous checkpoints event) (checkpoint : isCheckpoint event = true) :
    get event "head_sha256" = linkOf previous := by
  obtain ⟨type, digest, signer, clean⟩ := clean
  have typed := clean.typed
  simp only [isCheckpoint, beq_iff_eq, asStr_eq_some] at checkpoint
  rw [checkpoint, Json.str.injEq, lit_inj] at typed
  have isType : type = .checkpoint := by
    revert typed
    cases type <;> decide
  subst isType
  have shape := clean.shape
  simp only [shapeIssues, checkpointShape, Except.ok.injEq, List.append_eq_nil_iff, issueIf_eq_nil,
    Bool.not_eq_false'] at shape
  rw [clean.link, pyEq_linkOf] at shape
  exact shape.1

theorem isCheckpoint_foldl_noteNewest {events : List Dict} {newest : Option Dict} {checkpoint : Dict}
    (found : events.foldl noteNewest newest = some checkpoint) :
    newest = some checkpoint ∨ (checkpoint ∈ events ∧ isCheckpoint checkpoint = true) := by
  induction events generalizing newest with
  | nil => exact .inl found
  | cons event events ih =>
    rcases ih found with here | ⟨member, isOne⟩
    · unfold noteNewest at here
      split_ifs at here with isOne
      · cases here
        exact .inr ⟨List.mem_cons_self, isOne⟩
      · exact .inl here
    · exact .inr ⟨List.mem_cons_of_mem event member, isOne⟩

theorem isClean_of_mem {host : Host} {trusted : Keyring} {events : List Dict} {previous : Option Str}
    {checkpoints : Checkpoints} (clean : CleanFrom host trusted previous checkpoints events)
    {event : Dict} (member : event ∈ events) :
    ∃ previous checkpoints, IsClean host trusted previous checkpoints event := by
  induction events generalizing previous checkpoints with
  | nil => cases member
  | cons first events ih =>
    rcases List.mem_cons.mp member with rfl | inside
    · exact ⟨previous, checkpoints, clean.1⟩
    · exact ih clean.2 inside

theorem countOf_newest {host : Host} {trusted : Keyring} {events : List Dict} {previous : Option Str}
    {checkpoints : Checkpoints} (clean : CleanFrom host trusted previous checkpoints events)
    {checkpoint : Dict} (newest : events.foldl noteNewest none = some checkpoint) :
    ∃ n, countOf checkpoint = some n ∧ 0 ≤ n := by
  rcases isCheckpoint_foldl_noteNewest newest with impossible | ⟨member, isOne⟩
  · cases impossible
  · obtain ⟨_, _, cleanOne⟩ := isClean_of_mem clean member
    exact countOf_of_clean cleanOne isOne

theorem checkpointCoverage_none (host : Host) {newest : Option Dict} (total : Nat)
    (counted : ∀ checkpoint ∈ newest, ∃ n, countOf checkpoint = some n) :
    ∃ issues, checkpointCoverage host newest none false total = .ok issues ∧
      (issues = [] ↔ Covered newest total) := by
  cases newest with
  | none =>
    refine ⟨[], ?_, by simp [Covered]⟩
    simp [checkpointCoverage, coverageOf, effectiveCheckpoint, bind, Except.bind, pure, Except.pure]
  | some checkpoint =>
    obtain ⟨n, count⟩ := counted checkpoint rfl
    obtain ⟨issues, truncated, meaning⟩ := truncationIssues_eq host total count
    refine ⟨issues, ?_, ?_⟩
    · simp [checkpointCoverage, coverageOf, effectiveCheckpoint, maxByCount, item_of_countOf count, truncated, bind,
        Except.bind, pure, Except.pure]
    · rw [meaning]
      simp [Covered, count]

/-! ## Valid files -/

/-- A file that `verify_journal` finds valid, with its events. -/
structure ValidFile (host : Host) (trusted : Keyring) (content : Bytes) (events : List Dict) : Prop where
  decoded : Decoded host (records content) events
  clean : CleanFrom host trusted none [] events
  covered : Covered (events.foldl noteNewest none) events.length

theorem readOpened_sound {host : Host} {trusted : Keyring} {content : Bytes} {failure : Option String}
    {witness : Option Dict} {witnessIssues : List Issue} {r : Result × List Dict}
    (opened : readOpened host trusted content failure witness witnessIssues = .ok r)
    (valid : r.1.valid = true) :
    failure = none ∧ witnessIssues = [] ∧ Decoded host (records content) r.2 ∧
      CleanFrom host trusted none [] r.2 ∧
      checkpointCoverage host (r.2.foldl noteNewest none) witness
        (r.2.any (matchesWitness (witness.map (fun event => pyStr host (get event "event_id")))))
        r.2.length = .ok [] := by
  simp only [readOpened, bind_eq_ok, pure, Except.pure, Except.ok.injEq] at opened
  obtain ⟨p, scanned, coverage, covers, rfl⟩ := opened
  simp only [List.isEmpty_iff, List.append_eq_nil_iff] at valid
  obtain ⟨clean, rfl⟩ := valid
  have noWitnessIssue := scan_issues scanned clean
  obtain ⟨noFailure, events, decoded, cleanFrom, followed⟩ := scan_sound scanned clean
  have read : p.events = events := by rw [followed.read]; rfl
  refine ⟨noFailure, noWitnessIssue, read ▸ decoded, read ▸ cleanFrom, ?_⟩
  have newest := followed.newest
  have total := followed.total
  have found := followed.found
  simp only [start, Nat.zero_add, Bool.false_or] at newest total found
  rw [newest, found, total, ← read] at covers
  exact covers

theorem readAndVerify_sound {host : Host} {trusted : Keyring} {source : Source}
    {r : Result × List Dict} (verified : readAndVerify host source trusted none = .ok r)
    (valid : r.1.valid = true) :
    ∃ content, source = .readable content none ∧ ValidFile host trusted content r.2 := by
  simp only [readAndVerify, bind_eq_ok, pure, Except.pure] at verified
  obtain ⟨_, same, opened⟩ := verified
  cases same
  cases source with
  | unopenable error =>
    cases opened
    cases valid
  | readable content failure =>
    obtain ⟨rfl, -, decoded, clean, covers⟩ := readOpened_sound opened valid
    refine ⟨content, rfl, decoded, clean, ?_⟩
    obtain ⟨issues, same, meaning⟩ := checkpointCoverage_none host r.2.length
      (fun checkpoint newest => (countOf_newest clean newest).imp fun _ => And.left)
    have noMatch : r.2.any (matchesWitness ((none : Option Dict).map
        (fun event => pyStr host (get event "event_id")))) = false := by simp [matchesWitness]
    rw [noMatch, same] at covers
    cases covers
    exact meaning.mp rfl

theorem readAndVerify_complete {host : Host} {trusted : Keyring} {content : Bytes} {events : List Dict}
    (file : ValidFile host trusted content events) :
    ∃ r, readAndVerify host (.readable content none) trusted none = .ok (r, events) ∧
      r.valid = true ∧ r.issues = [] := by
  obtain ⟨p, scanned, clean, followed⟩ := scan_complete none (p := start []) rfl file.decoded file.clean
  obtain ⟨issues, covers, meaning⟩ := checkpointCoverage_none host events.length
    (fun checkpoint newest => (countOf_newest file.clean newest).imp fun _ => And.left)
  cases meaning.mpr file.covered
  have newest := followed.newest
  have total := followed.total
  have found := followed.found
  have read := followed.read
  simp only [start, Nat.zero_add, Bool.false_or, List.nil_append] at newest total found read
  have noMatch : events.any (matchesWitness none) = false := by simp [matchesWitness]
  refine ⟨⟨true, p.eventsVerified, []⟩, ?_, rfl, rfl⟩
  have scanned' : scan host trusted none none (splitLines content) (start []) = .ok p := scanned
  simp [readAndVerify, loadWitness, readOpened, scanned', newest, total, found, noMatch, covers, clean, read, bind,
    Except.bind, pure, Except.pure]

/-- `verify_journal` without a witness finds a file valid exactly when its records are
clean events that cover the newest checkpoint. -/
theorem verifyJournal_valid_iff {host : Host} {keys : List PublicKey} {source : Source} :
    (∃ r, verifyJournal host source keys none = .ok r ∧ r.valid = true) ↔
      ∃ content events, source = .readable content none ∧
        ValidFile host (toKeyring host keys) content events := by
  constructor
  · rintro ⟨r, verified, valid⟩
    simp only [verifyJournal, bind_eq_ok, pure, Except.pure, Except.ok.injEq] at verified
    obtain ⟨read, verified, rfl⟩ := verified
    obtain ⟨content, rfl, file⟩ := readAndVerify_sound verified valid
    exact ⟨content, read.2, rfl, file⟩
  · rintro ⟨content, events, rfl, file⟩
    obtain ⟨r, verified, valid, -⟩ := readAndVerify_complete file
    refine ⟨r, ?_, valid⟩
    simp [verifyJournal, verified, bind, Except.bind, pure, Except.pure]

/-! ## A witness from the file -/

theorem checkWitness_of_clean {host : Host} {trusted : Keyring} {previous : Option Str}
    {checkpoints : Checkpoints} {event : Dict}
    (clean : IsClean host trusted previous checkpoints event) (checkpoint : isCheckpoint event = true) :
    checkWitness host trusted event = .ok (some event, []) := by
  obtain ⟨type, digest, signer, clean⟩ := clean
  have named := checkpoint
  simp only [isCheckpoint, beq_iff_eq, asStr_eq_some] at named
  have isType : type = .checkpoint := by
    have typed := clean.typed
    rw [named, Json.str.injEq, lit_inj] at typed
    revert typed
    cases type <;> decide
  subst isType
  have shape := clean.shape
  have fields := clean.fields
  simp only [shapeIssues, checkpointShape, Except.ok.injEq, List.append_eq_nil_iff, issueIf_eq_nil,
    Bool.not_eq_false'] at shape
  rw [missingFields, List.append_eq_nil_iff] at fields
  have known : inSet knownSchemaVersions (get event "schema_version") = .ok true :=
    inSet_eq_true.mpr ⟨"1", List.mem_singleton_self _, clean.schema⟩
  have noProblem : witnessShape host true event = none := by
    simp [witnessShape, checkpoint, fields.1, shape.1, shape.2]
  have sealedOk : witnessSeal host trusted digest event = none := by
    simp [witnessSeal, pyEq_str.mpr clean.stored, clean.signed, clean.verified]
  simp [checkWitness, known, noProblem, clean.hashed, sealedOk, bind, Except.bind, pure, Except.pure]

theorem pyGt_of_asInt (host : Host) {v w : Json} {m n : Int} (left : asInt v = some m)
    (right : asInt w = some n) : ∃ greater, pyGt host v w = .ok greater := by
  have leftNumber : ∃ x, number host v = some x := by cases v <;> simp_all [asInt, number]
  have rightNumber : ∃ y, number host w = some y := by cases w <;> simp_all [asInt, number]
  obtain ⟨x, foundX⟩ := leftNumber
  obtain ⟨y, foundY⟩ := rightNumber
  exact ⟨y.lt x, by simp only [pyGt, foundX, foundY]⟩

/-- Two covered checkpoints are covered by the greater of them. -/
theorem checkpointCoverage_found (host : Host) {newest : Option Dict} {witness : Dict} {total : Nat}
    (counted : ∀ checkpoint ∈ newest, ∃ n, countOf checkpoint = some n) (covered : Covered newest total)
    {n : Int} (count : countOf witness = some n) (bound : n ≤ total) :
    checkpointCoverage host newest (some witness) true total = .ok [] := by
  obtain ⟨issues, truncated, meaning⟩ := truncationIssues_eq host total count
  cases meaning.mpr bound
  cases newest with
  | none =>
    simp [checkpointCoverage, coverageOf, effectiveCheckpoint, maxByCount, item_of_countOf count,
      truncated, bind, Except.bind, pure, Except.pure]
  | some checkpoint =>
    obtain ⟨m, countNewest⟩ := counted checkpoint rfl
    obtain ⟨others, truncatedNewest, meaningNewest⟩ :=
      truncationIssues_eq host total countNewest
    cases meaningNewest.mpr (covered checkpoint rfl m countNewest)
    obtain ⟨greater, compared⟩ := pyGt_of_asInt host count countNewest
    cases greater <;>
      simp [checkpointCoverage, coverageOf, effectiveCheckpoint, maxByCount, item_of_countOf count,
        item_of_countOf countNewest, compared, truncated, truncatedNewest, bind, Except.bind, pure,
        Except.pure]

/-- A checkpoint of a valid file is accepted as its witness. -/
theorem verifyJournal_witness {host : Host} {keys : List PublicKey} {content witness : Bytes}
    {events : List Dict} {event : Dict} {id : Str} {n : Int}
    (file : ValidFile host (toKeyring host keys) content events) (member : event ∈ events)
    (checkpoint : isCheckpoint event = true) (named : get event "event_id" = .str id)
    (count : countOf event = some n) (bound : n ≤ events.length)
    (decoded : decodeLine host (strip witness) = .ok (.dict event)) :
    ∃ result, verifyJournal host (.readable content none) keys (some (.readable witness none)) =
      .ok result ∧ result.valid = true := by
  obtain ⟨previous, checkpoints, cleanEvent⟩ := isClean_of_mem file.clean member
  have nonempty : strip witness ≠ [] := by
    intro empty
    rw [empty] at decoded
    exact Journal.Tail.decodeLine_nil decoded
  have loaded : loadCheckpointWitness host (.readable witness none) (toKeyring host keys) =
      .ok (some event, []) := by
    simp only [loadCheckpointWitness, if_neg nonempty, decoded]
    exact checkWitness_of_clean cleanEvent checkpoint
  obtain ⟨p, scanned, clean, followed⟩ :=
    scan_complete (some id) (p := start []) rfl file.decoded file.clean
  have covers := checkpointCoverage_found host
    (fun checkpoint newest => (countOf_newest file.clean newest).imp fun _ => And.left)
    file.covered count bound
  have newest := followed.newest
  have total := followed.total
  have found := followed.found
  simp only [start, Nat.zero_add, Bool.false_or] at newest total found
  have present : events.any (matchesWitness (some id)) = true := by
    rw [List.any_eq_true]
    exact ⟨event, member, by simp [matchesWitness, named, asStr]⟩
  have scanned' : scan host (toKeyring host keys) (some id) none (splitLines content) (start []) = .ok p :=
    scanned
  refine ⟨⟨true, p.eventsVerified, []⟩, ?_, rfl⟩
  simp [verifyJournal, readAndVerify, loadWitness, loaded, readOpened, named, pyStr, scanned', newest,
    total, found, present, covers, clean, bind, Except.bind, pure, Except.pure]

end Tesera.Verification.Valid
