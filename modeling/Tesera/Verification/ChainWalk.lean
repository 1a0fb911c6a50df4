import Tesera.Audit.Rules
import Tesera.Verification.Sealed

/-!
The loop of `verify_archive_chain` over any state of the file system. It ends within one
turn more than the links it may follow. A valid report is one of a chain of files that
verify, name each other, and commit to each other's count, and to each other's head as the
loop reads it: the last hash among the lines that parse without being stripped, where the
verifier strips them first.
-/

namespace Tesera.Verification.ChainWalk
open Tesera.Text Tesera.Text.Unicode Tesera.Text.Lines Tesera.Python.Value
open Tesera.Canonical Tesera.Journal.Record Tesera.Journal.Tail
open Tesera.Verification.Event Tesera.Verification.Journal Tesera.Verification.Valid Tesera.Verification.Extend
open Tesera.Verification.Chain Tesera.Verification.Custody Tesera.Verification.Sealed

/-- The files beside the live journal by their bare names: the path of each, what it
resolves to, whether it exists, and what stands in it. -/
structure FileSystem where
  path : Str → Str
  resolve : Str → Except PyError Str
  exists_ : Str → Except PyError Bool
  source : Str → Source

/-- `str(current.resolve())`, or `str(current)` where it cannot be resolved. -/
def FileSystem.key (fs : FileSystem) (name : Str) : Except PyError Str :=
  match fs.resolve name with
  | .error (.osError _) => .ok (fs.path name)
  | resolved => resolved

/-- Follow a link from a file: the predecessor's name, or the issue with it. -/
def follow (host : Host) (fs : FileSystem) (current : Str) (link : Dict) :
    Except PyError (List ChainIssue × Str) :=
  match linkTarget link with
  | none =>
      .ok ([⟨fs.path current, "archive_bad_link", "archived_path must be a bare file name"⟩], current)
  | some predecessor => do
      let found ← fs.exists_ predecessor
      if found then
        match tallyOf host (fs.source predecessor) with
        | .error (.osError error) =>
            return ([unreadableIssue (fs.path predecessor) (.osError error)], predecessor)
        | .error e => .error e
        | .ok counted => return (linkIssues host (fs.path current) predecessor link counted, predecessor)
      else return ([missing (fs.path predecessor)], predecessor)

/-- The variables of the loop. -/
structure Loop where
  current : Str
  seen : List Str
  checked : List Str
  links : Nat

/-- Before the first turn. -/
def enter (live : Str) : Loop := ⟨live, [], [], 0⟩

/-- The end of a turn at a link: the loop breaks with an issue or goes on to the
predecessor. -/
def advance (host : Host) (fs : FileSystem) (maxLinks : Int) (loop : Loop) (key : Str) (link : Dict) :
    Except PyError (ChainReport ⊕ Loop) :=
  let checked := loop.checked ++ [fs.path loop.current]
  if maxLinks ≤ loop.links then
    .ok (.inl (chainReport checked
      [⟨fs.path loop.current, "archive_too_deep", "archive chain too long"⟩]))
  else do
    let followed ← follow host fs loop.current link
    if followed.1.isEmpty then return .inr ⟨followed.2, loop.seen ++ [key], checked, loop.links + 1⟩
    else return .inl (chainReport checked followed.1)

/-- One turn of the loop: the report of a loop that breaks, or the variables after it. -/
def turn (host : Host) (keys : List PublicKey) (fs : FileSystem) (maxLinks : Int) (loop : Loop) :
    Except PyError (ChainReport ⊕ Loop) := do
  let current := fs.path loop.current
  let key ← fs.key loop.current
  if loop.seen.contains key then
    return .inl (chainReport loop.checked [⟨current, "archive_cycle", "archive chain loops"⟩])
  else do
    let found ← fs.exists_ loop.current
    if found then do
      let visited ← visit host keys current (fs.source loop.current)
      match visited with
      | .stop issues => return .inl (chainReport (loop.checked ++ [current]) issues)
      | .follow link => advance host fs maxLinks loop key link
    else return .inl (chainReport loop.checked [missing current])

/-- `while True`: the loop takes turns until one breaks or raises. -/
inductive Walks (host : Host) (keys : List PublicKey) (fs : FileSystem) (maxLinks : Int) :
    Loop → Nat → Except PyError ChainReport → Prop where
  | raised {loop : Loop} {error : PyError} (taken : turn host keys fs maxLinks loop = .error error) :
      Walks host keys fs maxLinks loop 1 (.error error)
  | broke {loop : Loop} {report : ChainReport} (taken : turn host keys fs maxLinks loop = .ok (.inl report)) :
      Walks host keys fs maxLinks loop 1 (.ok report)
  | again {loop next : Loop} {turns : Nat} {outcome : Except PyError ChainReport}
      (taken : turn host keys fs maxLinks loop = .ok (.inr next))
      (rest : Walks host keys fs maxLinks next turns outcome) :
      Walks host keys fs maxLinks loop (turns + 1) outcome

section Turns

variable {host : Host} {keys : List PublicKey} {fs : FileSystem} {maxLinks : Int} {loop next : Loop}

theorem isEmpty_eq {α : Type} {xs : List α} (empty : xs.isEmpty = true) : xs = [] :=
  List.isEmpty_iff.mp empty

/-- What a turn that goes on has found. -/
theorem turn_next (taken : turn host keys fs maxLinks loop = .ok (.inr next)) :
    ∃ key link, fs.key loop.current = .ok key ∧ key ∉ loop.seen ∧ fs.exists_ loop.current = .ok true ∧
      visit host keys (fs.path loop.current) (fs.source loop.current) = .ok (.follow link) ∧
      (loop.links : Int) < maxLinks ∧ follow host fs loop.current link = .ok ([], next.current) ∧
      next = ⟨next.current, loop.seen ++ [key], loop.checked ++ [fs.path loop.current], loop.links + 1⟩ := by
  simp only [turn, bind_eq_ok] at taken
  obtain ⟨key, resolved, taken⟩ := taken
  split_ifs at taken with known
  · cases taken
  · simp only [bind_eq_ok] at taken
    obtain ⟨found, there, taken⟩ := taken
    split_ifs at taken with isThere
    · simp only [bind_eq_ok] at taken
      obtain ⟨visited, visits, taken⟩ := taken
      cases visited with
      | stop issues => cases taken
      | follow link =>
        simp only [advance] at taken
        split_ifs at taken with deep
        · cases taken
        · simp only [bind_eq_ok] at taken
          obtain ⟨⟨issues, target⟩, follows, taken⟩ := taken
          split_ifs at taken with clean
          · cases taken
            cases isEmpty_eq clean
            refine ⟨key, link, resolved, by simpa using known, ?_, visits, by omega, follows, rfl⟩
            rw [there, isThere]
          · cases taken
    · cases taken

/-- What a turn that breaks with nothing to report has found. -/
theorem turn_valid {report : ChainReport} (taken : turn host keys fs maxLinks loop = .ok (.inl report))
    (valid : report.valid = true) :
    ∃ key, fs.key loop.current = .ok key ∧ key ∉ loop.seen ∧ fs.exists_ loop.current = .ok true ∧
      visit host keys (fs.path loop.current) (fs.source loop.current) = .ok (.stop []) ∧
      report = chainReport (loop.checked ++ [fs.path loop.current]) [] := by
  simp only [turn, bind_eq_ok] at taken
  obtain ⟨key, resolved, taken⟩ := taken
  split_ifs at taken with known
  · cases taken
    cases valid
  · simp only [bind_eq_ok] at taken
    obtain ⟨found, there, taken⟩ := taken
    split_ifs at taken with isThere
    · simp only [bind_eq_ok] at taken
      obtain ⟨visited, visits, taken⟩ := taken
      cases visited with
      | stop issues =>
        cases taken
        cases isEmpty_eq valid
        refine ⟨key, resolved, by simpa using known, ?_, visits, rfl⟩
        rw [there, isThere]
      | follow link =>
        simp only [advance] at taken
        split_ifs at taken with deep
        · cases taken
          cases valid
        · simp only [bind_eq_ok] at taken
          obtain ⟨⟨issues, target⟩, follows, taken⟩ := taken
          split_ifs at taken with clean
          · cases taken
          · cases taken
            exact absurd valid clean
    · cases taken
      cases valid

/-! ## The loop ends -/

theorem walks_ends_within (left : Nat) (loop : Loop) (measure : maxLinks.toNat - loop.links = left) :
    ∃ turns outcome, Walks host keys fs maxLinks loop turns outcome ∧ turns ≤ left + 1 := by
  induction left generalizing loop with
  | zero =>
    cases taken : turn host keys fs maxLinks loop with
    | error error => exact ⟨1, _, .raised taken, by omega⟩
    | ok result =>
      cases result with
      | inl report => exact ⟨1, _, .broke taken, by omega⟩
      | inr next =>
        obtain ⟨key, link, -, -, -, -, fewer, -, -⟩ := turn_next taken
        omega
  | succ left ih =>
    cases taken : turn host keys fs maxLinks loop with
    | error error => exact ⟨1, _, .raised taken, by omega⟩
    | ok result =>
      cases result with
      | inl report => exact ⟨1, _, .broke taken, by omega⟩
      | inr next =>
        obtain ⟨key, link, -, -, -, -, fewer, -, shape⟩ := turn_next taken
        have counted : next.links = loop.links + 1 := by rw [shape]
        obtain ⟨turns, outcome, rest, bound⟩ := ih next (by omega)
        exact ⟨turns + 1, outcome, .again taken rest, by omega⟩

/-- The loop ends within `max_links + 1` turns, whatever the file system holds. -/
theorem walks_ends (host : Host) (keys : List PublicKey) (fs : FileSystem) (maxLinks : Int) (live : Str) :
    ∃ turns outcome, Walks host keys fs maxLinks (enter live) turns outcome ∧ turns ≤ maxLinks.toNat + 1 :=
  walks_ends_within _ (enter live) rfl

theorem Walks.unique {turns other : Nat} {outcome another : Except PyError ChainReport}
    (walks : Walks host keys fs maxLinks loop turns outcome)
    (also : Walks host keys fs maxLinks loop other another) : turns = other ∧ outcome = another := by
  induction walks generalizing other another with
  | raised taken =>
    cases also with
    | raised same =>
      rw [taken] at same
      cases same
      exact ⟨rfl, rfl⟩
    | broke same | again same =>
      rw [taken] at same
      cases same
  | broke taken =>
    cases also with
    | broke same =>
      rw [taken] at same
      cases same
      exact ⟨rfl, rfl⟩
    | raised same | again same =>
      rw [taken] at same
      cases same
  | again taken rest ih =>
    cases also with
    | again same further =>
      rw [taken] at same
      cases same
      obtain ⟨rfl, rfl⟩ := ih further
      exact ⟨rfl, rfl⟩
    | raised same | broke same =>
      rw [taken] at same
      cases same

end Turns

/-! ## Two readings of a file -/

/-- The hash of the last line of a file, each line stripped as the verifier strips it. -/
def lastLineHash (host : Host) (content : Bytes) : Option Str :=
  (records content).getLast?.bind (fun line => (decodeLine host line).toOption.bind hashOf)

/-- The hashes of the lines that parse as they stand. -/
def standingHashes (host : Host) (lines : List Bytes) : List Str :=
  (lines.filter (fun raw => strip raw ≠ [])).filterMap (fun raw => (decodeLine host raw).toOption.bind hashOf)

/-- The last hash among the lines that parse as they stand. -/
def standingHash (host : Host) (content : Bytes) : Option Str :=
  (standingHashes host (splitLines content)).getLast?

section Readings

variable {host : Host} {lines : List Bytes} {events : List Dict} {content : Bytes}

theorem firstEvent_stripped (decoded : Decoded host ((lines.map strip).filter (fun line => line ≠ [])) events)
    {first : Option Dict} (found : firstEvent host none lines = .ok first) : first = events.head? := by
  induction lines with
  | nil =>
    cases decoded
    cases found
    rfl
  | cons raw lines ih =>
    rw [firstEvent] at found
    by_cases blank : strip raw = []
    · rw [List.map_cons, List.filter_cons_of_neg (by simp [blank])] at decoded
      rw [if_pos blank] at found
      exact ih decoded found
    · rw [List.map_cons, List.filter_cons_of_pos (by simp [blank])] at decoded
      rw [if_neg blank] at found
      cases decoded with
      | cons here rest =>
        rcases decodeLine_unstripped here with stands | ⟨text, fails⟩
        · rw [stands] at found
          cases found
          rfl
        · rw [fails] at found
          cases found

theorem tally_stripped (decoded : Decoded host ((lines.map strip).filter (fun line => line ≠ [])) events)
    (hashed : ∀ event ∈ events, ∃ hash, get event "event_hash" = .str hash) (count : Nat) (head : Option Str) :
    tally host none lines (count, head) =
      .ok (count + events.length, (standingHashes host lines).getLast?.or head) := by
  induction lines generalizing events count head with
  | nil =>
    cases decoded
    rfl
  | cons raw lines ih =>
    rw [tally]
    by_cases blank : strip raw = []
    · rw [List.map_cons, List.filter_cons_of_neg (by simp [blank])] at decoded
      have same : standingHashes host (raw :: lines) = standingHashes host lines := by
        simp [standingHashes, blank]
      rw [if_pos blank, same]
      exact ih decoded hashed count head
    · rw [List.map_cons, List.filter_cons_of_pos (by simp [blank])] at decoded
      rw [if_neg blank]
      cases decoded with
      | @cons _ event _ events here rest =>
        obtain ⟨stored, others⟩ := List.forall_mem_cons.mp hashed
        obtain ⟨hash, stored⟩ := stored
        have known : hashOf (.dict event) = some hash := by
          rw [hashOf, asDict, Option.bind_some, stored]
          rfl
        have longer : count + (event :: events).length = count + 1 + events.length := by
          rw [List.length_cons]
          omega
        rcases decodeLine_unstripped here with stands | ⟨text, fails⟩
        · have same : standingHashes host (raw :: lines) = hash :: standingHashes host lines := by
            simp [standingHashes, blank, stands, Except.toOption, known]
          simp only [stands, known, Option.some_or]
          rw [ih rest others, longer, same, List.getLast?_cons]
          cases (standingHashes host lines).getLast? <;> rfl
        · have same : standingHashes host (raw :: lines) = standingHashes host lines := by
            simp [standingHashes, blank, fails, Except.toOption]
          simp only [fails, PyError.isValueError, if_true]
          rw [ih rest others, longer, same]

/-- What the loop reads from a file that verifies. -/
theorem tallyOf_verified {trusted : Keyring} (valid : ValidFile host trusted content events) :
    tallyOf host (.readable content none) = .ok ((records content).length, standingHash host content) := by
  have counted := tally_stripped valid.decoded (hashed_of_clean valid.clean) 0 none
  rw [Nat.zero_add, Option.or_none, ← valid.decoded.length_eq] at counted
  exact counted

theorem lastLineHash_decoded (decoded : Decoded host (records content) events) :
    lastLineHash host content = lastHash events := by
  unfold lastLineHash lastHash
  rcases (records content).eq_nil_or_concat with none | ⟨before, last, shape⟩
  · rw [none] at decoded ⊢
    cases decoded
    rfl
  · rw [List.concat_eq_append] at shape
    rw [shape] at decoded ⊢
    obtain ⟨others, event, rfl, -, here⟩ := decoded_concat decoded
    rw [List.getLast?_concat, List.getLast?_concat, Option.bind_some, Option.bind_some, here]
    rfl

end Readings

/-! ## Chains -/

/-- A file that is there and verifies on its own, with its content and its events. -/
structure Stands (host : Host) (keys : List PublicKey) (fs : FileSystem) (name : Str) (content : Bytes)
    (events : List Dict) : Prop where
  there : fs.exists_ name = .ok true
  readable : fs.source name = .readable content none
  verifies : ∃ result, verifyJournal host (fs.source name) keys none = .ok result ∧ result.valid = true
  decoded : Decoded host (records content) events

/-- Files that stand and are linked: the first event of each but the last is an archive
record that names the next one, and commits to the number of its lines that are not blank
and to its head, as `head` reads it; the first event of the last is no archive record. -/
inductive Chained (host : Host) (keys : List PublicKey) (fs : FileSystem) (head : Bytes → Option Str) :
    List Str → Prop where
  | genesis {name : Str} {content : Bytes} {events : List Dict} (stands : Stands host keys fs name content events)
      (first : ∀ event ∈ events.head?, isArchive event = false) : Chained host keys fs head [name]
  | link {name prior : Str} {content kept : Bytes} {events before : List Dict} {archive : Dict}
      {names : List Str} (stands : Stands host keys fs name content (archive :: events))
      (isOne : isArchive archive = true) (target : linkTarget archive = some prior)
      (predecessor : Stands host keys fs prior kept before)
      (count : asInt (get archive "prior_count") = some ((records kept).length : Int))
      (committed : get archive "prior_head" = linkOf (head kept)) (rest : Chained host keys fs head (prior :: names)) :
      Chained host keys fs head (name :: prior :: names)

/-- No resolved path stands for two of the names. -/
def Distinct (fs : FileSystem) (names : List Str) : Prop :=
  ∃ paths, List.Forall₂ (fun name path => fs.key name = .ok path) names paths ∧ paths.Nodup

/-- A valid report is one of a chain: its files are a chain of distinct files from the live
one, each of which commits to the hash of the last line of the next. -/
def Sound (host : Host) (keys : List PublicKey) (fs : FileSystem) (maxLinks : Int) (live : Str)
    (report : ChainReport) : Prop :=
  ∃ names, report.filesChecked = (live :: names).map fs.path ∧ names.length ≤ maxLinks.toNat ∧
    Distinct fs (live :: names) ∧ Chained host keys fs (lastLineHash host) (live :: names)

/-- The chains from the file of a loop that its turns go along. -/
structure Accepted (host : Host) (keys : List PublicKey) (fs : FileSystem) (maxLinks : Int) (loop : Loop)
    (names : List Str) : Prop where
  short : loop.links + names.length ≤ maxLinks.toNat
  distinct : ∃ paths, List.Forall₂ (fun name path => fs.key name = .ok path) (loop.current :: names) paths ∧
    (loop.seen ++ paths).Nodup
  chained : Chained host keys fs (standingHash host) (loop.current :: names)
  firsts : ∀ name ∈ loop.current :: names, ∃ first, firstEventOf host (fs.source name) = .ok first

section Chains

variable {host : Host} {keys : List PublicKey} {fs : FileSystem} {maxLinks : Int} {loop next : Loop}
  {head other : Bytes → Option Str} {name : Str} {names : List Str} {content : Bytes} {events : List Dict}

theorem Stands.valid (stands : Stands host keys fs name content events) :
    ValidFile host (toKeyring host keys) content events := by
  obtain ⟨found, known, source, valid⟩ := verifyJournal_valid_iff.mp stands.verifies
  rw [stands.readable] at source
  cases source
  rwa [decoded_unique stands.decoded valid.decoded]

theorem Stands.unique {again : Bytes} {same : List Dict} (stands : Stands host keys fs name content events)
    (also : Stands host keys fs name again same) : content = again ∧ events = same := by
  have source := stands.readable
  rw [also.readable] at source
  cases source
  exact ⟨rfl, decoded_unique stands.decoded also.decoded⟩

theorem Stands.first (stands : Stands host keys fs name content events) {first : Option Dict}
    (found : firstEventOf host (fs.source name) = .ok first) : first = events.head? := by
  rw [stands.readable] at found
  exact firstEvent_stripped stands.decoded found

theorem pyEq_linkOf_left {v : Json} {hash : Option Str} :
    pyEq host (linkOf hash) v = true ↔ v = linkOf hash := by
  cases hash with
  | some hash => exact str_pyEq
  | none =>
    cases v with
    | float f => cases f <;> simp [linkOf, pyEq, number]
    | _ => simp [linkOf, pyEq, number]

theorem linkOf_injective {a b : Option Str} (same : linkOf a = linkOf b) : a = b := by
  cases a with
  | none =>
    cases b with
    | none => rfl
    | some hash => cases same
  | some hash =>
    cases b with
    | none => cases same
    | some other =>
      cases same
      rfl

/-- The links of two chains from one file are the same, whatever head they commit to, and
the head they commit to is one. -/
theorem Chained.agree {others : List Str} (chain : Chained host keys fs head (name :: names))
    (also : Chained host keys fs other (name :: others)) :
    names = others ∧ ∀ prior ∈ names, ∀ kept, fs.source prior = .readable kept none → head kept = other kept := by
  generalize shape : name :: names = files at chain
  induction chain generalizing name names others with
  | genesis stands first =>
    cases shape
    cases also with
    | genesis => exact ⟨rfl, List.forall_mem_nil _⟩
    | link again isOne =>
      obtain ⟨-, rfl⟩ := stands.unique again
      rw [first _ rfl] at isOne
      cases isOne
  | @link _ prior _ kept _ before archive further stands isOne target predecessor count committed rest ih =>
    cases shape
    cases also with
    | genesis again first =>
      obtain ⟨-, rfl⟩ := stands.unique again
      rw [first _ rfl] at isOne
      cases isOne
    | link again isOne' target' predecessor' count' committed' rest' =>
      obtain ⟨-, same⟩ := stands.unique again
      cases same
      rw [target] at target'
      cases target'
      obtain ⟨rfl, heads⟩ := ih rest' rfl
      refine ⟨rfl, List.forall_mem_cons.mpr ⟨?_, heads⟩⟩
      intro found source
      obtain ⟨rfl, -⟩ := predecessor.unique predecessor'
      rw [predecessor.readable] at source
      cases source
      rw [committed] at committed'
      exact linkOf_injective committed'

/-- A chain that commits to a head commits to any other that is the same on its files. -/
theorem Chained.congr {files : List Str} (chain : Chained host keys fs head files)
    (same : ∀ prior ∈ files.tail, ∀ kept, fs.source prior = .readable kept none → head kept = other kept) :
    Chained host keys fs other files := by
  induction chain with
  | genesis stands first => exact .genesis stands first
  | @link _ prior _ kept _ _ _ _ stands isOne target predecessor count committed rest ih =>
    obtain ⟨here, others⟩ := List.forall_mem_cons.mp same
    rw [here kept predecessor.readable] at committed
    exact .link stands isOne target predecessor count committed (ih others)

/-! ## A valid report is one of a chain -/

/-- A file at which the loop breaks with nothing to report is the first of its chain. -/
theorem visit_stops (stops : visit host keys (fs.path name) (fs.source name) = .ok (.stop [])) :
    ∃ content events first, fs.source name = .readable content none ∧
      (∃ result, verifyJournal host (fs.source name) keys none = .ok result ∧ result.valid = true) ∧
      Decoded host (records content) events ∧ firstEventOf host (fs.source name) = .ok first ∧
      ∀ event ∈ first, isArchive event = false := by
  simp only [visit, bind_eq_ok] at stops
  obtain ⟨result, verified, stops⟩ := stops
  split_ifs at stops with valid
  · obtain ⟨content, events, source, file⟩ := verifyJournal_valid_iff.mp ⟨result, verified, valid⟩
    cases opening : firstEventOf host (fs.source name) with
    | error e =>
      simp only [opening] at stops
      split_ifs at stops with unreadable
      cases stops
    | ok first =>
      refine ⟨content, events, first, source, ⟨result, verified, valid⟩, file.decoded, rfl, ?_⟩
      simp only [opening, pure, Except.pure, Except.ok.injEq] at stops
      intro event found
      rw [Option.mem_def.mp found, visitOf] at stops
      by_cases isOne : isArchive event = true
      · rw [if_pos isOne] at stops
        cases stops
      · simpa using isOne
  · cases stops

/-- A file whose link is followed begins with it. -/
theorem visit_follows {link : Dict} (follows : visit host keys (fs.path name) (fs.source name) = .ok (.follow link)) :
    ∃ content events, fs.source name = .readable content none ∧
      (∃ result, verifyJournal host (fs.source name) keys none = .ok result ∧ result.valid = true) ∧
      Decoded host (records content) events ∧ firstEventOf host (fs.source name) = .ok (some link) ∧
      isArchive link = true := by
  simp only [visit, bind_eq_ok] at follows
  obtain ⟨result, verified, follows⟩ := follows
  split_ifs at follows with valid
  · obtain ⟨content, events, source, file⟩ := verifyJournal_valid_iff.mp ⟨result, verified, valid⟩
    cases opening : firstEventOf host (fs.source name) with
    | error e =>
      simp only [opening] at follows
      split_ifs at follows with unreadable
      cases follows
    | ok first =>
      simp only [opening, pure, Except.pure, Except.ok.injEq] at follows
      cases first with
      | none => cases follows
      | some event =>
        rw [visitOf] at follows
        split_ifs at follows with isOne
        cases follows
        exact ⟨content, events, source, ⟨result, verified, valid⟩, file.decoded, rfl, isOne⟩
  · cases follows

/-- A link with no issue names a file that is there, with the count and the head read from
it. -/
theorem follow_clean {link : Dict} {prior : Str} (clean : follow host fs name link = .ok ([], prior)) :
    linkTarget link = some prior ∧ fs.exists_ prior = .ok true ∧
      ∃ counted, tallyOf host (fs.source prior) = .ok counted ∧
        asInt (get link "prior_count") = some (counted.1 : Int) ∧ get link "prior_head" = linkOf counted.2 := by
  unfold follow at clean
  cases target : linkTarget link with
  | none =>
    simp only [target] at clean
    cases clean
  | some predecessor =>
    simp only [target, bind_eq_ok] at clean
    obtain ⟨found, there, clean⟩ := clean
    split_ifs at clean with isThere
    · cases read : tallyOf host (fs.source predecessor) with
      | error e =>
        simp only [read] at clean
        cases e <;> cases clean
      | ok counted =>
        simp only [read, pure, Except.pure, Except.ok.injEq, Prod.mk.injEq] at clean
        obtain ⟨issues, rfl⟩ := clean
        unfold Chain.linkIssues at issues
        split_ifs at issues with count head
        · refine ⟨rfl, by rw [there, isThere], counted, read, not_not.mp count, ?_⟩
          exact pyEq_linkOf_left.mp head
    · cases clean

/-- The files of a loop that ends with a valid report are a chain. -/
theorem accepted_of_walks {turns : Nat} {outcome : Except PyError ChainReport} {report : ChainReport}
    (walks : Walks host keys fs maxLinks loop turns outcome) (returned : outcome = .ok report)
    (valid : report.valid = true) (within : loop.links ≤ maxLinks.toNat) (apart : loop.seen.Nodup) :
    ∃ names, report.filesChecked = loop.checked ++ (loop.current :: names).map fs.path ∧
      Accepted host keys fs maxLinks loop names := by
  induction walks with
  | raised taken => cases returned
  | @broke loop _ taken =>
    cases returned
    obtain ⟨key, resolved, fresh, there, stops, rfl⟩ := turn_valid taken valid
    obtain ⟨content, events, first, source, verifies, decoded, opening, genesis⟩ := visit_stops stops
    have stands : Stands host keys fs loop.current content events := ⟨there, source, verifies, decoded⟩
    refine ⟨[], rfl, by simpa using within, ⟨[key], .cons resolved .nil, ?_⟩, .genesis stands ?_, ?_⟩
    · rw [← List.concat_eq_append]
      exact (List.nodup_concat _ _).mpr ⟨fresh, apart⟩
    · rwa [← stands.first opening]
    · exact List.forall_mem_singleton.mpr ⟨first, opening⟩
  | @again loop next turns outcome taken rest ih =>
    obtain ⟨key, link, resolved, fresh, there, follows, fewer, clean, shape⟩ := turn_next taken
    obtain ⟨content, events, source, verifies, decoded, opening, isOne⟩ := visit_follows follows
    have stands : Stands host keys fs loop.current content events := ⟨there, source, verifies, decoded⟩
    obtain ⟨target, present, counted, read, count, head⟩ := follow_clean clean
    have counts : next.links = loop.links + 1 := by rw [shape]
    have sees : next.seen = loop.seen ++ [key] := by rw [shape]
    have checks : next.checked = loop.checked ++ [fs.path loop.current] := by rw [shape]
    have moved : next.seen.Nodup := by
      rw [sees, ← List.concat_eq_append]
      exact (List.nodup_concat _ _).mpr ⟨fresh, apart⟩
    obtain ⟨names, files, onward⟩ := ih returned (by omega) moved
    obtain ⟨paths, resolves, distinct⟩ := onward.distinct
    refine ⟨next.current :: names, ?_, ?_, ⟨key :: paths, .cons resolved resolves, ?_⟩, ?_, ?_⟩
    · rw [files, checks, List.append_assoc]
      rfl
    · have short := onward.short
      rw [List.length_cons]
      omega
    · rwa [sees, List.append_assoc] at distinct
    · obtain ⟨kept, before, predecessor⟩ : ∃ kept before, Stands host keys fs next.current kept before := by
        cases onward.chained with
        | genesis stands _ => exact ⟨_, _, stands⟩
        | link stands => exact ⟨_, _, stands⟩
      obtain ⟨archive, later, rfl⟩ : ∃ archive later, events = archive :: later := by
        have first := stands.first opening
        cases events with
        | nil => cases first
        | cons archive later => exact ⟨archive, later, rfl⟩
      cases stands.first opening
      rw [predecessor.readable, tallyOf_verified predecessor.valid] at read
      cases read
      exact .link stands isOne target predecessor count head onward.chained
    · exact List.forall_mem_cons.mpr ⟨⟨_, opening⟩, onward.firsts⟩

/-! ## A chain that can be read is walked -/

theorem visit_stands (stands : Stands host keys fs name content events)
    (reads : ∃ first, firstEventOf host (fs.source name) = .ok first) (current : Str) :
    visit host keys current (fs.source name) = .ok (visitOf events.head?) := by
  obtain ⟨result, verified, valid⟩ := stands.verifies
  obtain ⟨first, opening⟩ := reads
  rw [stands.first opening] at opening
  simp only [visit, verified, bind, Except.bind, valid, if_true, opening]
  rfl

theorem follow_stands {archive : Dict} {prior : Str} {kept : Bytes} {before : List Dict}
    (target : linkTarget archive = some prior) (predecessor : Stands host keys fs prior kept before)
    (count : asInt (get archive "prior_count") = some ((records kept).length : Int))
    (committed : get archive "prior_head" = linkOf (standingHash host kept)) :
    follow host fs name archive = .ok ([], prior) := by
  have read : tallyOf host (fs.source prior) = .ok ((records kept).length, standingHash host kept) := by
    rw [predecessor.readable]
    exact tallyOf_verified predecessor.valid
  have head : pyEq host (linkOf (standingHash host kept)) (get archive "prior_head") = true :=
    pyEq_linkOf_left.mpr committed
  have clean : Chain.linkIssues host (fs.path name) prior archive ((records kept).length, standingHash host kept) =
      [] := by
    rw [Chain.linkIssues, if_neg (not_not.mpr count), if_pos head]
  simp only [follow, target, predecessor.there, bind, Except.bind, if_true, read, clean]
  rfl

theorem visitOf_genesis {first : Option Dict} (genesis : ∀ event ∈ first, isArchive event = false) :
    visitOf first = .stop [] := by
  cases first with
  | none => rfl
  | some event => simp [visitOf, genesis event rfl]

theorem turn_stop {path : Str} {issues : List ChainIssue} (resolved : fs.key loop.current = .ok path)
    (fresh : path ∉ loop.seen) (there : fs.exists_ loop.current = .ok true)
    (stops : visit host keys (fs.path loop.current) (fs.source loop.current) = .ok (.stop issues)) :
    turn host keys fs maxLinks loop = .ok (.inl (chainReport (loop.checked ++ [fs.path loop.current]) issues)) := by
  have unseen : loop.seen.contains path = false := by simpa using fresh
  simp only [turn, resolved, bind, Except.bind, unseen, Bool.false_eq_true, if_false, there, if_true, stops]
  rfl

theorem turn_follow {path : Str} {link : Dict} (resolved : fs.key loop.current = .ok path)
    (fresh : path ∉ loop.seen) (there : fs.exists_ loop.current = .ok true)
    (follows : visit host keys (fs.path loop.current) (fs.source loop.current) = .ok (.follow link)) :
    turn host keys fs maxLinks loop = advance host fs maxLinks loop path link := by
  have unseen : loop.seen.contains path = false := by simpa using fresh
  simp only [turn, resolved, bind, Except.bind, unseen, Bool.false_eq_true, if_false, there, if_true, follows]

/-- The loop goes along a chain it can read and reports nothing. -/
theorem walks_of_accepted (accepted : Accepted host keys fs maxLinks loop names) :
    ∃ turns report, Walks host keys fs maxLinks loop turns (.ok report) ∧ report.valid = true := by
  induction names generalizing loop with
  | nil =>
    obtain ⟨paths, resolves, distinct⟩ := accepted.distinct
    obtain ⟨reads, -⟩ := List.forall_mem_cons.mp accepted.firsts
    cases resolves with
    | @cons _ path _ _ resolved _ =>
      have fresh : path ∉ loop.seen := fun known => (List.nodup_append.mp distinct).2.2 path known path
        List.mem_cons_self rfl
      cases accepted.chained with
      | @genesis _ content events stands first =>
        have stops : visit host keys (fs.path loop.current) (fs.source loop.current) = .ok (.stop []) := by
          rw [visit_stands stands reads, visitOf_genesis first]
        exact ⟨1, _, .broke (turn_stop resolved fresh stands.there stops), rfl⟩
  | cons prior names ih =>
    obtain ⟨paths, resolves, distinct⟩ := accepted.distinct
    obtain ⟨reads, others⟩ := List.forall_mem_cons.mp accepted.firsts
    have short := accepted.short
    rw [List.length_cons] at short
    cases resolves with
    | @cons _ path _ paths resolved further =>
      have fresh : path ∉ loop.seen := fun known => (List.nodup_append.mp distinct).2.2 path known path
        List.mem_cons_self rfl
      cases accepted.chained with
      | @link _ _ content kept events before archive _ stands isOne target predecessor count committed rest =>
        have follows : visit host keys (fs.path loop.current) (fs.source loop.current) = .ok (.follow archive) := by
          rw [visit_stands stands reads, List.head?_cons, visitOf, if_pos isOne]
        have goesOn : turn host keys fs maxLinks loop = .ok (.inr ⟨prior, loop.seen ++ [path],
            loop.checked ++ [fs.path loop.current], loop.links + 1⟩) := by
          rw [turn_follow resolved fresh stands.there follows, advance, if_neg (by omega),
            follow_stands target predecessor count committed]
          rfl
        have onward : Accepted host keys fs maxLinks
            ⟨prior, loop.seen ++ [path], loop.checked ++ [fs.path loop.current], loop.links + 1⟩ names := by
          refine ⟨?_, ⟨paths, further, ?_⟩, rest, others⟩
          · show loop.links + 1 + names.length ≤ maxLinks.toNat
            omega
          · show (loop.seen ++ [path] ++ paths).Nodup
            rwa [List.append_assoc]
        obtain ⟨turns, report, walks, valid⟩ := ih onward
        exact ⟨turns + 1, report, .again goesOn walks, valid⟩

/-- The report on a live file is valid exactly when a chain from it can be read. -/
theorem valid_iff_accepted (host : Host) (keys : List PublicKey) (fs : FileSystem) (maxLinks : Int) (live : Str) :
    (∃ turns report, Walks host keys fs maxLinks (enter live) turns (.ok report) ∧ report.valid = true) ↔
      ∃ names, Accepted host keys fs maxLinks (enter live) names := by
  constructor
  · intro ⟨turns, report, walks, valid⟩
    obtain ⟨names, -, accepted⟩ := accepted_of_walks walks rfl valid (Nat.zero_le _) List.nodup_nil
    exact ⟨names, accepted⟩
  · intro ⟨names, accepted⟩
    exact walks_of_accepted accepted

/-- Where a valid report is sound, the heads it reads along a chain are those of the last
lines. -/
theorem heads_of_sound {live : Str} (accepted : Accepted host keys fs maxLinks (enter live) names)
    {turns : Nat} {outcome : Except PyError ChainReport} (walks : Walks host keys fs maxLinks (enter live) turns outcome)
    (sound : ∀ report, outcome = .ok report → report.valid = true → Sound host keys fs maxLinks live report) :
    ∀ prior ∈ names, ∀ kept, fs.source prior = .readable kept none →
      standingHash host kept = lastLineHash host kept := by
  obtain ⟨others, report, again, valid⟩ := walks_of_accepted accepted
  obtain ⟨-, returned⟩ := walks.unique again
  obtain ⟨files, -, -, -, chained⟩ := sound report returned valid
  exact (accepted.chained.agree chained).2

/-- The loop ends within `max_links + 1` turns, and its report is sound where it is valid,
exactly when no chain it can read holds a linked file whose last line is not the one whose
hash it reads. -/
theorem walk_sound_iff (host : Host) (keys : List PublicKey) (fs : FileSystem) (maxLinks : Int) (live : Str) :
    (∃ turns outcome, Walks host keys fs maxLinks (enter live) turns outcome ∧ turns ≤ maxLinks.toNat + 1 ∧
      ∀ report, outcome = .ok report → report.valid = true → Sound host keys fs maxLinks live report) ↔
    ∀ names, Accepted host keys fs maxLinks (enter live) names →
      ∀ prior ∈ names, ∀ kept, fs.source prior = .readable kept none →
        standingHash host kept = lastLineHash host kept := by
  constructor
  · intro ⟨turns, outcome, walks, _, sound⟩ names accepted
    exact heads_of_sound accepted walks sound
  · intro plain
    obtain ⟨turns, outcome, walks, bound⟩ := walks_ends host keys fs maxLinks live
    refine ⟨turns, outcome, walks, bound, ?_⟩
    intro report returned valid
    obtain ⟨names, checked, accepted⟩ := accepted_of_walks walks returned valid (Nat.zero_le _) List.nodup_nil
    obtain ⟨paths, resolves, distinct⟩ := accepted.distinct
    have short := accepted.short
    refine ⟨names, checked, by simpa [enter] using short, ⟨paths, resolves, distinct⟩, ?_⟩
    exact accepted.chained.congr (plain names accepted)

end Chains

/-! ## The walk over names -/

/-- The file system of a directory whose names are paths that resolve to themselves. -/
def FileSystem.ofDirectory (dir : Directory) : FileSystem where
  path := id
  resolve := .ok
  exists_ := fun name => .ok (dir name).isSome
  source := fun name => (dir name).getD (.unopenable "")

section Directories

variable {host : Host} {keys : List PublicKey} {dir : Directory} {maxLinks : Int} {loop : Loop}

/-- Counting the lines of a file skips what is no JSON. -/
theorem tally_error {failure : Option String} {lines : List Bytes} {counted : Nat × Option Str} {e : PyError}
    (failed : tally host failure lines counted = .error e) : e.isValueError = false := by
  induction lines generalizing counted with
  | nil =>
    cases failure with
    | none => cases failed
    | some error =>
      cases failed
      rfl
  | cons raw lines ih =>
    rw [tally] at failed
    by_cases blank : strip raw = []
    · rw [if_pos blank] at failed
      exact ih failed
    · rw [if_neg blank] at failed
      cases decoded : decodeLine host raw with
      | ok value =>
        simp only [decoded] at failed
        exact ih failed
      | error other =>
        simp only [decoded] at failed
        split_ifs at failed with skipped
        · exact ih failed
        · cases failed
          simpa using skipped

theorem tallyOf_error {source : Source} {e : PyError} (failed : tallyOf host source = .error e) :
    e.isValueError = false := by
  cases source with
  | unopenable error =>
    cases failed
    rfl
  | readable content failure => exact tally_error failed

theorem follow_ofDirectory (current : Str) (link : Dict) :
    follow host (FileSystem.ofDirectory dir) current link = followLink host dir current link := by
  unfold follow followLink
  cases linkTarget link with
  | none => rfl
  | some predecessor =>
    simp only [FileSystem.ofDirectory, bind, Except.bind]
    cases dir predecessor with
    | none => rfl
    | some source =>
      simp only [Option.isSome_some, if_true, Option.getD_some]
      cases read : tallyOf host source with
      | ok counted => rfl
      | error e =>
        have notValue := tallyOf_error read
        cases e <;> first | rfl | cases notValue

theorem turn_ofDirectory : turn host keys (FileSystem.ofDirectory dir) maxLinks loop =
    (arrive host keys dir loop.seen loop.checked loop.current).bind (fun arrived =>
      arrived.elim (fun report => .ok (.inl report))
        (fun link => advance host (FileSystem.ofDirectory dir) maxLinks loop loop.current link)) := by
  have resolved : (FileSystem.ofDirectory dir).key loop.current = .ok loop.current := rfl
  unfold turn arrive
  rw [resolved]
  by_cases known : loop.seen.contains loop.current = true
  · simp only [bind, Except.bind, if_pos known]
    rfl
  · simp only [bind, Except.bind, if_neg known, FileSystem.ofDirectory]
    cases dir loop.current with
    | none => rfl
    | some source =>
      simp only [Option.isSome_some, if_true, Option.getD_some, Option.elim_some, id]
      cases visit host keys loop.current source with
      | error e => rfl
      | ok visited => cases visited <;> rfl

/-- The walk takes the turns of the loop. -/
theorem walk_turn (host : Host) (keys : List PublicKey) (dir : Directory) (maxLinks : Int) (loop : Loop) :
    walk host keys dir (maxLinks.toNat - loop.links) loop.seen loop.checked loop.current =
      (turn host keys (FileSystem.ofDirectory dir) maxLinks loop).bind (fun taken => taken.elim .ok (fun next =>
        walk host keys dir (maxLinks.toNat - next.links) next.seen next.checked next.current)) := by
  rw [turn_ofDirectory]
  by_cases deep : maxLinks ≤ loop.links
  · have none : maxLinks.toNat - loop.links = 0 := by omega
    rw [none, walk]
    cases arrive host keys dir loop.seen loop.checked loop.current with
    | error e => rfl
    | ok arrived =>
      cases arrived with
      | inl report => rfl
      | inr link =>
        simp only [Except.bind, Sum.elim_inr, advance, if_pos deep, Sum.elim_inl]
        rfl
  · have one : maxLinks.toNat - loop.links = maxLinks.toNat - (loop.links + 1) + 1 := by omega
    rw [one, walk]
    cases arrive host keys dir loop.seen loop.checked loop.current with
    | error e => rfl
    | ok arrived =>
      cases arrived with
      | inl report => rfl
      | inr link =>
        simp only [bind, Except.bind, Sum.elim_inr, advance, if_neg deep, follow_ofDirectory]
        cases followLink host dir loop.current link with
        | error e => rfl
        | ok followed =>
          obtain ⟨issues, target⟩ := followed
          cases issues <;> rfl

/-- On such a directory the loop returns what the walk over its names returns. -/
theorem walk_of_walks {turns : Nat} {outcome : Except PyError ChainReport}
    (walks : Walks host keys (FileSystem.ofDirectory dir) maxLinks loop turns outcome) :
    walk host keys dir (maxLinks.toNat - loop.links) loop.seen loop.checked loop.current = outcome := by
  induction walks with
  | raised taken =>
    rw [walk_turn, taken]
    rfl
  | broke taken =>
    rw [walk_turn, taken]
    rfl
  | again taken rest ih =>
    rw [walk_turn, taken]
    exact ih

end Directories

/-! ## An outcome that the loop does not read -/

/-- A line after a vertical tab is no JSON as it stands. -/
theorem decodeLine_tab {host : Host} {event : Dict} {line : Bytes} (encoded : encodeEvent host event = .ok line) :
    ∃ text, decodeLine host ([11] ++ (line ++ [10])) = .error (.valueError text) := by
  obtain ⟨text, -, bytes⟩ := encodeEvent_eq_ok.mp encoded
  have tab := utf8Encode_append (utf8Encode_ascii 11 (by decide))
    (utf8Encode_append bytes (utf8Encode_ascii 10 (by decide)))
  have none : Json.parse (Python.JsonCodec.pyDialect host) (11 :: (text ++ [10])) = none := by
    have shape : Json.skipWs (11 :: (text ++ [10])) = 11 :: (text ++ [10]) :=
      JsonRoundTrip.skipWs_of_not_ws _ (by decide)
    simp only [Json.parse, Json.parseValue, shape]
    rw [if_neg (by decide), if_neg (by decide), if_neg (by decide), JsonLocal.parseScalar_space _ (by decide)]
  have flat : Json.nesting (Python.JsonCodec.pyDialect host) (11 :: (text ++ [10])) = 0 := by
    have shape : Json.skipWs (11 :: (text ++ [10])) = 11 :: (text ++ [10]) :=
      JsonRoundTrip.skipWs_of_not_ws _ (by decide)
    simp only [Json.nesting, Json.deepest, shape]
    rw [if_neg (by decide), if_neg (by decide)]
  have decoded : utf8Decode ([11] ++ (line ++ [10])) = some (11 :: (text ++ [10])) := utf8Decode_encode tab
  unfold decodeLine
  rw [decoded]
  simp only [Python.JsonCodec.loads, flat, Nat.not_lt_zero, if_false, none]
  exact ⟨_, rfl⟩

theorem splitLines_spaced {first space second : Bytes} (plain : ∀ b ∈ first, isNewline b = false)
    (spaced : ∀ b ∈ space ++ second, isNewline b = false) :
    splitLines (first ++ [10] ++ (space ++ (second ++ [10]))) = [first ++ [10], space ++ (second ++ [10])] := by
  have ended : Terminated (first ++ [10]) := terminated_of_whole (fragment_newline _)
  rw [splitLines_append ended, splitLines_line plain, ← List.append_assoc space, splitLines_line spaced]
  rfl

theorem firstEvent_line {host : Host} {event : Dict} {line : Bytes} (ok : DictOk host event)
    (encoded : encodeEvent host event = .ok line) (more : List Bytes) :
    firstEvent host none ((line ++ [10]) :: more) = .ok (some event) := by
  have decoded := decodeLine_newline (decodeLine_encodeEvent ok encoded)
  rw [firstEvent, if_neg (strip_ne_nil_of_decoded decoded), decoded]
  rfl

theorem firstEventOf_line {host : Host} {event : Dict} {line : Bytes} (ok : DictOk host event)
    (encoded : encodeEvent host event = .ok line) :
    firstEventOf host (.readable (line ++ [10]) none) = .ok (some event) := by
  rw [firstEventOf, splitLines_line (solid_encodeEvent encoded).plain]
  exact firstEvent_line ok encoded _

/-- Of a line and one after a vertical tab the loop reads the first. -/
theorem standingHash_tab {host : Host} {event later : Dict} {line other : Bytes} {hash : Str}
    (ok : DictOk host event) (encoded : encodeEvent host event = .ok line)
    (encodedLater : encodeEvent host later = .ok other) (stored : get event "event_hash" = .str hash) :
    standingHash host (line ++ [10] ++ ([11] ++ (other ++ [10]))) = some hash ∧
      firstEventOf host (.readable (line ++ [10] ++ ([11] ++ (other ++ [10]))) none) = .ok (some event) := by
  have decoded := decodeLine_newline (decodeLine_encodeEvent ok encoded)
  obtain ⟨text, fails⟩ := decodeLine_tab encodedLater
  have tabbed : ∀ b ∈ [11] ++ other, isNewline b = false := by
    intro b member
    rcases List.mem_append.mp member with tab | inside
    · rw [List.mem_singleton.mp tab]
      rfl
    · exact (solid_encodeEvent encodedLater).plain b inside
  have lines := splitLines_spaced (solid_encodeEvent encoded).plain tabbed
  have known : hashOf (.dict event) = some hash := by
    rw [hashOf, asDict, Option.bind_some, stored]
    rfl
  constructor
  · have solid := strip_ne_nil_of_decoded decoded
    rw [standingHash, lines, standingHashes, List.filter_cons_of_pos (by simpa using solid)]
    by_cases blank : strip ([11] ++ (other ++ [10])) = []
    · rw [List.filter_cons_of_neg (by simpa using blank)]
      simp [decoded, Except.toOption, known]
    · rw [List.filter_cons_of_pos (by simpa using blank), List.filter_nil, List.filterMap_cons, decoded,
        List.filterMap_cons, fails]
      simp [Except.toOption, known]
  · rw [firstEventOf, lines]
    exact firstEvent_line ok encoded _

/-- The seals of a decision, of its outcome, and of an archive record. -/
def maskedSeals : List Seal :=
  Audit.Rules.ledgerSeals.take 2 ++
    [(315, [43, 18, 72, 65, 179, 227, 78, 62, 187, 130, 196, 251, 52, 140, 20, 52, 237, 169, 146, 47, 84, 11, 209,
      178, 89, 211, 79, 161, 106, 245, 131, 212],
      [162, 148, 193, 203, 165, 16, 249, 30, 65, 67, 244, 187, 203, 13, 28, 211, 146, 166, 61, 246, 42, 229,
      237, 53, 115, 236, 61, 139, 198, 136, 198, 94, 156, 158, 60, 95, 65, 75, 36, 10, 162, 230, 237, 201, 90,
      15, 243, 64, 133, 8, 47, 9, 89, 234, 217, 161, 40, 195, 137, 99, 97, 1, 231, 7],
      lit "opTBy6UQ+R5BQ/S7yw0c05KmPfYq5e01c+w9i8aIxl6cnjxfQUskCqLm7claD/NAhQgvCVnq2aEow4ljYQHnBw==")]

def maskedHost : Host := sealedHost maskedSeals Preserve.sampleFingerprint

def maskedKey : PublicKey := sealedKey maskedSeals Preserve.sampleKey.raw

def maskedArchived : Str := lit "journal-20260105T093000Z.jsonl"

/-- The decision, its outcome, and an archive record that commits to two events and to the
hash of the first of them. -/
def maskedEvent : Nat → Dict
  | 0 => Audit.Rules.ledgerEvent 0
  | 1 => Audit.Rules.ledgerEvent 1
  | _ => sealed ((maskedSeals[2]?).getD (0, [], [], []))
      (Journal.Payloads.archivePayload Preserve.sampleSigner ⟨lit "a0", lit "2026-01-05T09:30:30.000000Z"⟩ 2
        (some (hex (Audit.Rules.ledgerDigest 0))) maskedArchived)

@[irreducible] def maskedLine (n : Nat) : Bytes := (encodeEvent maskedHost (maskedEvent n)).toOption.getD []

/-- The archived file, with a vertical tab before the outcome. -/
def maskedContent : Bytes := maskedLine 0 ++ [10] ++ ([11] ++ (maskedLine 1 ++ [10]))

def maskedFiles (name : Str) : Option Source :=
  if name = lit "journal.jsonl" then some (.readable (maskedLine 2 ++ [10]) none)
  else if name = maskedArchived then some (.readable maskedContent none)
  else none

theorem masked_verified : ∀ n < 3, verifyEvent maskedHost (maskedEvent n) 0
    (if n = 1 then some (hex (Audit.Rules.ledgerDigest 0)) else none)
    (toKeyring maskedHost [maskedKey]) [] = .ok [] := by
  decide +kernel

theorem masked_encoded : ∀ n < 3, encodeEvent maskedHost (maskedEvent n) = .ok (maskedLine n) := by
  decide +kernel

theorem dictOk_maskedEvent (n : Nat) : DictOk maskedHost (maskedEvent n) := by
  match n with
  | 0 => exact Audit.Rules.dictOk_ledgerEvent _ 0
  | 1 => exact Audit.Rules.dictOk_ledgerEvent _ 1
  | _ + 2 => exact dictOk_sealed (Journal.Payloads.dictOk_archivePayload _ _ _ _ _ _)

/-- The events are what the archived file was sealed as, and the link names it. -/
theorem masked_linked :
    (lastHash [maskedEvent 0] = some (hex (Audit.Rules.ledgerDigest 0)) ∧
      lastHash [maskedEvent 0, maskedEvent 1] = some (hex (Audit.Rules.ledgerDigest 1)) ∧
      (∀ n < 3, isCheckpoint (maskedEvent n) = false) ∧
      asStr (get (maskedEvent 0) "event_hash") = some (hex (Audit.Rules.ledgerDigest 0))) ∧
    isArchive (maskedEvent 0) = false ∧ isArchive (maskedEvent 2) = true ∧
    linkTarget (maskedEvent 2) = some maskedArchived ∧ asInt (get (maskedEvent 2) "prior_count") = some 2 ∧
    asStr (get (maskedEvent 2) "prior_head") = some (hex (Audit.Rules.ledgerDigest 0)) := by
  decide +kernel

theorem validFile_masked :
    ValidFile maskedHost (toKeyring maskedHost [maskedKey]) maskedContent [maskedEvent 0, maskedEvent 1] ∧
    ValidFile maskedHost (toKeyring maskedHost [maskedKey]) (maskedLine 2 ++ [10]) [maskedEvent 2] := by
  obtain ⟨⟨head, -, other, -⟩, -⟩ := masked_linked
  have empty : ValidFile maskedHost (toKeyring maskedHost [maskedKey]) [] [] :=
    ⟨.nil, trivial, by simp [Covered]⟩
  have one (n : Nat) (inside : n < 3) (first : n ≠ 1) :
      ValidFile maskedHost (toKeyring maskedHost [maskedKey]) (maskedLine n ++ [10]) [maskedEvent n] := by
    have verified := masked_verified n inside
    rw [if_neg first] at verified
    exact validFile_spaced empty rfl blank_nil (dictOk_maskedEvent n) (masked_encoded n inside) verified
      (other n inside)
  constructor
  · have verified := masked_verified 1 (by decide)
    rw [if_pos rfl, ← head] at verified
    have known : checkpointsAfter [] [maskedEvent 0] = [] := by
      simp [checkpointsAfter, noteCheckpoint, other 0 (by decide)]
    rw [← known] at verified
    have tab : Blank [11] := by simp [Blank, isSpace]
    exact validFile_spaced (one 0 (by decide) (by decide)) (fragment_newline _) tab (dictOk_maskedEvent 1)
      (masked_encoded 1 (by decide)) verified (other 1 (by decide))
  · exact one 2 (by decide) (by decide)

theorem masked_standing : standingHash maskedHost maskedContent = some (hex (Audit.Rules.ledgerDigest 0)) ∧
    (∃ first, firstEventOf maskedHost (.readable maskedContent none) = .ok first) ∧
    ∃ first, firstEventOf maskedHost (.readable (maskedLine 2 ++ [10]) none) = .ok first := by
  obtain ⟨⟨-, -, -, stored⟩, -⟩ := masked_linked
  obtain ⟨head, reads⟩ := standingHash_tab (dictOk_maskedEvent 0) (masked_encoded 0 (by decide))
    (masked_encoded 1 (by decide)) (asStr_eq_some.mp stored)
  have live := firstEventOf_line (dictOk_maskedEvent 2) (masked_encoded 2 (by decide))
  unfold maskedContent
  exact ⟨head, ⟨_, reads⟩, ⟨_, live⟩⟩

theorem stands_masked {name : Str} {content : Bytes} {events : List Dict}
    (file : maskedFiles name = some (.readable content none))
    (valid : ValidFile maskedHost (toKeyring maskedHost [maskedKey]) content events) :
    Stands maskedHost [maskedKey] (FileSystem.ofDirectory maskedFiles) name content events where
  there := by simp [FileSystem.ofDirectory, file]
  readable := by simp [FileSystem.ofDirectory, file]
  verifies := by
    apply verifyJournal_valid_iff.mpr
    exact ⟨content, events, by simp [FileSystem.ofDirectory, file], valid⟩
  decoded := valid.decoded

theorem accepted_masked : Accepted maskedHost [maskedKey] (FileSystem.ofDirectory maskedFiles) 1024
    (enter (lit "journal.jsonl")) [maskedArchived] := by
  obtain ⟨-, genesis, isOne, target, count, head⟩ := masked_linked
  obtain ⟨archived, live⟩ := validFile_masked
  obtain ⟨standing, reads, readsLive⟩ := masked_standing
  have apart : maskedArchived ≠ lit "journal.jsonl" := by decide
  have first : maskedFiles (lit "journal.jsonl") = some (.readable (maskedLine 2 ++ [10]) none) := if_pos rfl
  have second : maskedFiles maskedArchived = some (.readable maskedContent none) := by
    rw [maskedFiles, if_neg apart, if_pos rfl]
  have kept := stands_masked second archived
  refine ⟨by decide, ⟨[lit "journal.jsonl", maskedArchived], .cons rfl (.cons rfl .nil), ?_⟩, ?_, ?_⟩
  · simp [enter, apart.symm]
  · apply Chained.link (stands_masked first live) isOne target kept
    · rw [count, kept.decoded.length_eq]
      rfl
    · rw [standing]
      exact asStr_eq_some.mp head
    · exact .genesis kept (by simpa using genesis)
  · refine List.forall_mem_cons.mpr ⟨?_, List.forall_mem_singleton.mpr ?_⟩
    · rwa [← (stands_masked first live).readable] at readsLive
    · rwa [← kept.readable] at reads

/-- The report on the masked chain is valid, and the link does not commit to the last event. -/
theorem masked_head_accepted : ¬ ∃ turns outcome,
    Walks maskedHost [maskedKey] (FileSystem.ofDirectory maskedFiles) 1024 (enter (lit "journal.jsonl")) turns
      outcome ∧ turns ≤ 1024 + 1 ∧
    ∀ report, outcome = .ok report → report.valid = true →
      Sound maskedHost [maskedKey] (FileSystem.ofDirectory maskedFiles) 1024 (lit "journal.jsonl") report := by
  intro ⟨turns, outcome, walks, _, sound⟩
  have apart : maskedArchived ≠ lit "journal.jsonl" := by decide
  have second : maskedFiles maskedArchived = some (.readable maskedContent none) := by
    rw [maskedFiles, if_neg apart, if_pos rfl]
  have kept := stands_masked second validFile_masked.1
  have heads := heads_of_sound accepted_masked walks sound maskedArchived List.mem_cons_self maskedContent
    kept.readable
  obtain ⟨⟨-, last, -⟩, -⟩ := masked_linked
  rw [masked_standing.1, lastLineHash_decoded kept.decoded, last] at heads
  exact absurd heads (by decide)

end Tesera.Verification.ChainWalk
