import Tesera.Audit.Rules
import Tesera.Commands.Uninterrupted
import Tesera.Verification.Rotation

/-!
An archive beside appenders loses no record, as long as nothing is written to a file
without a name, each line written is new, and a rollback covers no record.
-/

namespace Tesera.Verification.Presence
open Tesera.Transition Tesera.Text Tesera.Text.Unicode Tesera.Text.Lines Tesera.Python.Value Tesera.Canonical
open Tesera.Journal.Record Tesera.Journal.Tail Tesera.Journal.Payloads Tesera.Journal.Append
open Tesera.Journal.Store Tesera.Commands Tesera.Commands.Archive Tesera.Commands.Rotation
open Tesera.Verification.Event (PublicKey Keyring toKeyring)
open Tesera.Verification.Journal Tesera.Verification.Builders Tesera.Verification.Chain Tesera.Verification.Custody
open Tesera.Verification.WriterRuns Tesera.Verification.Rotation

/-! ## Records in files -/

/-- A line is a record of the file of a name. -/
def Holds (disk : Disk) (line : Bytes) (name : Str) : Prop :=
  ∃ content, disk.world.file name = some content ∧ line ∈ records content

/-- A line is a record of exactly one file. -/
def Once (disk : Disk) (line : Bytes) : Prop := ∃! name, Holds disk line name

section Records

variable {disk after : Disk} {line other : Bytes} {name source target : Str} {inode : Nat}

theorem holds_iff : Holds disk line name ↔ ∃ inode, disk.inode name = some inode ∧ line ∈ records (disk.inodes inode) := by
  unfold Holds
  rw [Disk.file_world]
  constructor
  · rintro ⟨content, found, member⟩
    obtain ⟨inode, named, same⟩ := Option.map_eq_some_iff.mp found
    exact ⟨inode, named, same ▸ member⟩
  · rintro ⟨inode, named, member⟩
    exact ⟨_, by rw [named, Option.map_some], member⟩

theorem holds_opens (opens : Opens source disk after) (tidy : Tidy disk) :
    Holds after line name ↔ Holds disk line name := by
  unfold Holds
  by_cases opened : name = source
  · subst opened
    obtain same | created := opens.content tidy
    · rw [same]
    · rw [created]
      cases found : disk.world.file name with
      | none => simp [records_of_blank blank_nil]
      | some content => simp
  · rw [opens.file tidy opened]

/-- A line written is a record of the file it is written to, with those that were there. -/
theorem holds_write (solid : Solid line) (whole : fragment (disk.inodes inode) = []) :
    Holds (disk.write inode (line ++ [10])) other name ↔
      Holds disk other name ∨ (disk.inode name = some inode ∧ other = line) := by
  have written : records (disk.inodes inode ++ (line ++ [10])) = records (disk.inodes inode) ++ [line] := by
    apply records_written_of_blank solid
    rw [whole]
    exact blank_nil
  rw [holds_iff, holds_iff]
  change (∃ number, disk.inode name = some number ∧ other ∈
    records (Function.update disk.inodes inode (disk.inodes inode ++ (line ++ [10])) number)) ↔ _
  by_cases here : disk.inode name = some inode
  · simp [here, written]
  · simp only [here, false_and, or_false]
    apply exists_congr
    intro number
    apply and_congr_right
    intro found
    have differ : number ≠ inode := fun same => here (same ▸ found)
    rw [Function.update_of_ne differ]

/-- A file moved over one without records takes its own along. -/
theorem holds_replace (there : disk.inode source = some inode) (apart : target ≠ source) :
    Holds (disk.replace source target inode) line name ↔
      (name = target ∧ Holds disk line source) ∨ (name ≠ target ∧ name ≠ source ∧ Holds disk line name) := by
  unfold Holds
  rw [file_replace]
  by_cases isTarget : name = target
  · subst isTarget
    rw [if_neg apart, if_pos rfl, Disk.file_world, there]
    simp
  · by_cases isSource : name = source
    · simp [isSource, apart.symm]
    · simp [isTarget, isSource]

theorem once_congr (same : ∀ name, Holds after line name ↔ Holds disk line name) :
    Once after line ↔ Once disk line := by
  unfold Once
  simp only [same]

/-- Another line leaves a record where it is. -/
theorem Once.write (once : Once disk other) (solid : Solid line) (whole : fragment (disk.inodes inode) = [])
    (fresh : ∀ name, ¬ Holds disk line name) : Once (disk.write inode (line ++ [10])) other := by
  have differ : other ≠ line := by
    rintro rfl
    obtain ⟨name, holds, -⟩ := once
    exact fresh name holds
  apply (once_congr _).mpr once
  intro name
  rw [holds_write solid whole]
  simp [differ]

/-- A new line written to a file that has a name. -/
theorem once_written (tidy : Tidy disk) (solid : Solid line) (whole : fragment (disk.inodes inode) = [])
    (fresh : ∀ name, ¬ Holds disk line name) (named : disk.inode name = some inode) :
    Once (disk.write inode (line ++ [10])) line := by
  refine ⟨name, (holds_write solid whole).mpr (.inr ⟨named, rfl⟩), ?_⟩
  intro second holds
  obtain before | ⟨found, -⟩ := (holds_write solid whole).mp holds
  · exact absurd before (fresh second)
  · exact tidy.injective _ _ _ found named

theorem Once.replace (once : Once disk line) (there : disk.inode source = some inode) (apart : target ≠ source)
    (vacant : ¬ Holds disk line target) : Once (disk.replace source target inode) line := by
  obtain ⟨name, holds, only⟩ := once
  have notTarget : name ≠ target := fun same => vacant (same ▸ holds)
  by_cases moved : name = source
  · subst moved
    refine ⟨target, (holds_replace there apart).mpr (.inl ⟨rfl, holds⟩), ?_⟩
    intro second found
    obtain ⟨same, -⟩ | ⟨_, differ, before⟩ := (holds_replace there apart).mp found
    · exact same
    · exact absurd (only second before) differ
  · refine ⟨name, (holds_replace there apart).mpr (.inr ⟨notTarget, moved, holds⟩), ?_⟩
    intro second found
    obtain ⟨_, before⟩ | ⟨_, _, before⟩ := (holds_replace there apart).mp found
    · exact absurd (only source before) (Ne.symm moved)
    · exact only second before

end Records

/-! ## Lines written -/

/-- The line that a call has written. -/
def appended : Append → Option Bytes
  | .written _ _ line | .returned _ line => some line
  | _ => none

/-- The line that the archive has written. -/
def linked : Archive → Option Bytes
  | .appending _ _ call => appended call
  | .returned _ _ line => some line
  | _ => none

/-- What keeps the records: a line is written to a file that has a name and is a record of
none, and the file moved back covers none. -/
structure Unlost (setup : Setup) (state : State) (action : Action) : Prop where
  fresh : ∀ inode line, Writing state action inode line → ∀ name, ¬ Holds state.disk line name
  named : ∀ inode line, Writing state action inode line → ∃ name, state.disk.inode name = some inode
  vacant : ∀ archived reason, action = .archive none → state.archive = .restoring archived reason →
    ∀ line, ¬ Holds state.disk line setup.journal

/-- The lines to keep, and those of the calls that have written theirs, are records of one
file each. -/
structure Evident (lines : Set Bytes) (state : State) : Prop where
  kept : ∀ line ∈ lines, Once state.disk line
  appends : ∀ n line, appended (state.appends n) = some line → Once state.disk line
  archive : ∀ line, linked state.archive = some line → Once state.disk line

section Steps

variable {setup : Setup} {trusted : Keyring} {prior : List Str} {lines : Set Bytes} {state : State} {after : Disk}
  {error : Option String}

/-- A step that keeps every record, and after which no call has a line it had not. -/
theorem Evident.of_once (evident : Evident lines state) (keeps : ∀ line, Once state.disk line → Once after line)
    {archive : Archive} {appends : Nat → Append}
    (calls : ∀ n line, appended (appends n) = some line → appended (state.appends n) = some line ∨ Once after line)
    (link : ∀ line, linked archive = some line → linked state.archive = some line ∨ Once after line) :
    Evident lines ⟨after, archive, appends⟩ where
  kept line member := keeps line (evident.kept line member)
  appends n line has := (calls n line has).elim (fun had => keeps line (evident.appends n line had)) id
  archive line has := (link line has).elim (fun had => keeps line (evident.archive line had)) id

/-- A step writes the line built, or opens a file at most. -/
theorem quiet_or_of_steps {host : Host} {name : Str} {build : Option Str → Except PyError Dict} {actor : Actor}
    {disk : Disk} {call next : Append} (steps : Steps host name build actor disk call after next) :
    (Opens name disk after ∧ ∀ line, appended next = some line → appended call = some line) ∨
      ∃ inode event line, call = .built inode event line ∧ after = disk.write inode (line ++ [10]) ∧
        next = .written inode event line := by
  cases steps with
  | writes => exact .inr ⟨_, _, _, rfl, rfl, rfl⟩
  | opens => exact .inl ⟨opens_openAppend, fun _ has => (by cases has)⟩
  | returns => exact .inl ⟨opens_same, fun _ has => has⟩
  | locks | reads | builds | fails | unlocks | stops => exact .inl ⟨opens_same, fun _ has => (by cases has)⟩

theorem error_of_written {host : Host} {name : Str} {build : Option Str → Except PyError Dict} {actor : Actor}
    {disk : Disk} {call : Append} {inode other : Nat} {event last : Dict} {line bytes : Bytes}
    (built : call = .built inode event line)
    (taken : appendStep host name build actor error disk call = some (after, .written other last bytes)) :
    error = none := by
  cases error with
  | none => rfl
  | some text => simp [built, appendStep] at taken

theorem statsStep_opens {host : Host} {name : Str} {disk : Disk} {call next : Stats}
    (taken : statsStep host name error disk call = some (after, next)) : Opens name disk after := by
  cases call with
  | ready =>
    cases error with
    | some text =>
      cases taken
      exact opens_same
    | none =>
      cases taken
      exact opens_openAppend
  | opened inode =>
    cases error with
    | some text =>
      cases taken
      exact opens_same
    | none =>
      simp only [statsStep] at taken
      split_ifs at taken with free
      cases taken
      exact opens_same
  | locked inode =>
    cases error with
    | some text =>
      cases taken
      exact opens_same
    | none =>
      cases taken
      exact opens_same
  | done result => cases taken

/-- What a step of the archive does to the files. -/
inductive Effect (setup : Setup) (disk : Disk) : Option String → Archive → Disk → Archive → Prop
  | opens {error : Option String} {archive next : Archive} {after : Disk} (name : Str) (opens : Opens name disk after)
      (same : ∀ line, linked next = some line → linked archive = some line) :
      Effect setup disk error archive after next
  | writes {stats : Nat × Option Str} {archived : Str} {inode : Nat} {event : Dict} {line : Bytes} :
      Effect setup disk none (.appending stats archived (.built inode event line))
        (disk.write inode (line ++ [10])) (.appending stats archived (.written inode event line))
  | moves {stats : Nat × Option Str} {archived : Str} {inode : Nat} {next : Archive}
      (there : disk.inode setup.journal = some inode) (unlinked : linked next = none) :
      Effect setup disk none (.moving stats archived) (disk.replace setup.journal archived inode) next
  | restores {archived : Str} {reason : Option PyError} {inode : Nat} {next : Archive}
      (there : disk.inode archived = some inode) (unlinked : linked next = none) :
      Effect setup disk none (.restoring archived reason) (disk.replace archived setup.journal inode) next

theorem effect_of_archiveStep {disk : Disk} {archive next : Archive}
    (taken : setup.archiveStep error disk archive = some (after, next)) :
    Effect setup disk error archive after next := by
  cases archive with
  | counting call =>
    cases call with
    | done result =>
      cases taken
      refine .opens [] opens_same ?_
      unfold Setup.counted
      intro line has
      split at has
      · cases has
      · split_ifs at has <;> cases has
    | ready | opened | locked =>
      obtain ⟨moved, stepped, same⟩ := Option.map_eq_some_iff.mp taken
      cases same
      exact .opens _ (statsStep_opens stepped) (fun _ has => (by cases has))
  | claiming stats =>
    cases error with
    | some text =>
      cases taken
      exact .opens [] opens_same (fun _ has => (by cases has))
    | none =>
      cases taken
      exact .opens _ (opens_create (inode_archiveName disk _ _)) (fun _ has => (by cases has))
  | moving stats archived =>
    cases error with
    | some text =>
      cases found : disk.inode setup.journal <;> simp only [Setup.archiveStep] at taken <;> cases taken
      all_goals exact .opens [] opens_same (fun _ has => (by cases has))
    | none =>
      cases found : disk.inode setup.journal with
      | none =>
        simp only [Setup.archiveStep, found] at taken
        cases taken
        exact .opens [] opens_same (fun _ has => (by cases has))
      | some inode =>
        simp only [Setup.archiveStep, found] at taken
        cases taken
        exact .moves found rfl
  | settling stats archived call =>
    cases call with
    | done result =>
      cases taken
      refine .opens [] opens_same ?_
      unfold Setup.settled
      intro line has
      split at has
      · split_ifs at has <;> cases has
      · split_ifs at has
        · split at has <;> cases has
        · cases has
    | ready | opened | locked =>
      obtain ⟨moved, stepped, same⟩ := Option.map_eq_some_iff.mp taken
      cases same
      exact .opens _ (statsStep_opens stepped) (fun _ has => (by cases has))
  | checking archived reason =>
    simp only [Setup.archiveStep] at taken
    split_ifs at taken with live
    · cases taken
      exact .opens [] opens_same (fun _ has => (by cases has))
    · cases taken
      exact .opens [] opens_same (fun _ has => (by cases has))
  | restoring archived reason =>
    cases error with
    | some text =>
      cases found : disk.inode archived <;> simp only [Setup.archiveStep] at taken <;> cases taken
      all_goals exact .opens [] opens_same (fun _ has => (by cases has))
    | none =>
      cases found : disk.inode archived with
      | none =>
        simp only [Setup.archiveStep, found] at taken
        cases taken
        exact .opens [] opens_same (fun _ has => (by cases has))
      | some inode =>
        simp only [Setup.archiveStep, found] at taken
        cases taken
        exact .restores found rfl
  | appending stats archived call =>
    obtain ⟨⟨_, moved⟩, stepped, same⟩ := Option.map_eq_some_iff.mp taken
    cases same
    have steps := steps_of_appendStep stepped
    obtain ⟨opens, same⟩ | ⟨inode, event, line, rfl, rfl, rfl⟩ := quiet_or_of_steps steps
    · refine .opens _ opens ?_
      intro line has
      apply same line
      cases moved <;> exact has
    · rw [error_of_written rfl stepped]
      exact .writes
  | returned archived event line => cases taken
  | raised raised => cases taken

/-! ## Steps -/

theorem Evident.append {n : Nat} {next : Append} (evident : Evident lines state)
    (sound : Sound setup trusted prior state) (unlost : Unlost setup state (.append n error))
    (taken : appendStep setup.host setup.journal (setup.builds n) (.appender n) error state.disk (state.appends n) =
      some (after, next)) :
    Evident lines { state with disk := after, appends := Function.update state.appends n next } := by
  have steps := steps_of_appendStep taken
  obtain ⟨opens, same⟩ | ⟨inode, event, line, built, rfl, rfl⟩ := quiet_or_of_steps steps
  · apply evident.of_once _ _ (fun _ has => .inl has)
    · exact fun line => (once_congr (fun _ => holds_opens opens sound.tidy)).mpr
    · apply update_appends (P := fun m call => ∀ line, appended call = some line →
        appended (state.appends m) = some line ∨ Once after line)
      · exact fun line has => .inl (same line has)
      · exact fun _ _ _ has => .inl has
  · have none : error = none := error_of_written built taken
    subst none
    obtain ⟨name, named⟩ := unlost.named inode line (.append built)
    have fresh := unlost.fresh inode line (.append built)
    have progress := (sound.calls n).progress
    rw [built] at progress
    obtain ⟨_, _, _, encoded⟩ := progress
    obtain ⟨_, ⟨events, kept⟩, _⟩ := sound.opened n inode (by rw [built]; rfl)
    have solid := solid_encodeEvent encoded
    apply evident.of_once _ _ (fun _ has => .inl has)
    · exact fun other once => once.write solid kept.whole fresh
    · apply update_appends (P := fun m call => ∀ line, appended call = some line →
        appended (state.appends m) = some line ∨ Once _ line)
      · intro other has
        cases has
        exact .inr (once_written sound.tidy solid kept.whole fresh named)
      · exact fun _ _ _ has => .inl has

theorem Evident.archive_step {next : Archive} (evident : Evident lines state)
    (sound : Sound setup trusted prior state) (unlost : Unlost setup state (.archive error))
    (taken : setup.archiveStep error state.disk state.archive = some (after, next)) :
    Evident lines { state with disk := after, archive := next } := by
  have effect := effect_of_archiveStep taken
  have stage := sound.stage
  generalize at_ : state.archive = archive at effect stage
  cases effect with
  | opens name opens same =>
    apply evident.of_once _ (fun _ _ has => .inl has)
    · exact fun line has => .inl (at_ ▸ same line has)
    · exact fun line => (once_congr (fun _ => holds_opens opens sound.tidy)).mpr
  | @writes stats archived inode event line =>
    obtain ⟨name, named⟩ := unlost.named inode line (.archive at_)
    have fresh := unlost.fresh inode line (.archive at_)
    cases stage with
    | appending behind positive bare ok here unwritten =>
      obtain ⟨_, _, _, encoded⟩ := ok.progress
      obtain ⟨events, kept⟩ := sound.live inode (here inode rfl)
      have solid := solid_encodeEvent encoded
      apply evident.of_once _ (fun _ _ has => .inl has)
      · intro other has
        cases has
        exact .inr (once_written sound.tidy solid kept.whole fresh named)
      · exact fun other once => once.write solid kept.whole fresh
  | moves there unlinked =>
    cases stage with
    | moving live positive present readable name claimed =>
      obtain ⟨number, found, empty, _⟩ := claimed
      apply evident.of_once _ (fun _ _ has => .inl has)
      · intro line has
        rw [unlinked] at has
        cases has
      · intro line once
        apply once.replace there
        · exact fun same => name.fresh (same ▸ List.mem_cons_self)
        · rw [holds_iff]
          rintro ⟨other, same, member⟩
          cases found.symm.trans same
          rw [empty, records_of_blank blank_nil] at member
          cases member
  | restores there unlinked =>
    cases stage with
    | restoring behind =>
      apply evident.of_once _ (fun _ _ has => .inl has)
      · intro line has
        rw [unlinked] at has
        cases has
      · intro line once
        apply once.replace there
        · exact fun same => behind.apart (same ▸ List.mem_cons_self)
        · exact unlost.vacant _ _ rfl at_ line

theorem Evident.step {action : Action} {next : State} (evident : Evident lines state)
    (sound : Sound setup trusted prior state) (unlost : Unlost setup state action)
    (taken : step setup state action = some next) : Evident lines next := by
  cases action with
  | archive error =>
    obtain ⟨moved, stepped, rfl⟩ := Option.map_eq_some_iff.mp taken
    exact evident.archive_step sound unlost stepped
  | append n error =>
    obtain ⟨moved, stepped, rfl⟩ := Option.map_eq_some_iff.mp taken
    exact evident.append sound unlost stepped

end Steps

/-! ## Runs -/

/-- An archive and its appenders before their first steps, with the journal a chain over
the files archived before it. -/
structure Starts (setup : Setup) (trusted : Keyring) (prior : List Str) (state : State) : Prop where
  archive : state.archive = .counting .ready
  appends : ∀ n, state.appends n = .ready
  tidy : Tidy state.disk
  live : Live setup trusted prior state.disk

/-- What the chain and the records of a run depend on. -/
def Undisturbed (setup : Setup) (state : State) (action : Action) : Prop :=
  Settled setup state action ∧ Unlost setup state action

/-- `verify_archive_chain` of the live path. -/
def Verifies (setup : Setup) (keys : List PublicKey) (maxLinks : Nat) (disk : Disk) : Prop :=
  ∃ report, verifyArchiveChain setup.host keys (World.directory disk.world) maxLinks setup.journal = .ok report ∧
    report.valid = true

/-- The archive has raised an `ArchiveError`, or is not finished, or the chain verifies. -/
def ArchivesOrRaises (setup : Setup) (keys : List PublicKey) (maxLinks : Nat) (state : State) : Prop :=
  match state.archive with
  | .returned _ _ _ => Verifies setup keys maxLinks state.disk
  | .raised error => (∃ text, error = .archiveError text) ∨ Verifies setup keys maxLinks state.disk
  | _ => True

section Runs

variable {setup : Setup} {trusted : Keyring} {prior : List Str} {state : State}

theorem Starts.sound (starts : Starts setup trusted prior state) : Sound setup trusted prior state where
  tidy := starts.tidy
  apart := by
    obtain ⟨events, standing⟩ := starts.live
    exact (List.nodup_cons.mp standing.distinct).1
  opened n inode held := by
    rw [starts.appends n] at held
    cases held
  calls n := by
    rw [starts.appends n]
    exact ⟨fun _ held => (by cases held), trivial⟩
  live inode found := by
    obtain ⟨events, standing⟩ := starts.live
    have kept := standing.chain.kept
    rw [Disk.file_world, found] at kept
    exact ⟨events, kept⟩
  stage := by
    rw [starts.archive]
    exact .counting starts.live ⟨by simp, by simp, by simp, by simp⟩

theorem Starts.evident (starts : Starts setup trusted prior state) :
    Evident { line | Once state.disk line } state where
  kept _ once := once
  appends n line has := by
    rw [starts.appends n] at has
    cases has
  archive line has := by
    rw [starts.archive] at has
    cases has

theorem verifies_of_standing {keys : List PublicKey} {maxLinks : Nat} {disk : Disk} {events : List Dict}
    {names : List Str} (standing : Standing setup.host (toKeyring setup.host keys) disk setup.journal events names)
    (there : (disk.inode setup.journal).isSome = true) (enough : names.length ≤ maxLinks) :
    Verifies setup keys maxLinks disk := by
  apply walk_chain standing.chain _ enough [] standing.distinct (by simp)
  rw [Disk.file_world, Option.isSome_map]
  exact there

theorem archivesOrRaises_of_sound {keys : List PublicKey} {maxLinks : Nat}
    (sound : Sound setup (toKeyring setup.host keys) prior state) (enough : prior.length < maxLinks) :
    ArchivesOrRaises setup keys maxLinks state := by
  have stage := sound.stage
  unfold ArchivesOrRaises
  cases at_ : state.archive with
  | returned archived event line =>
    rw [at_] at stage
    cases stage with
    | returned linked =>
      obtain ⟨⟨events, standing⟩, there⟩ := linked
      exact verifies_of_standing standing there enough
  | raised error =>
    rw [at_] at stage
    cases stage with
    | raised outcome =>
      apply outcome.imp_right
      rintro ⟨⟨events, standing⟩, there⟩
      exact verifies_of_standing standing there enough.le
  | _ => trivial

end Runs

/-- In an undisturbed run, an archive that has not raised its error has left a chain that
verifies, and each record, of the start or of a call that returned, is in exactly one file. -/
theorem archive_keeps_custody {setup : Setup} {keys : List PublicKey} {prior : List Str} {start final : State}
    {actions : List Action} {maxLinks : Nat}
    (trustedSigner : TrustedSigner setup.host (toKeyring setup.host keys) setup.signer)
    (loads : setup.unloadable = none) (noSlash : 47 ∉ setup.journal) (noBackslash : 92 ∉ setup.journal)
    (honest : ∀ n, Honest setup.host (toKeyring setup.host keys) (setup.builds n))
    (enough : prior.length < maxLinks) (starts : Starts setup (toKeyring setup.host keys) prior start)
    (run : Run (step setup) (Undisturbed setup) start actions final) :
    ArchivesOrRaises setup keys maxLinks final ∧
      (∀ line, Once start.disk line → Once final.disk line) ∧
      (∀ n event line, final.appends n = .returned event line → Once final.disk line) ∧
      ∀ archived event line, final.archive = .returned archived event line → Once final.disk line := by
  obtain ⟨sound, evident⟩ := run.keeps
    (P := fun state => Sound setup (toKeyring setup.host keys) prior state ∧
      Evident { line | Once start.disk line } state)
    (fun before action after allowed kept taken =>
      ⟨kept.1.step trustedSigner loads noSlash noBackslash honest allowed.1 taken,
        kept.2.step kept.1 allowed.2 taken⟩)
    ⟨starts.sound, starts.evident⟩
  refine ⟨archivesOrRaises_of_sound sound enough, evident.kept, ?_, ?_⟩
  · intro n event line returned
    exact evident.appends n line (by rw [returned]; rfl)
  · intro archived event line returned
    exact evident.archive line (by rw [returned]; rfl)

/-! ## A journal with one record -/

/-- The seals of a decision, of its outcome and of an archive record. -/
def rotationSeals : List (Nat × Bytes × Bytes × Str) :=
  Audit.Rules.ledgerSeals.take 2 ++
    [(315, [44, 37, 175, 74, 8, 108, 175, 50, 234, 59, 68, 112, 33, 106, 102, 19, 200, 253, 58, 41, 16, 89, 215,
      255, 168, 153, 224, 43, 45, 182, 105, 197],
      [120, 244, 46, 213, 22, 197, 72, 114, 190, 101, 187, 246, 161, 43, 158, 8, 236, 205, 59, 186, 115, 46,
      54, 44, 27, 139, 171, 29, 129, 122, 8, 83, 55, 249, 250, 141, 132, 67, 61, 172, 219, 171, 232, 107, 103,
      74, 49, 144, 232, 83, 28, 193, 179, 110, 226, 185, 217, 58, 111, 71, 218, 47, 81, 1],
      lit "ePQu1RbFSHK+Zbv2oSueCOzNO7pzLjYsG4urHYF6CFM3+fqNhEM9rNur6GtnSjGQ6FMcwbNu4rnZOm9H2i9RAQ==")]

def rotationHost : Host :=
  Host.plain
    (fun bytes => ((rotationSeals.find? (fun entry => entry.1 == bytes.length)).map (fun entry => entry.2.1)).getD
      Preserve.sampleFingerprint)
    (fun text => (rotationSeals.find? (fun entry => entry.2.2.2 == text)).map (fun entry => entry.2.2.1))

def rotationKey : PublicKey where
  raw := Preserve.sampleKey.raw
  accepts := fun signature digest => rotationSeals.any (fun entry => entry.2.2.1 == signature && entry.2.1 == digest)

def rotationSigner : Signer where
  keyId := Preserve.sampleSigner.keyId
  sign := fun digest => ((rotationSeals.find? (fun entry => entry.2.1 == digest)).map
    (fun entry => entry.2.2.2)).elim (.error .typeError) .ok

/-- The first appender records a decision, the others its outcome. -/
def rotationBuild (n : Nat) (previous : Option Str) : Except PyError Dict :=
  let record := (Audit.Rules.ledgerRecords[min n 1]?).getD ("", [])
  finalizeEvent rotationHost (recordPayload rotationSigner (Audit.Rules.ledgerStamp (min n 1))
    Audit.Rules.ledgerContract record.1 previous record.2) rotationSigner.sign

def rotationSetup : Setup where
  host := rotationHost
  journal := lit "journal.jsonl"
  signer := rotationSigner
  unloadable := none
  stamp := ⟨lit "a0", lit "2026-01-05T09:30:30.000000Z"⟩
  time := ⟨2026, 1, 5, 9, 30, 0⟩
  builds := rotationBuild

theorem trusted_rotationSigner : TrustedSigner rotationHost (toKeyring rotationHost [rotationKey]) rotationSigner := by
  have owner : Event.keyIdFor rotationHost rotationKey = rotationSigner.keyId := by decide +kernel
  have seals : ∀ entry ∈ rotationSeals,
      Event.verifySignature rotationHost rotationKey entry.2.1 entry.2.2.2 = true := by
    decide +kernel
  refine ⟨rotationKey, ?_, ?_⟩
  · simp [toKeyring, Members.ofPairs, Members.put, owner, Members.get]
  · intro digest signature signed
    simp only [rotationSigner] at signed
    cases found : rotationSeals.find? (fun entry => entry.2.1 == digest) with
    | none =>
      rw [found] at signed
      cases signed
    | some entry =>
      rw [found] at signed
      cases signed
      have same : entry.2.1 = digest := by simpa using List.find?_some found
      exact same ▸ seals entry (List.mem_of_find?_eq_some found)

/-- The records of the sample have the fields of their types. -/
theorem rotation_records : ∀ n < 2, ∃ type record, Audit.Rules.ledgerRecords[n]? = some record ∧
    record.1 = Event.EventType.name type ∧ (type = .decision ∨ type = .outcome) ∧
    (∀ p ∈ record.2, p.2.Ok rotationHost) ∧
    (∀ field ∈ recordFields, lit field ∉ record.2.map Prod.fst) ∧
    (∀ field ∈ Event.EventType.required type, field ∈ recordFields ∨ lit field ∈ record.2.map Prod.fst) ∧
    lit "receipt" ∉ record.2.map Prod.fst := by
  intro n inside
  have cases_ : n = 0 ∨ n = 1 := by omega
  rcases cases_ with rfl | rfl
  · refine ⟨.decision, _, rfl, rfl, .inl rfl, ?_, by decide +kernel, by decide +kernel, by decide +kernel⟩
    simp only [List.forall_mem_cons, List.not_mem_nil, false_implies, Json.Ok, ItemsOk, implies_true, and_self]
  · refine ⟨.outcome, _, rfl, rfl, .inr rfl, ?_, by decide +kernel, by decide +kernel, by decide +kernel⟩
    simp only [List.forall_mem_cons, List.not_mem_nil, false_implies, Json.Ok, implies_true, and_self]

theorem honest_rotationBuild (n : Nat) : Honest rotationHost (toKeyring rotationHost [rotationKey]) (rotationBuild n) := by
  intro events previous event built
  obtain ⟨type, record, found, named, isRecord, values, apart, complete, noReceipt⟩ :=
    rotation_records (min n 1) (by omega)
  simp only [rotationBuild, found, Option.getD_some, named] at built
  refine ⟨type, _, _, ⟨wellFormed_recordPayload trusted_rotationSigner values apart complete ?_, built⟩, ?_, ?_⟩
  · apply isRecord.imp_right
    intro outcome
    refine ⟨outcome, ?_⟩
    have absent : Members.get (recordPayload rotationSigner (Audit.Rules.ledgerStamp (min n 1))
        Audit.Rules.ledgerContract type.name previous record.2) (lit "receipt") = none := by
      rw [recordPayload, get_update_of_notMem noReceipt]
      simp [Members.get]
    simp [Event.outcomeShape, has, absent, Event.issueIf]
  · rintro rfl
    rcases isRecord with impossible | impossible <;> cases impossible
  · rintro rfl
    rcases isRecord with impossible | impossible <;> cases impossible

def rotationHead : Option Str := some (hex (Audit.Rules.ledgerDigest 0))

def rotationArchived : Str := archiveName rotationSetup.journal rotationSetup.time 0

/-- The decision, its outcome, and the archive record of a journal with the decision, each
with its line. -/
@[irreducible] def rotationLine : Nat → Dict × Bytes
  | 0 => ((buildLine rotationHost (rotationBuild 0) none).toOption).getD ([], [])
  | 1 => ((buildLine rotationHost (rotationBuild 1) rotationHead).toOption).getD ([], [])
  | _ => ((buildLine rotationHost (rotationSetup.build (1, rotationHead) rotationArchived) none).toOption).getD
      ([], [])

theorem ok_of_isSome {α : Type} {x : Except PyError α} {d : α} (some : x.toOption.isSome = true) :
    x = .ok (x.toOption.getD d) := by
  cases x with
  | ok value => rfl
  | error error => cases some

theorem rotation_decision : buildLine rotationHost (rotationBuild 0) none = .ok (rotationLine 0) := by
  unfold rotationLine
  apply ok_of_isSome
  decide +kernel

theorem rotation_outcome : buildLine rotationHost (rotationBuild 1) rotationHead = .ok (rotationLine 1) := by
  unfold rotationLine
  apply ok_of_isSome
  decide +kernel

theorem rotation_link :
    buildLine rotationHost (rotationSetup.build (1, rotationHead) rotationArchived) none = .ok (rotationLine 2) := by
  unfold rotationLine
  apply ok_of_isSome
  decide +kernel

theorem rotation_distinct : (rotationLine 2).2 ≠ (rotationLine 0).2 ∧
    lastHash [(rotationLine 0).1] = rotationHead := by
  unfold rotationLine
  decide +kernel

theorem buildLine_eq_ok {host : Host} {build : Option Str → Except PyError Dict} {previous : Option Str}
    {built : Dict × Bytes} (done : buildLine host build previous = .ok built) :
    build previous = .ok built.1 ∧ encodeEvent host built.1 = .ok built.2 := by
  simp only [buildLine, bind_eq_ok, pure, Except.pure, Except.ok.injEq] at done
  obtain ⟨event, made, line, encoded, rfl⟩ := done
  exact ⟨made, encoded⟩

theorem tail_nil : readLastEventHash rotationHost (shown []) [] = .ok none :=
  rfl

/-- The journal with the decision. -/
def rotationContent : Bytes := (rotationLine 0).2 ++ [10]

theorem kept_rotationContent :
    Kept rotationHost (toKeyring rotationHost [rotationKey]) rotationContent [(rotationLine 0).1] := by
  obtain ⟨made, encoded⟩ := buildLine_eq_ok rotation_decision
  exact (kept_progress (kept_nil _ _) (honest_rotationBuild 0) tail_nil made encoded).1

theorem tail_rotationContent (label : String) :
    readLastEventHash rotationHost label rotationContent = .ok rotationHead := by
  obtain ⟨made, encoded⟩ := buildLine_eq_ok rotation_decision
  obtain ⟨hash, tail⟩ := readable_progress (kept_nil _ _) (honest_rotationBuild 0) tail_nil made encoded
  have same := readLastEventHash_sound kept_rotationContent.valid.decoded (tail label)
  rw [rotation_distinct.2] at same
  rw [← same]
  exact tail label

/-- The journal with its outcome as well. -/
theorem kept_rotationLate : Kept rotationHost (toKeyring rotationHost [rotationKey])
    (rotationContent ++ ((rotationLine 1).2 ++ [10])) [(rotationLine 0).1, (rotationLine 1).1] := by
  obtain ⟨made, encoded⟩ := buildLine_eq_ok rotation_outcome
  exact (kept_progress kept_rotationContent (honest_rotationBuild 1) (tail_rotationContent (shown [])) made
    encoded).1

theorem stats_rotationContent (label : String) :
    archiveStats rotationHost label rotationContent = .ok (1, rotationHead) := by
  have filled : rotationContent.length ≠ 0 := by simp [rotationContent]
  have counted : ∃ stats, archiveStats rotationHost label rotationContent = .ok stats := by
    unfold archiveStats
    rw [if_neg filled, tail_rotationContent label]
    exact ⟨_, rfl⟩
  obtain ⟨stats, found⟩ := counted
  rw [found, archiveStats_kept kept_rotationContent found, rotation_distinct.2]
  rfl

theorem bare_rotationArchived : Event.notBareName rotationArchived = false := by
  apply bare_archiveName <;> decide

/-- The new journal with the archive record. -/
theorem kept_rotationLink :
    Kept rotationHost (toKeyring rotationHost [rotationKey]) ((rotationLine 2).2 ++ [10]) [(rotationLine 2).1] ∧
      isArchive (rotationLine 2).1 = true ∧ get (rotationLine 2).1 "archived_path" = .str rotationArchived ∧
      get (rotationLine 2).1 "prior_count" = .int (1 : Nat) := by
  obtain ⟨made, encoded⟩ := buildLine_eq_ok rotation_link
  have returned : appendBuilt rotationHost (shown rotationSetup.journal) []
      (buildArchive rotationHost rotationSigner rotationSetup.stamp rotationSetup.journal rotationArchived
        (1, rotationHead)) = .ok ⟨[] ++ ((rotationLine 2).2 ++ [10]), (rotationLine 2).1, none⟩ :=
    appendBuilt_eq_ok.mpr ⟨_, rfl, made, encoded, rfl⟩
  obtain ⟨kept, isOne, path, count, -⟩ :=
    kept_archive trusted_rotationSigner (le_refl 1) bare_rotationArchived (kept_nil _ _) returned
  exact ⟨kept, isOne, path, count⟩

/-! ## Runs of the sample -/

theorem lenient_undisturbed (setup : Setup) : Uninterrupted.Lenient (Undisturbed setup) := by
  intro state action quiet calm
  refine ⟨⟨?_, ?_⟩, ?_, ?_, ?_⟩
  · rintro stats archived inode event line content rfl built
    exact absurd (.archive built) (quiet inode line)
  · rintro n inode event line archived rfl built
    exact absurd (.append built) (quiet inode line)
  · exact fun inode line writing => absurd writing (quiet inode line)
  · exact fun inode line writing => absurd writing (quiet inode line)
  · exact fun archived reason _ restoring => absurd restoring (calm archived reason)

/-- An empty directory. -/
def Disk.empty : Disk := ⟨[], fun _ => [], fun _ => none, 0⟩

def rotationStart : State := ⟨Disk.empty, .counting .ready, fun _ => .ready⟩

/-- The directory with the journal. -/
def rotationDisk : Disk := (Disk.empty.create rotationSetup.journal).write 0 ((rotationLine 0).2 ++ [10])

/-- The directory after the archive. -/
def rotatedDisk : Disk :=
  (Uninterrupted.rotated rotationDisk rotationSetup.journal rotationArchived 0).write 2 ((rotationLine 2).2 ++ [10])

/-- The first appender has returned. -/
def rotationAppends : Nat → Append :=
  Function.update (fun _ => .ready) 0 (.returned (rotationLine 0).1 (rotationLine 0).2)

theorem starts_rotationStart : Starts rotationSetup (toKeyring rotationHost [rotationKey]) [] rotationStart where
  archive := rfl
  appends _ := rfl
  tidy := ⟨fun _ _ _ found => (by cases found), fun _ _ found => (by cases found)⟩
  live := ⟨[], .genesis (kept_nil _ _) (fun _ first => (by cases first)), List.nodup_singleton _⟩

/-- The first appender opens the journal and appends the decision. -/
theorem run_rotationAppend {guard : State → Action → Prop} (lenient : Uninterrupted.Lenient guard)
    (writes : guard ⟨(Disk.empty.create rotationSetup.journal).lock (.appender 0) 0, .counting .ready,
      Function.update (fun _ => .ready) 0 (.built 0 (rotationLine 0).1 (rotationLine 0).2)⟩ (.append 0 none)) :
    Run (step rotationSetup) guard rotationStart (List.replicate 6 (.append 0 none))
      ⟨rotationDisk, .counting .ready, rotationAppends⟩ := by
  have ready : (fun _ => .ready : Nat → Append) = Function.update (fun _ => .ready) 0 .ready := by
    rw [Function.update_eq_self]
  have opens : Run (step rotationSetup) guard rotationStart [.append 0 none]
      ⟨Disk.empty.create rotationSetup.journal, .counting .ready,
        Function.update (fun _ => .ready) 0 (.opened 0)⟩ := by
    have opened := @Uninterrupted.append_quiet rotationSetup guard Disk.empty
      (Disk.empty.create rotationSetup.journal) (.counting .ready) (fun _ => .ready) 0 lenient (by simp) .ready
      (.opened 0) (by simp) rfl
    rwa [← ready] at opened
  have finishes := @Uninterrupted.append_finishes rotationSetup guard (Disk.empty.create rotationSetup.journal)
    (.counting .ready) (fun _ => .ready) 0 0 none (rotationLine 0).1 (rotationLine 0).2 lenient (by simp) rfl rfl
    rotation_decision writes
  exact opens.append finishes

theorem inodes_rotationDisk : rotationDisk.inodes 0 = rotationContent := by
  simp [rotationDisk, Disk.write, Disk.create, rotationContent, Disk.empty]

/-- The archive then runs on its own. -/
theorem run_rotationArchive {guard : State → Action → Prop} {appends : Nat → Append}
    (lenient : Uninterrupted.Lenient guard)
    (writes : guard ⟨(Uninterrupted.rotated rotationDisk rotationSetup.journal rotationArchived 0).lock .archive 2,
      .appending (1, rotationHead) rotationArchived (.built 2 (rotationLine 2).1 (rotationLine 2).2), appends⟩
      (.archive none)) :
    Run (step rotationSetup) guard ⟨rotationDisk, .counting .ready, appends⟩ (List.replicate 16 (.archive none))
      ⟨rotatedDisk, .returned rotationArchived (rotationLine 2).1 (rotationLine 2).2, appends⟩ := by
  apply Uninterrupted.archive_runs lenient rfl
  · rfl
  · decide
  · rfl
  · rfl
  · decide
  · intro name
    rw [inodes_rotationDisk]
    exact stats_rotationContent name
  · decide
  · exact rotation_link
  · exact writes

theorem holds_rotationDisk {line : Bytes} {name : Str} (holds : Holds rotationDisk line name) :
    line = (rotationLine 0).2 := by
  obtain ⟨made, encoded⟩ := buildLine_eq_ok rotation_decision
  obtain before | ⟨-, same⟩ := (holds_write (solid_encodeEvent encoded) (by rfl)).mp holds
  · obtain ⟨inode, found, member⟩ := holds_iff.mp before
    have empty : (Disk.empty.create rotationSetup.journal).inodes inode = [] := by
      simp [Disk.empty, Disk.create]
    rw [empty, records_of_blank blank_nil] at member
    cases member
  · exact same

/-- The directory as the archive finds it when it writes its record. -/
def lockedDisk : Disk :=
  (Uninterrupted.rotated rotationDisk rotationSetup.journal rotationArchived 0).lock .archive 2

theorem inodes_lockedDisk : lockedDisk.inodes 0 = rotationContent ∧ lockedDisk.inodes 2 = [] := by
  have later : (Uninterrupted.rotated rotationDisk rotationSetup.journal rotationArchived 0).inodes 0 =
      rotationDisk.inodes 0 := rfl
  exact ⟨later.trans inodes_rotationDisk, rfl⟩

theorem inode_lockedDisk {name : Str} {inode : Nat} (found : lockedDisk.inode name = some inode) :
    (name = rotationSetup.journal ∧ inode = 2) ∨ (name = rotationArchived ∧ inode = 0) := by
  change ((((rotationDisk.create rotationArchived).replace rotationSetup.journal rotationArchived 0).create
    rotationSetup.journal).inode name) = some inode at found
  have next : ((rotationDisk.create rotationArchived).replace rotationSetup.journal rotationArchived 0).next = 2 := rfl
  rw [Disk.inode_create, Disk.inode_replace, Disk.inode_create, next] at found
  split_ifs at found with isJournal isArchived
  · exact .inl ⟨isJournal, (Option.some.inj found).symm⟩
  · exact .inr ⟨isArchived, (Option.some.inj found).symm⟩
  · exfalso
    change (Disk.empty.create rotationSetup.journal).inode name = some inode at found
    rw [Disk.inode_create, if_neg isJournal] at found
    cases found

/-- The archive's write is undisturbed: the archived file is as counted, and its line is new. -/
theorem undisturbed_link {appends : Nat → Append} :
    Undisturbed rotationSetup ⟨lockedDisk, .appending (1, rotationHead) rotationArchived
      (.built 2 (rotationLine 2).1 (rotationLine 2).2), appends⟩ (.archive none) := by
  refine ⟨⟨?_, by simp⟩, ?_, ?_, by simp⟩
  · intro stats archived inode event line content _ built file
    simp only [Archive.appending.injEq] at built
    obtain ⟨rfl, rfl, -⟩ := built
    have found : lockedDisk.inode rotationArchived = some 0 := rfl
    rw [Disk.file_world, found, Option.map_some, inodes_lockedDisk.1, Option.some.injEq] at file
    rw [← file]
    exact stats_rotationContent _
  · intro inode line writing name holds
    cases writing with
    | archive built =>
      simp only [Archive.appending.injEq, Append.built.injEq] at built
      obtain ⟨-, -, -, -, rfl⟩ := built
      obtain ⟨number, found, member⟩ := holds_iff.mp holds
      obtain ⟨-, rfl⟩ | ⟨-, rfl⟩ := inode_lockedDisk found
      · rw [inodes_lockedDisk.2, records_of_blank blank_nil] at member
        cases member
      · rw [inodes_lockedDisk.1] at member
        obtain ⟨made, encoded⟩ := buildLine_eq_ok rotation_decision
        have written := @records_written_of_blank [] _ (solid_encodeEvent encoded) blank_nil
        rw [List.nil_append] at written
        rw [rotationContent, written, records_of_blank blank_nil, List.nil_append, List.mem_singleton] at member
        exact rotation_distinct.1 member
  · intro inode line writing
    cases writing with
    | archive built =>
      simp only [Archive.appending.injEq, Append.built.injEq] at built
      obtain ⟨-, -, rfl, -⟩ := built
      exact ⟨rotationSetup.journal, rfl⟩

/-- The decision is appended and the journal archived, one after the other. -/
theorem archive_keeps_custody_sample : ∃ final, final.archive =
      .returned rotationArchived (rotationLine 2).1 (rotationLine 2).2 ∧
    ArchivesOrRaises rotationSetup [rotationKey] 1024 final ∧ Once final.disk (rotationLine 0).2 ∧
    Once final.disk (rotationLine 2).2 := by
  have tidy : Tidy (Disk.empty.create rotationSetup.journal) :=
    Tidy.create ⟨fun _ _ _ found => (by cases found), fun _ _ found => (by cases found)⟩ _
  have appends := run_rotationAppend (lenient_undisturbed rotationSetup) (by
    refine ⟨⟨by simp, ?_⟩, ?_, ?_, by simp⟩
    · intro n inode event line archived _ _ none
      cases none
    · intro inode line _ name holds
      obtain ⟨number, found, member⟩ := holds_iff.mp holds
      have empty : ((Disk.empty.create rotationSetup.journal).lock (.appender 0) 0).inodes number = [] := by
        simp [Disk.empty, Disk.create, Disk.lock]
      rw [empty, records_of_blank blank_nil] at member
      cases member
    · intro inode line writing
      cases writing with
      | append built =>
        simp only [Function.update_self, Append.built.injEq] at built
        exact ⟨rotationSetup.journal, by rw [← built.1]; rfl⟩)
  have archives := @run_rotationArchive _ rotationAppends (lenient_undisturbed rotationSetup) undisturbed_link
  obtain ⟨chain, -, returned, linked⟩ := archive_keeps_custody trusted_rotationSigner rfl (by decide)
    (by decide) honest_rotationBuild (show [].length < 1024 by decide) starts_rotationStart
    (appends.append archives)
  have first : rotationAppends 0 = .returned (rotationLine 0).1 (rotationLine 0).2 := by simp [rotationAppends]
  exact ⟨_, rfl, chain, returned 0 _ _ first, linked _ _ _ rfl⟩

/-! ## A writer that opened the journal before the rename -/

/-- A journal whose link commits to another count than that of the file it names. -/
theorem not_verifies_of_miscounted {setup : Setup} {keys : List PublicKey} {disk : Disk} {content kept : Bytes}
    {archive : Dict} {events before : List Dict} {archived : Str} {count maxLinks : Nat}
    (live : disk.world.file setup.journal = some content)
    (journal : Kept setup.host (toKeyring setup.host keys) content (archive :: events))
    (isOne : isArchive archive = true) (path : get archive "archived_path" = .str archived)
    (bare : Event.notBareName archived = false) (committed : get archive "prior_count" = .int count)
    (there : disk.world.file archived = some kept)
    (predecessor : Kept setup.host (toKeyring setup.host keys) kept before) (differ : count ≠ before.length) :
    ¬ Verifies setup keys maxLinks disk := by
  rintro ⟨report, walked, valid⟩
  have source : World.directory disk.world setup.journal = some (.readable content none) := by
    simp [World.directory, live]
  have follows : visitOf (archive :: events).head? = .follow archive := by simp [visitOf, isOne]
  have arrived : arrive setup.host keys (World.directory disk.world) [] [] setup.journal = .ok (.inr archive) := by
    rw [arrive, if_neg (by simp), source, Option.elim_some, visit_kept _ journal, follows]
    rfl
  have target : linkTarget archive = some archived := by simp [linkTarget, path, asStr, bare]
  have prior : World.directory disk.world archived = some (.readable kept none) := by
    simp [World.directory, there]
  have miscounted : asInt (get archive "prior_count") ≠ some ((before.length : Nat) : Int) := by
    rw [committed]
    simpa [asInt] using differ
  cases maxLinks with
  | zero =>
    simp only [verifyArchiveChain, walk, arrived, bind, Except.bind, pure, Except.pure, Except.ok.injEq] at walked
    rw [← walked] at valid
    cases valid
  | succ left =>
    have followed : ∃ issue, followLink setup.host (World.directory disk.world) setup.journal archive =
        .ok ([issue], archived) := by
      simp only [followLink, target, prior, tallyOf_kept predecessor]
      rw [linkIssues, if_pos miscounted]
      exact ⟨_, rfl⟩
    obtain ⟨issue, followed⟩ := followed
    simp only [verifyArchiveChain, walk, arrived, followed, bind, Except.bind, pure, Except.pure,
      Except.ok.injEq] at walked
    rw [← walked] at valid
    cases valid

/-- An appender opens the journal, the archive runs and returns, and the appender then locks,
reads and writes the file it has open, which is the archived one: the chain does not verify. -/
theorem late_writer_breaks : ∃ final, Starts rotationSetup (toKeyring rotationHost [rotationKey]) [] rotationStart ∧
    TrustedSigner rotationHost (toKeyring rotationHost [rotationKey]) rotationSigner ∧
    (∀ n, Honest rotationHost (toKeyring rotationHost [rotationKey]) (rotationBuild n)) ∧
    (∃ actions, Run (step rotationSetup) (fun _ _ => True) rotationStart actions final) ∧
    final.archive = .returned rotationArchived (rotationLine 2).1 (rotationLine 2).2 ∧
    (∀ n, final.appends n = .ready ∨ ∃ event line, final.appends n = .returned event line) ∧
    ¬ ArchivesOrRaises rotationSetup [rotationKey] 1024 final := by
  have lenient : Uninterrupted.Lenient (fun _ _ => True) := fun _ _ _ _ => trivial
  have appends := run_rotationAppend lenient trivial
  have ready : rotationAppends = Function.update rotationAppends 1 .ready := by
    have same : rotationAppends 1 = .ready := by simp [rotationAppends]
    rw [← same, Function.update_eq_self]
  have opens : Run (step rotationSetup) (fun _ _ => True) ⟨rotationDisk, .counting .ready, rotationAppends⟩
      [.append 1 none] ⟨rotationDisk, .counting .ready, Function.update rotationAppends 1 (.opened 0)⟩ := by
    have opened := @Uninterrupted.append_quiet rotationSetup (fun _ _ => True) rotationDisk rotationDisk
      (.counting .ready) rotationAppends 1 lenient (by simp) .ready (.opened 0) (by simp) rfl
    rwa [← ready] at opened
  have archives := @run_rotationArchive _ (Function.update rotationAppends 1 (.opened 0)) lenient trivial
  have content : rotatedDisk.inodes 0 = rotationContent := inodes_lockedDisk.1
  have finishes := @Uninterrupted.append_finishes rotationSetup (fun _ _ => True) rotatedDisk
    (.returned rotationArchived (rotationLine 2).1 (rotationLine 2).2) rotationAppends 1 0 rotationHead
    (rotationLine 1).1 (rotationLine 1).2 lenient (by simp) rfl (by rw [content]; exact tail_rotationContent _)
    rotation_outcome trivial
  refine ⟨_, starts_rotationStart, trusted_rotationSigner, honest_rotationBuild,
    ⟨_, appends.append (opens.append (archives.append finishes))⟩, rfl, ?_, ?_⟩
  · intro n
    by_cases first : n = 1
    · simp [first]
    · by_cases zero : n = 0
      · simp [zero, rotationAppends]
      · simp [first, zero, rotationAppends]
  · obtain ⟨kept, isOne, path, count⟩ := kept_rotationLink
    apply not_verifies_of_miscounted _ kept isOne path bare_rotationArchived count _ kept_rotationLate (by decide)
    · rw [file_write, if_neg (by decide), Disk.file_world]
      rfl
    · have named : rotatedDisk.inode rotationArchived = some 0 := rfl
      rw [file_write, if_pos named, content]

end Tesera.Verification.Presence
