import Tesera.Commands.Rotation
import Tesera.Verification.WriterRuns

/-!
An archive beside appenders keeps the chain of custody, as long as the file it counted is
the file it commits to, nothing is written to that file once the link to it stands, and a
rollback puts the file back where nothing has been written in the meantime.
-/

namespace Tesera.Verification.Rotation
open Tesera.Transition Tesera.Text Tesera.Text.Unicode Tesera.Text.Lines Tesera.Python.Value Tesera.Canonical
open Tesera.Journal.Record Tesera.Journal.Tail Tesera.Journal.Payloads Tesera.Journal.Append
open Tesera.Journal.Store Tesera.Commands.Archive Tesera.Commands.Rotation
open Tesera.Verification.Event (PublicKey Keyring notBareName toKeyring)
open Tesera.Verification.Journal Tesera.Verification.Builders Tesera.Verification.Chain
open Tesera.Verification.Custody Tesera.Verification.WriterRuns

/-! ## Calls -/

/-- The file a call has open. -/
def handle : Append → Option Nat
  | .opened inode | .locked inode | .read inode _ | .built inode _ _ | .written inode _ _ | .failing inode _ =>
      some inode
  | _ => none

/-- The file a call has locked. -/
def holds : Append → Option Nat
  | .opened _ => none
  | call => handle call

theorem handle_of_holds {call : Append} {inode : Nat} (held : holds call = some inode) :
    handle call = some inode := by
  cases call <;> simp_all [holds]

/-- What a call has read is still the end of its file, and what it has built follows it. -/
def Progress (host : Host) (name : Str) (build : Option Str → Except PyError Dict) (disk : Disk) :
    Append → Prop
  | .read inode previous => readLastEventHash host (shown name) (disk.inodes inode) = .ok previous
  | .built inode event line => ∃ previous,
      readLastEventHash host (shown name) (disk.inodes inode) = .ok previous ∧
        build previous = .ok event ∧ encodeEvent host event = .ok line
  | _ => True

structure CallOk (host : Host) (name : Str) (build : Option Str → Except PyError Dict) (actor : Actor)
    (disk : Disk) (call : Append) : Prop where
  locked : ∀ inode, holds call = some inode → disk.locks inode = some actor
  progress : Progress host name build disk call

/-- A step leaves the files alone that another actor has locked. -/
structure Frames (actor : Actor) (disk after : Disk) : Prop where
  next : disk.next ≤ after.next
  apart : ∀ inode other, inode < disk.next → other ≠ actor → disk.locks inode = some other →
    after.locks inode = some other ∧ after.inodes inode = disk.inodes inode

section Calls

variable {host : Host} {name : Str} {build : Option Str → Except PyError Dict} {actor : Actor}
  {error : Option String} {disk after : Disk} {call next : Append}

/-- What a step of an append does. -/
inductive Steps (host : Host) (name : Str) (build : Option Str → Except PyError Dict) (actor : Actor) (disk : Disk) :
    Append → Disk → Append → Prop
  | opens : Steps host name build actor disk .ready (disk.openAppend name).1 (.opened (disk.openAppend name).2)
  | locks {inode : Nat} (free : disk.locks inode = none) :
      Steps host name build actor disk (.opened inode) (disk.lock actor inode) (.locked inode)
  | reads {inode : Nat} {previous : Option Str}
      (found : readLastEventHash host (shown name) (disk.inodes inode) = .ok previous) :
      Steps host name build actor disk (.locked inode) disk (.read inode previous)
  | builds {inode : Nat} {previous : Option Str} {event : Dict} {line : Bytes} (made : build previous = .ok event)
      (encoded : encodeEvent host event = .ok line) :
      Steps host name build actor disk (.read inode previous) disk (.built inode event line)
  | writes {inode : Nat} {event : Dict} {line : Bytes} :
      Steps host name build actor disk (.built inode event line) (disk.write inode (line ++ [10]))
        (.written inode event line)
  | returns {inode : Nat} {event : Dict} {line : Bytes} :
      Steps host name build actor disk (.written inode event line) (disk.unlock inode) (.returned event line)
  | fails {call : Append} {inode : Nat} (raised : PyError) (held : holds call = some inode) :
      Steps host name build actor disk call disk (.failing inode raised)
  | unlocks {inode : Nat} {raised : PyError} :
      Steps host name build actor disk (.failing inode raised) (disk.unlock inode)
        (.raised (cannotAppend name raised))
  | stops {call : Append} (raised : PyError) (free : holds call = none) :
      Steps host name build actor disk call disk (.raised raised)

theorem steps_of_appendStep (taken : appendStep host name build actor error disk call = some (after, next)) :
    Steps host name build actor disk call after next := by
  cases call with
  | ready =>
    cases error with
    | none =>
      cases taken
      exact .opens
    | some text =>
      cases taken
      exact .stops _ rfl
  | opened inode =>
    cases error with
    | none =>
      simp only [appendStep] at taken
      split_ifs at taken with free
      cases taken
      exact .locks free
    | some text =>
      cases taken
      exact .stops _ rfl
  | locked inode =>
    cases error with
    | none =>
      cases found : readLastEventHash host (shown name) (disk.inodes inode) with
      | ok previous =>
        simp only [appendStep, found] at taken
        cases taken
        exact .reads found
      | error raised =>
        simp only [appendStep, found] at taken
        cases taken
        exact .fails raised rfl
    | some text =>
      cases taken
      exact .fails _ rfl
  | read inode previous =>
    cases made : buildLine host build previous with
    | ok built =>
      simp only [appendStep, made] at taken
      cases taken
      simp only [buildLine, bind_eq_ok, pure, Except.pure, Except.ok.injEq] at made
      obtain ⟨event, made, line, encoded, rfl⟩ := made
      exact .builds made encoded
    | error raised =>
      simp only [appendStep, made] at taken
      cases taken
      exact .fails raised rfl
  | built inode event line =>
    cases error with
    | none =>
      cases taken
      exact .writes
    | some text =>
      cases taken
      exact .fails _ rfl
  | written inode event line =>
    cases error with
    | none =>
      cases taken
      exact .returns
    | some text =>
      cases taken
      exact .fails _ rfl
  | failing inode raised =>
    cases taken
    exact .unlocks
  | returned event line => cases taken
  | raised raised => cases taken

theorem Steps.of_written {inode : Nat} {event : Dict} {line : Bytes}
    (steps : Steps host name build actor disk call after (.written inode event line)) :
    call = .built inode event line := by
  cases steps with
  | writes => rfl

/-- A step of a call whose locks are its own leaves the others' files alone. -/
theorem Steps.frames (steps : Steps host name build actor disk call after next)
    (ok : CallOk host name build actor disk call) : Frames actor disk after := by
  have unlocked : ∀ inode, disk.locks inode = some actor → Frames actor disk (disk.unlock inode) := by
    intro inode mine
    refine ⟨le_rfl, fun other holder _ differ locked => ⟨?_, rfl⟩⟩
    have apart : other ≠ inode := by
      rintro rfl
      exact differ (Option.some.inj (locked.symm.trans mine))
    simpa [Disk.unlock, apart] using locked
  cases steps with
  | opens =>
    unfold Disk.openAppend
    cases disk.inode name with
    | some inode => exact ⟨le_rfl, fun _ _ _ _ locked => ⟨locked, rfl⟩⟩
    | none =>
      refine ⟨Nat.le_succ _, fun inode holder bound _ locked => ?_⟩
      have apart : inode ≠ disk.next := Nat.ne_of_lt bound
      simpa [Disk.create, apart] using locked
  | @locks inode free =>
    refine ⟨le_rfl, fun other holder _ _ locked => ⟨?_, rfl⟩⟩
    have apart : other ≠ inode := by
      rintro rfl
      rw [free] at locked
      cases locked
    simpa [Disk.lock, apart] using locked
  | @writes inode event line =>
    refine ⟨le_rfl, fun other holder _ differ locked => ⟨locked, ?_⟩⟩
    have apart : other ≠ inode := by
      rintro rfl
      exact differ (Option.some.inj (locked.symm.trans (ok.locked other rfl)))
    simp [Disk.write, apart]
  | @returns inode event line => exact unlocked inode (ok.locked inode rfl)
  | @unlocks inode raised => exact unlocked inode (ok.locked inode rfl)
  | reads | builds | fails | stops => exact ⟨le_rfl, fun _ _ _ _ locked => ⟨locked, rfl⟩⟩

/-- A call goes on from what it has read. -/
theorem Steps.ok (steps : Steps host name build actor disk call after next)
    (ok : CallOk host name build actor disk call) : CallOk host name build actor after next := by
  cases steps with
  | opens => exact ⟨fun _ held => (by cases held), trivial⟩
  | @locks inode free =>
    refine ⟨fun other held => ?_, trivial⟩
    cases held
    simp [Disk.lock]
  | reads found => exact ⟨fun other held => ok.locked other held, found⟩
  | builds made encoded => exact ⟨fun other held => ok.locked other held, _, ok.progress, made, encoded⟩
  | writes => exact ⟨fun other held => ok.locked other held, trivial⟩
  | fails raised held =>
    refine ⟨fun other same => ?_, trivial⟩
    cases same
    exact ok.locked _ held
  | returns | unlocks | stops => exact ⟨fun _ held => (by cases held), trivial⟩

/-- What another actor does leaves a call as it is. -/
theorem CallOk.frame {other : Actor} (ok : CallOk host name build actor disk call) (frames : Frames other disk after)
    (differ : actor ≠ other) (bounded : ∀ inode, handle call = some inode → inode < disk.next) :
    CallOk host name build actor after call := by
  have same : ∀ inode, holds call = some inode →
      after.locks inode = some actor ∧ after.inodes inode = disk.inodes inode := by
    intro inode held
    exact frames.apart inode actor (bounded inode (handle_of_holds held)) differ (ok.locked inode held)
  refine ⟨fun inode held => (same inode held).1, ?_⟩
  cases call with
  | read inode previous =>
    change readLastEventHash host (shown name) (after.inodes inode) = .ok previous
    rw [(same inode rfl).2]
    exact ok.progress
  | built inode event line =>
    obtain ⟨previous, found, built⟩ := ok.progress
    refine ⟨previous, ?_, built⟩
    rwa [(same inode rfl).2]
  | _ => trivial

end Calls

/-! ## Files -/

/-- No file has two names, and the files named are among those there are. -/
structure Tidy (disk : Disk) : Prop where
  injective : ∀ name other inode, disk.inode name = some inode → disk.inode other = some inode → name = other
  bounded : ∀ name inode, disk.inode name = some inode → inode < disk.next

section Files

variable {disk : Disk} {name source target : Str} {inode : Nat}

theorem Tidy.create (tidy : Tidy disk) (name : Str) : Tidy (disk.create name) where
  injective first other inode found foundOther := by
    rw [Disk.inode_create] at found foundOther
    split_ifs at found foundOther with isFirst isOther isOther
    · rw [isFirst, isOther]
    · have bound := tidy.bounded other inode foundOther
      have same := Option.some.inj found
      omega
    · have bound := tidy.bounded first inode found
      have same := Option.some.inj foundOther
      omega
    · exact tidy.injective first other inode found foundOther
  bounded other inode found := by
    rw [Disk.inode_create] at found
    change inode < disk.next + 1
    split_ifs at found with isName
    · have same := Option.some.inj found
      omega
    · exact Nat.lt_succ_of_lt (tidy.bounded other inode found)

theorem Tidy.replace (tidy : Tidy disk) (there : disk.inode source = some inode) :
    Tidy (disk.replace source target inode) where
  injective first other number found foundOther := by
    rw [Disk.inode_replace] at found foundOther
    split_ifs at found foundOther with gone isFirst goneOther isOther goneOther isOther
    · rw [isFirst, isOther]
    · cases found
      exact absurd (tidy.injective other source _ foundOther there) goneOther
    · cases foundOther
      exact absurd (tidy.injective first source _ found there) gone
    · exact tidy.injective first other number found foundOther
  bounded other number found := by
    rw [Disk.inode_replace] at found
    split_ifs at found with gone moved
    · cases found
      exact tidy.bounded source _ there
    · exact tidy.bounded other number found

theorem Tidy.openAppend (tidy : Tidy disk) (name : Str) : Tidy (disk.openAppend name).1 := by
  unfold Disk.openAppend
  cases found : disk.inode name with
  | some inode => exact tidy
  | none => exact tidy.create name

theorem file_create (tidy : Tidy disk) (name other : Str) :
    (disk.create name).world.file other = if other = name then some [] else disk.world.file other := by
  rw [Disk.file_world, Disk.inode_create]
  split_ifs with same
  · simp [Disk.create]
  · rw [Disk.file_world]
    cases found : disk.inode other with
    | none => rfl
    | some inode =>
      have apart : inode ≠ disk.next := Nat.ne_of_lt (tidy.bounded other inode found)
      simp [Disk.create, apart]

/-- Opening a file for an append creates it. -/
theorem file_openAppend (tidy : Tidy disk) (name other : Str) :
    (disk.openAppend name).1.world.file other =
      if other = name then some ((disk.world.file name).getD []) else disk.world.file other := by
  unfold Disk.openAppend
  cases found : disk.inode name with
  | some inode =>
    split_ifs with same
    · rw [same, Disk.file_world, found]
      rfl
    · rfl
  | none =>
    have missing : disk.world.file name = none := by
      rw [Disk.file_world, found]
      rfl
    rw [file_create tidy, missing]
    rfl

theorem inode_openAppend (disk : Disk) (name : Str) :
    (disk.openAppend name).1.inode name = some (disk.openAppend name).2 := by
  unfold Disk.openAppend
  cases found : disk.inode name with
  | some inode => exact found
  | none =>
    rw [Disk.inode_create, if_pos rfl]

theorem file_write (disk : Disk) (inode : Nat) (bytes : Bytes) (name : Str) :
    (disk.write inode bytes).world.file name =
      if disk.inode name = some inode then some (disk.inodes inode ++ bytes) else disk.world.file name := by
  rw [Disk.file_world, Disk.file_world]
  change (disk.inode name).map (Function.update disk.inodes inode (disk.inodes inode ++ bytes)) = _
  cases found : disk.inode name with
  | none => rfl
  | some other =>
    by_cases same : other = inode
    · subst same
      simp
    · simp [same]

theorem file_replace (disk : Disk) (source target other : Str) (inode : Nat) :
    (disk.replace source target inode).world.file other =
      if other = source then none
      else if other = target then some (disk.inodes inode) else disk.world.file other := by
  rw [Disk.file_world, Disk.inode_replace]
  split_ifs
  · rfl
  · rfl
  · rw [Disk.file_world]
    rfl

end Files

/-! ## Chains of files -/

/-- The files linked from a name, all of them different. -/
structure Standing (host : Host) (trusted : Keyring) (disk : Disk) (first : Str) (events : List Dict)
    (names : List Str) : Prop where
  chain : Chain host trusted disk.world first events names
  distinct : (first :: names).Nodup

/-- A builder of finalized records, whatever it is built on. -/
def Honest (host : Host) (trusted : Keyring) (build : Option Str → Except PyError Dict) : Prop :=
  ∀ events, Makes host trusted events build

section Standing

variable {host : Host} {trusted : Keyring} {disk after : Disk} {first : Str} {events : List Dict}
  {names : List Str} {build : Option Str → Except PyError Dict} {name : Str} {inode : Nat} {event : Dict}
  {line : Bytes}

theorem Standing.frame (standing : Standing host trusted disk first events names)
    (same : ∀ name ∈ first :: names, after.world.file name = disk.world.file name) :
    Standing host trusted after first events names :=
  ⟨standing.chain.frame same, standing.distinct⟩

theorem Standing.opened (standing : Standing host trusted disk first events names) (tidy : Tidy disk) :
    Standing host trusted (disk.openAppend first).1 first events names where
  chain := by
    apply standing.chain.rename
    · rw [file_openAppend tidy, if_pos rfl]
    · intro file member
      have other : file ≠ first := fun same => (List.nodup_cons.mp standing.distinct).1 (same ▸ member)
      rw [file_openAppend tidy, if_neg other]
  distinct := standing.distinct

/-- An event that a call has built on the end of a kept file can be written there. -/
theorem kept_progress {content : Bytes} {previous : Option Str} (kept : Kept host trusted content events)
    (honest : Honest host trusted build) (found : readLastEventHash host (shown name) content = .ok previous)
    (made : build previous = .ok event) (encoded : encodeEvent host event = .ok line) :
    Kept host trusted (content ++ (line ++ [10])) (events ++ [event]) ∧ isArchive event = false := by
  have returned : appendEvent host (shown name) (some content) build =
      .ok ⟨content ++ (line ++ [10]), event, previous⟩ :=
    appendBuilt_eq_ok.mpr ⟨line, found, made, encoded, rfl⟩
  exact kept_of_makes kept (.event build _ (honest events) returned)

/-- Its line is then the end of the file. -/
theorem readable_progress {content : Bytes} {previous : Option Str} (kept : Kept host trusted content events)
    (honest : Honest host trusted build) (found : readLastEventHash host (shown name) content = .ok previous)
    (made : build previous = .ok event) (encoded : encodeEvent host event = .ok line) :
    ∃ hash, ∀ label, readLastEventHash host label (content ++ (line ++ [10])) = .ok (some hash) := by
  obtain ⟨longer, -⟩ := kept_progress kept honest found made encoded
  have last : event ∈ events ++ [event] := by simp
  obtain ⟨hash, stored⟩ := hashed_of_clean longer.valid.clean event last
  refine ⟨hash, fun label => ?_⟩
  apply readLastEventHash_written label kept.whole (dictOk_of_decoded longer.valid.decoded event last) encoded
  · simp [isLineEnd]
  · unfold Python.Value.get at stored
    cases present : Members.get event (lit "event_hash") with
    | none => simp [present] at stored
    | some value => simpa [present] using stored

/-- A write of such an event keeps a chain in which the file is no predecessor. -/
theorem Standing.write {previous : Option Str} (standing : Standing host trusted disk first events names)
    (apart : ∀ prior ∈ names, disk.inode prior ≠ some inode) (honest : Honest host trusted build)
    (found : readLastEventHash host (shown name) (disk.inodes inode) = .ok previous)
    (made : build previous = .ok event) (encoded : encodeEvent host event = .ok line) :
    ∃ events, Standing host trusted (disk.write inode (line ++ [10])) first events names := by
  have others : ∀ prior ∈ names, (disk.write inode (line ++ [10])).world.file prior = disk.world.file prior := by
    intro prior member
    rw [file_write, if_neg (apart prior member)]
  by_cases here : disk.inode first = some inode
  · have kept := standing.chain.kept
    rw [Disk.file_world, here, Option.map_some, Option.getD_some] at kept
    obtain ⟨longer, record⟩ := kept_progress kept honest found made encoded
    refine ⟨events ++ [event], standing.chain.append ?_ record others, standing.distinct⟩
    rwa [file_write, if_pos here, Option.getD_some]
  · refine ⟨events, standing.frame ?_⟩
    intro file member
    rw [file_write]
    rcases List.mem_cons.mp member with rfl | prior
    · rw [if_neg here]
    · rw [if_neg (apart file prior)]

end Standing

/-! ## The invariant -/

/-- The end of a file can be read. -/
def Readable (host : Host) (disk : Disk) (name : Str) : Prop :=
  ∀ inode, disk.inode name = some inode → ∃ previous, ∀ label,
    readLastEventHash host label (disk.inodes inode) = .ok previous

/-- The file that the archive has written a link to. -/
def linkTo : Archive → Option Str
  | .appending _ archived (.written _ _ _) => some archived
  | .returned archived _ _ => some archived
  | _ => none

structure StatsOk (host : Host) (disk : Disk) (name : Str) (call : Stats) : Prop where
  opened : ∀ inode, call = .opened inode ∨ call = .locked inode → disk.inode name = some inode
  locked : ∀ inode, call = .locked inode → disk.locks inode = some .archive
  counted : ∀ stats, call = .done (.ok stats) → (disk.inode name).isSome = true ∧ Readable host disk name
  failed : ∀ error, call = .done (.error error) →
    isJournalError error = true ∨ (disk.inode name).isSome = true

section Stages

variable (setup : Setup) (trusted : Keyring) (prior : List Str) (disk : Disk)

/-- The journal stands over its predecessors. -/
def Live : Prop := ∃ events, Standing setup.host trusted disk setup.journal events prior

/-- The journal has been renamed. -/
structure Behind (archived : Str) : Prop where
  standing : ∃ events, Standing setup.host trusted disk archived events prior
  there : (disk.inode archived).isSome = true
  apart : setup.journal ∉ archived :: prior

/-- The new journal begins with a link to the file archived. -/
structure Linked (archived : Str) : Prop where
  standing : ∃ events, Standing setup.host trusted disk setup.journal events (archived :: prior)
  there : (disk.inode setup.journal).isSome = true

/-- The files at each stage of the archive, beside some appenders. -/
inductive Stage (appends : Nat → Append) : Archive → Prop
  | counting {call : Stats} (live : Live setup trusted prior disk) (stats : StatsOk setup.host disk setup.journal call) :
      Stage appends (.counting call)
  | claiming {stats : Nat × Option Str} (live : Live setup trusted prior disk) (positive : stats.1 ≠ 0)
      (there : (disk.inode setup.journal).isSome = true) (readable : Readable setup.host disk setup.journal) :
      Stage appends (.claiming stats)
  | moving {stats : Nat × Option Str} {archived : Str} (live : Live setup trusted prior disk) (positive : stats.1 ≠ 0)
      (there : (disk.inode setup.journal).isSome = true) (readable : Readable setup.host disk setup.journal)
      (name : ArchiveName setup.journal prior archived)
      (claimed : ∃ inode, disk.inode archived = some inode ∧ disk.inodes inode = [] ∧
        ∀ n, handle (appends n) ≠ some inode) :
      Stage appends (.moving stats archived)
  | settling {stats : Nat × Option Str} {archived : Str} {call : Stats}
      (behind : Behind setup trusted prior disk archived) (positive : stats.1 ≠ 0)
      (bare : notBareName archived = false) (readable : Readable setup.host disk archived)
      (again : StatsOk setup.host disk archived call)
      (failed : ∀ error, call = .done (.error error) → isJournalError error = true) :
      Stage appends (.settling stats archived call)
  | checking {archived : Str} {reason : Option PyError} (behind : Behind setup trusted prior disk archived) :
      Stage appends (.checking archived reason)
  | restoring {archived : Str} {reason : Option PyError} (behind : Behind setup trusted prior disk archived) :
      Stage appends (.restoring archived reason)
  | appending {stats : Nat × Option Str} {archived : Str} {call : Append}
      (behind : Behind setup trusted prior disk archived) (positive : stats.1 ≠ 0)
      (bare : notBareName archived = false)
      (ok : CallOk setup.host setup.journal (setup.build stats archived) .archive disk call)
      (here : ∀ inode, handle call = some inode → disk.inode setup.journal = some inode)
      (unwritten : linkTo (.appending stats archived call) = none) : Stage appends (.appending stats archived call)
  | linked {stats : Nat × Option Str} {archived : Str} {inode : Nat} {event : Dict} {line : Bytes}
      (linked : Linked setup trusted prior disk archived) (locked : disk.locks inode = some .archive)
      (bound : inode < disk.next) : Stage appends (.appending stats archived (.written inode event line))
  | failing {stats : Nat × Option Str} {archived : Str} {inode : Nat} {error : PyError}
      (locked : disk.locks inode = some .archive) (bound : inode < disk.next) :
      Stage appends (.appending stats archived (.failing inode error))
  | returned {archived : Str} {event : Dict} {line : Bytes} (linked : Linked setup trusted prior disk archived) :
      Stage appends (.returned archived event line)
  | raised {error : PyError} (outcome : (∃ text, error = .archiveError text) ∨
      (Live setup trusted prior disk ∧ (disk.inode setup.journal).isSome = true)) : Stage appends (.raised error)

/-- What holds in every state of a run. -/
structure Sound (state : State) : Prop where
  tidy : Tidy state.disk
  apart : setup.journal ∉ prior
  opened : ∀ n inode, handle (state.appends n) = some inode → inode < state.disk.next ∧
    (∃ events, Kept setup.host trusted (state.disk.inodes inode) events) ∧
    ∀ name ∈ prior, state.disk.inode name ≠ some inode
  calls : ∀ n, CallOk setup.host setup.journal (setup.builds n) (.appender n) state.disk (state.appends n)
  live : ∀ inode, state.disk.inode setup.journal = some inode →
    ∃ events, Kept setup.host trusted (state.disk.inodes inode) events
  stage : Stage setup trusted prior state.disk state.appends state.archive

end Stages

/-! ## Steps that write nothing -/

/-- The names and contents stay, but for a name that is created. -/
structure Opens (name : Str) (disk after : Disk) : Prop where
  next : disk.next ≤ after.next
  others : ∀ other, other ≠ name → after.inode other = disk.inode other
  name : after.inode name = disk.inode name ∨
    (disk.inode name = none ∧ after.inode name = some disk.next ∧ after.inodes disk.next = [])
  contents : ∀ inode, inode < disk.next → after.inodes inode = disk.inodes inode

section Opens

variable {host : Host} {trusted : Keyring} {disk after : Disk} {name first : Str} {events : List Dict}
  {names : List Str}

theorem opens_same {locks : Nat → Option Actor} : Opens name disk { disk with locks := locks } :=
  ⟨le_rfl, fun _ _ => rfl, .inl rfl, fun _ _ => rfl⟩

theorem opens_lock {actor : Actor} {inode : Nat} : Opens name disk (disk.lock actor inode) := opens_same

theorem opens_unlock {inode : Nat} : Opens name disk (disk.unlock inode) := opens_same

theorem opens_openAppend : Opens name disk (disk.openAppend name).1 := by
  unfold Disk.openAppend
  cases found : disk.inode name with
  | some inode => exact ⟨le_rfl, fun _ _ => rfl, .inl rfl, fun _ _ => rfl⟩
  | none =>
    refine ⟨Nat.le_succ _, ?_, .inr ⟨found, ?_, ?_⟩, ?_⟩
    · intro other differ
      rw [Disk.inode_create, if_neg differ]
    · rw [Disk.inode_create, if_pos rfl]
    · simp [Disk.create]
    · intro inode bound
      simp [Disk.create, Nat.ne_of_lt bound]

theorem Opens.stays (opens : Opens name disk after) {other : Str} {inode : Nat} (found : disk.inode other = some inode) :
    after.inode other = some inode := by
  by_cases same : other = name
  · subst same
    obtain kept | ⟨missing, _⟩ := opens.name
    · exact kept.trans found
    · rw [missing] at found
      cases found
  · exact (opens.others other same).trans found

theorem Opens.isSome (opens : Opens name disk after) {other : Str} (there : (disk.inode other).isSome = true) :
    (after.inode other).isSome = true := by
  obtain ⟨inode, found⟩ := Option.isSome_iff_exists.mp there
  rw [opens.stays found]
  rfl

theorem Opens.file (opens : Opens name disk after) (tidy : Tidy disk) {other : Str} (differ : other ≠ name) :
    after.world.file other = disk.world.file other := by
  rw [Disk.file_world, Disk.file_world, opens.others other differ]
  cases found : disk.inode other with
  | none => rfl
  | some inode => rw [Option.map_some, Option.map_some, opens.contents inode (tidy.bounded other inode found)]

theorem Opens.content (opens : Opens name disk after) (tidy : Tidy disk) :
    after.world.file name = disk.world.file name ∨
      after.world.file name = some ((disk.world.file name).getD []) := by
  rw [Disk.file_world, Disk.file_world]
  obtain kept | ⟨missing, created, empty⟩ := opens.name
  · left
    rw [kept]
    cases found : disk.inode name with
    | none => rfl
    | some inode => rw [Option.map_some, Option.map_some, opens.contents inode (tidy.bounded name inode found)]
  · right
    rw [created, missing, Option.map_some, empty]
    rfl

/-- A chain stands when its first file, or one outside it, is created. -/
theorem Opens.standing (opens : Opens name disk after) (tidy : Tidy disk)
    (standing : Standing host trusted disk first events names) (apart : name ∉ names) :
    Standing host trusted after first events names := by
  have others : ∀ file ∈ names, after.world.file file = disk.world.file file := by
    intro file member
    exact opens.file tidy (fun same => apart (same ▸ member))
  by_cases same : first = name
  · subst same
    obtain kept | created := opens.content tidy
    · exact standing.frame (List.forall_mem_cons.mpr ⟨kept, others⟩)
    · exact ⟨standing.chain.rename created others, standing.distinct⟩
  · exact standing.frame (List.forall_mem_cons.mpr ⟨opens.file tidy same, others⟩)

theorem Opens.readable (opens : Opens name disk after) (tidy : Tidy disk) {other : Str}
    (readable : Readable host disk other) (there : (disk.inode other).isSome = true) : Readable host after other := by
  intro inode found
  obtain ⟨number, before⟩ := Option.isSome_iff_exists.mp there
  have same := (opens.stays before).symm.trans found
  cases same
  rw [opens.contents inode (tidy.bounded other inode before)]
  exact readable inode before


theorem StatsOk.opens (opens : Opens name disk after) (tidy : Tidy disk) {actor : Actor}
    (frames : Frames actor disk after) (differ : actor ≠ .archive) {other : Str} {call : Stats}
    (ok : StatsOk host disk other call) : StatsOk host after other call where
  opened inode at_ := opens.stays (ok.opened inode at_)
  locked inode at_ := by
    have bound := tidy.bounded other inode (ok.opened inode (.inr at_))
    exact (frames.apart inode .archive bound (Ne.symm differ) (ok.locked inode at_)).1
  counted stats at_ := by
    obtain ⟨there, readable⟩ := ok.counted stats at_
    exact ⟨opens.isSome there, opens.readable tidy readable there⟩
  failed error at_ := (ok.failed error at_).imp_right opens.isSome

end Opens

section Stage

variable {setup : Setup} {trusted : Keyring} {prior : List Str} {disk after : Disk} {appends more : Nat → Append}
  {archive : Archive} {archived : Str} {n : Nat}

theorem Live.opens (live : Live setup trusted prior disk) (opens : Opens setup.journal disk after) (tidy : Tidy disk)
    (apart : setup.journal ∉ prior) : Live setup trusted prior after := by
  obtain ⟨events, standing⟩ := live
  exact ⟨events, opens.standing tidy standing apart⟩

theorem Behind.opens (behind : Behind setup trusted prior disk archived) (opens : Opens setup.journal disk after)
    (tidy : Tidy disk) : Behind setup trusted prior after archived := by
  obtain ⟨⟨events, standing⟩, there, apart⟩ := behind
  have notPrior : setup.journal ∉ prior := fun member => apart (List.mem_cons_of_mem archived member)
  exact ⟨⟨events, opens.standing tidy standing notPrior⟩, opens.isSome there, apart⟩

theorem Linked.opens (linked : Linked setup trusted prior disk archived) (opens : Opens setup.journal disk after)
    (tidy : Tidy disk) : Linked setup trusted prior after archived := by
  obtain ⟨⟨events, standing⟩, there⟩ := linked
  exact ⟨⟨events, opens.standing tidy standing (List.nodup_cons.mp standing.distinct).1⟩, opens.isSome there⟩

/-- A step of an appender that writes nothing keeps the stage of the archive. -/
theorem Stage.opens (stage : Stage setup trusted prior disk appends archive) (opens : Opens setup.journal disk after)
    (frames : Frames (.appender n) disk after) (tidy : Tidy disk) (tidyAfter : Tidy after)
    (apart : setup.journal ∉ prior)
    (handles : ∀ m inode, handle (more m) = some inode →
      handle (appends m) = some inode ∨ after.inode setup.journal = some inode) :
    Stage setup trusted prior after more archive := by
  have differ : Actor.appender n ≠ .archive := by simp
  cases stage with
  | counting live stats => exact .counting (live.opens opens tidy apart) (stats.opens opens tidy frames differ)
  | claiming live positive there readable =>
    exact .claiming (live.opens opens tidy apart) positive (opens.isSome there) (opens.readable tidy readable there)
  | @moving stats archived live positive there readable name claimed =>
    refine .moving (live.opens opens tidy apart) positive (opens.isSome there)
      (opens.readable tidy readable there) name ?_
    obtain ⟨inode, found, empty, unused⟩ := claimed
    refine ⟨inode, opens.stays found, ?_, ?_⟩
    · rw [opens.contents inode (tidy.bounded archived inode found), empty]
    · intro m held
      obtain before | live := handles m inode held
      · exact unused m before
      · have same := tidyAfter.injective _ _ _ live (opens.stays found)
        exact name.fresh (same ▸ List.mem_cons_self)
  | settling behind positive bare readable again failed =>
    exact .settling (behind.opens opens tidy) positive bare (opens.readable tidy readable behind.there)
      (again.opens opens tidy frames differ) failed
  | checking behind => exact .checking (behind.opens opens tidy)
  | restoring behind => exact .restoring (behind.opens opens tidy)
  | appending behind positive bare ok here unwritten =>
    refine .appending (behind.opens opens tidy) positive bare (ok.frame frames (Ne.symm differ) ?_) ?_ unwritten
    · exact fun inode held => tidy.bounded _ inode (here inode held)
    · exact fun inode held => opens.stays (here inode held)
  | linked linked locked bound =>
    exact .linked (linked.opens opens tidy) (frames.apart _ _ bound (Ne.symm differ) locked).1
      (Nat.lt_of_lt_of_le bound opens.next)
  | failing locked bound =>
    exact .failing (frames.apart _ _ bound (Ne.symm differ) locked).1 (Nat.lt_of_lt_of_le bound opens.next)
  | returned linked => exact .returned (linked.opens opens tidy)
  | raised outcome =>
    apply Stage.raised
    obtain text | ⟨live, there⟩ := outcome
    · exact .inl text
    · exact .inr ⟨live.opens opens tidy apart, opens.isSome there⟩

/-- An event that an appender has built is written to the file it has open. -/
structure Writes (setup : Setup) (trusted : Keyring) (prior : List Str) (disk : Disk) (n inode : Nat)
    (line : Bytes) : Prop where
  kept : ∃ events, Kept setup.host trusted (disk.inodes inode) events
  outside : ∀ name ∈ prior, disk.inode name ≠ some inode
  bound : inode < disk.next
  frames : Frames (.appender n) disk (disk.write inode (line ++ [10]))
  built : ∃ previous event, readLastEventHash setup.host (shown setup.journal) (disk.inodes inode) = .ok previous ∧
    setup.builds n previous = .ok event ∧ encodeEvent setup.host event = .ok line

section Writes

variable {inode : Nat} {line : Bytes}

theorem Writes.kept_after (writes : Writes setup trusted prior disk n inode line)
    (honest : Honest setup.host trusted (setup.builds n)) {other : Nat}
    (before : ∃ events, Kept setup.host trusted (disk.inodes other) events) :
    ∃ events, Kept setup.host trusted ((disk.write inode (line ++ [10])).inodes other) events := by
  by_cases same : other = inode
  · subst same
    obtain ⟨events, kept⟩ := before
    obtain ⟨previous, event, found, made, encoded⟩ := writes.built
    refine ⟨events ++ [event], ?_⟩
    simpa [Disk.write] using (kept_progress kept honest found made encoded).1
  · simpa [Disk.write, same] using before

theorem Writes.standing (writes : Writes setup trusted prior disk n inode line)
    (honest : Honest setup.host trusted (setup.builds n)) {first : Str} {events : List Dict} {names : List Str}
    (standing : Standing setup.host trusted disk first events names)
    (apart : ∀ name ∈ names, disk.inode name ≠ some inode) :
    ∃ events, Standing setup.host trusted (disk.write inode (line ++ [10])) first events names := by
  obtain ⟨previous, event, found, made, encoded⟩ := writes.built
  exact standing.write apart honest found made encoded

theorem Writes.readable (writes : Writes setup trusted prior disk n inode line)
    (honest : Honest setup.host trusted (setup.builds n)) {name : Str}
    (readable : Readable setup.host disk name) :
    Readable setup.host (disk.write inode (line ++ [10])) name := by
  intro other found
  by_cases same : other = inode
  · subst same
    obtain ⟨events, kept⟩ := writes.kept
    obtain ⟨previous, event, tail, made, encoded⟩ := writes.built
    obtain ⟨hash, again⟩ := readable_progress kept honest tail made encoded
    refine ⟨some hash, fun label => ?_⟩
    simpa [Disk.write] using again label
  · simpa [Disk.write, same] using readable other found

theorem Writes.stats (writes : Writes setup trusted prior disk n inode line)
    (honest : Honest setup.host trusted (setup.builds n)) {name : Str} {call : Stats}
    (ok : StatsOk setup.host disk name call) : StatsOk setup.host (disk.write inode (line ++ [10])) name call where
  opened := ok.opened
  locked := ok.locked
  counted stats at_ := (ok.counted stats at_).imp_right (writes.readable honest)
  failed := ok.failed

/-- A write keeps the stage of the archive, unless it is to the file archived once the link
to it is written. -/
theorem Stage.write (stage : Stage setup trusted prior disk appends archive)
    (writes : Writes setup trusted prior disk n inode line)
    (honest : Honest setup.host trusted (setup.builds n)) (tidy : Tidy disk)
    (opened : handle (appends n) = some inode)
    (handles : ∀ m other, handle (more m) = some other → handle (appends m) = some other)
    (settled : ∀ name, linkTo archive = some name → disk.inode name ≠ some inode) :
    Stage setup trusted prior (disk.write inode (line ++ [10])) more archive := by
  have differ : Actor.archive ≠ .appender n := by simp
  have live : Live setup trusted prior disk → Live setup trusted prior (disk.write inode (line ++ [10])) := by
    rintro ⟨events, standing⟩
    exact writes.standing honest standing writes.outside
  have behind : ∀ {name}, Behind setup trusted prior disk name →
      Behind setup trusted prior (disk.write inode (line ++ [10])) name := by
    rintro name ⟨⟨events, standing⟩, there, apart⟩
    exact ⟨writes.standing honest standing writes.outside, there, apart⟩
  have linked : ∀ {name}, Linked setup trusted prior disk name → disk.inode name ≠ some inode →
      Linked setup trusted prior (disk.write inode (line ++ [10])) name := by
    rintro name ⟨⟨events, standing⟩, there⟩ apart
    refine ⟨writes.standing honest standing ?_, there⟩
    exact List.forall_mem_cons.mpr ⟨apart, writes.outside⟩
  cases stage with
  | counting alive stats => exact .counting (live alive) (writes.stats honest stats)
  | claiming alive positive there readable =>
    exact .claiming (live alive) positive there (writes.readable honest readable)
  | moving alive positive there readable name claimed =>
    refine .moving (live alive) positive there (writes.readable honest readable) name ?_
    obtain ⟨other, found, empty, unused⟩ := claimed
    have apart : other ≠ inode := by
      rintro rfl
      exact unused n opened
    refine ⟨other, found, ?_, fun m held => unused m (handles m other held)⟩
    simpa [Disk.write, apart] using empty
  | settling standing positive bare readable again failed =>
    exact .settling (behind standing) positive bare (writes.readable honest readable) (writes.stats honest again) failed
  | checking standing => exact .checking (behind standing)
  | restoring standing => exact .restoring (behind standing)
  | appending standing positive bare ok here unwritten =>
    refine .appending (behind standing) positive bare (ok.frame writes.frames differ ?_) here unwritten
    exact fun other held => tidy.bounded _ other (here other held)
  | linked standing locked bound => exact .linked (linked standing (settled _ rfl)) locked bound
  | failing locked bound => exact .failing locked bound
  | returned standing => exact .returned (linked standing (settled _ rfl))
  | raised outcome =>
    apply Stage.raised
    exact outcome.imp_right (fun still => ⟨live still.1, still.2⟩)

end Writes

end Stage

/-! ## Steps of an appender -/

section Appender

variable {setup : Setup} {trusted : Keyring} {prior : List Str} {state : State} {after : Disk} {next : Append}
  {n : Nat} {error : Option String}

/-- A step opens a file at most, or writes the line built. -/
theorem Steps.cases {host : Host} {name : Str} {build : Option Str → Except PyError Dict} {actor : Actor}
    {disk : Disk} {call : Append} (steps : Steps host name build actor disk call after next) (tidy : Tidy disk) :
    (Opens name disk after ∧ Tidy after ∧ ∀ inode, handle next = some inode →
        handle call = some inode ∨ after.inode name = some inode) ∨
      ∃ inode event line, call = .built inode event line ∧ after = disk.write inode (line ++ [10]) ∧
        next = .written inode event line := by
  cases steps with
  | opens =>
    refine .inl ⟨opens_openAppend, tidy.openAppend name, fun inode held => .inr ?_⟩
    rw [inode_openAppend]
    exact held
  | writes => exact .inr ⟨_, _, _, rfl, rfl, rfl⟩
  | locks => exact .inl ⟨opens_same, ⟨tidy.injective, tidy.bounded⟩, fun _ held => .inl held⟩
  | reads | builds => exact .inl ⟨opens_same, tidy, fun _ held => .inl held⟩
  | returns | unlocks => exact .inl ⟨opens_same, ⟨tidy.injective, tidy.bounded⟩, fun _ held => (by cases held)⟩
  | stops => exact .inl ⟨opens_same, tidy, fun _ held => (by cases held)⟩
  | fails raised held =>
    exact .inl ⟨opens_same, tidy, fun _ same => .inl ((handle_of_holds held).trans same)⟩

/-- The live file after a step is kept. -/
theorem Sound.live_opens (sound : Sound setup trusted prior state) (opens : Opens setup.journal state.disk after)
    {inode : Nat} (found : after.inode setup.journal = some inode) :
    ∃ events, Kept setup.host trusted (after.inodes inode) events := by
  obtain same | ⟨_, created, empty⟩ := opens.name
  · rw [same] at found
    rw [opens.contents inode (sound.tidy.bounded _ inode found)]
    exact sound.live inode found
  · have isNew := Option.some.inj (created.symm.trans found)
    rw [← isNew, empty]
    exact ⟨[], kept_nil _ _⟩

theorem update_appends {P : Nat → Append → Prop} {appends : Nat → Append} (here : P n next)
    (others : ∀ m, m ≠ n → P m (appends m)) : ∀ m, P m (Function.update appends n next m) := by
  intro m
  by_cases same : m = n
  · subst same
    simpa using here
  · simpa [same] using others m same

/-- The calls after a step of an appender. -/
theorem Sound.calls_append (sound : Sound setup trusted prior state)
    (frames : Frames (.appender n) state.disk after)
    (ok : CallOk setup.host setup.journal (setup.builds n) (.appender n) after next) :
    ∀ m, CallOk setup.host setup.journal (setup.builds m) (.appender m) after
      (Function.update state.appends n next m) := by
  apply update_appends (P := fun m call =>
    CallOk setup.host setup.journal (setup.builds m) (.appender m) after call) ok
  intro m differ
  apply (sound.calls m).frame frames
  · simpa using differ
  · exact fun inode held => (sound.opened m inode held).1

theorem Sound.append_opens (sound : Sound setup trusted prior state)
    (opens : Opens setup.journal state.disk after) (tidyAfter : Tidy after)
    (frames : Frames (.appender n) state.disk after)
    (ok : CallOk setup.host setup.journal (setup.builds n) (.appender n) after next)
    (handles : ∀ inode, handle next = some inode →
      handle (state.appends n) = some inode ∨ after.inode setup.journal = some inode) :
    Sound setup trusted prior { state with disk := after, appends := Function.update state.appends n next } := by
  have split : ∀ m inode, handle (Function.update state.appends n next m) = some inode →
      handle (state.appends m) = some inode ∨ after.inode setup.journal = some inode := by
    apply update_appends (P := fun m call => ∀ inode, handle call = some inode →
      handle (state.appends m) = some inode ∨ after.inode setup.journal = some inode) handles
    exact fun m _ inode held => .inl held
  refine ⟨tidyAfter, sound.apart, ?_, sound.calls_append frames ok, ?_, ?_⟩
  · intro m inode held
    obtain before | live := split m inode held
    · obtain ⟨bound, kept, outside⟩ := sound.opened m inode before
      refine ⟨Nat.lt_of_lt_of_le bound opens.next, ?_, ?_⟩
      · rw [opens.contents inode bound]
        exact kept
      · intro name member
        rw [opens.others name (fun same => sound.apart (same ▸ member))]
        exact outside name member
    · refine ⟨tidyAfter.bounded _ inode live, sound.live_opens opens live, ?_⟩
      intro name member found
      exact sound.apart (tidyAfter.injective _ _ _ found live ▸ member)
  · exact fun inode found => sound.live_opens opens found
  · exact sound.stage.opens opens frames sound.tidy tidyAfter sound.apart split

theorem Sound.append_writes (sound : Sound setup trusted prior state)
    (honest : Honest setup.host trusted (setup.builds n)) {inode : Nat} {event : Dict} {line : Bytes}
    (built : state.appends n = .built inode event line)
    (frames : Frames (.appender n) state.disk (state.disk.write inode (line ++ [10])))
    (ok : CallOk setup.host setup.journal (setup.builds n) (.appender n)
      (state.disk.write inode (line ++ [10])) (.written inode event line))
    (settled : ∀ name, linkTo state.archive = some name → state.disk.inode name ≠ some inode) :
    Sound setup trusted prior { state with
      disk := state.disk.write inode (line ++ [10])
      appends := Function.update state.appends n (.written inode event line) } := by
  have held : handle (state.appends n) = some inode := by rw [built]; rfl
  obtain ⟨bound, kept, outside⟩ := sound.opened n inode held
  have progress := (sound.calls n).progress
  rw [built] at progress
  obtain ⟨previous, found, made, encoded⟩ := progress
  have writes : Writes setup trusted prior state.disk n inode line :=
    ⟨kept, outside, bound, frames, previous, event, found, made, encoded⟩
  have handles : ∀ m other, handle (Function.update state.appends n (.written inode event line) m) = some other →
      handle (state.appends m) = some other := by
    apply update_appends (P := fun m call => ∀ other, handle call = some other →
      handle (state.appends m) = some other)
    · exact fun other same => held.trans same
    · exact fun m _ other same => same
  refine ⟨⟨sound.tidy.injective, sound.tidy.bounded⟩, sound.apart, ?_, sound.calls_append frames ok, ?_, ?_⟩
  · intro m other same
    obtain ⟨bound, kept, outside⟩ := sound.opened m other (handles m other same)
    exact ⟨bound, writes.kept_after honest kept, outside⟩
  · exact fun other same => writes.kept_after honest (sound.live other same)
  · exact sound.stage.write writes honest sound.tidy held handles settled

theorem Sound.append (sound : Sound setup trusted prior state)
    (honest : Honest setup.host trusted (setup.builds n))
    (taken : appendStep setup.host setup.journal (setup.builds n) (.appender n) error state.disk (state.appends n) =
      some (after, next))
    (settled : ∀ inode event line name, state.appends n = .built inode event line → next = .written inode event line →
      linkTo state.archive = some name → state.disk.inode name ≠ some inode) :
    Sound setup trusted prior { state with disk := after, appends := Function.update state.appends n next } := by
  have steps := steps_of_appendStep taken
  have frames := steps.frames (sound.calls n)
  have ok := steps.ok (sound.calls n)
  obtain ⟨opens, tidyAfter, handles⟩ | ⟨inode, event, line, built, rfl, rfl⟩ := steps.cases sound.tidy
  · exact sound.append_opens opens tidyAfter frames ok handles
  · exact sound.append_writes honest built frames ok (fun name => settled inode event line name built rfl)

end Appender

/-! ## Steps of the archive -/

section Archiver

variable {setup : Setup} {trusted : Keyring} {prior : List Str} {state : State} {disk after : Disk}
  {error : Option String} {name archived : Str}

/-- A step of the archive that moves no predecessor and empties no kept file. -/
theorem Sound.archive_of (sound : Sound setup trusted prior state) (frames : Frames .archive state.disk after)
    (tidyAfter : Tidy after) {next : Archive}
    (kept : ∀ inode < state.disk.next, (∃ events, Kept setup.host trusted (state.disk.inodes inode) events) →
      ∃ events, Kept setup.host trusted (after.inodes inode) events)
    (others : ∀ name ∈ prior, after.inode name = state.disk.inode name)
    (live : ∀ inode, after.inode setup.journal = some inode →
      ∃ events, Kept setup.host trusted (after.inodes inode) events)
    (stage : Stage setup trusted prior after state.appends next) :
    Sound setup trusted prior { state with disk := after, archive := next } := by
  refine ⟨tidyAfter, sound.apart, ?_, ?_, live, stage⟩
  · intro n inode held
    obtain ⟨bound, before, outside⟩ := sound.opened n inode held
    refine ⟨Nat.lt_of_lt_of_le bound frames.next, kept inode bound before, ?_⟩
    intro name member
    rw [others name member]
    exact outside name member
  · intro n
    apply (sound.calls n).frame frames (by simp)
    exact fun inode held => (sound.opened n inode held).1

/-- A step that opens or creates a file which is no predecessor. -/
theorem Sound.archive_opens (sound : Sound setup trusted prior state) (opens : Opens name state.disk after)
    (tidyAfter : Tidy after) (frames : Frames .archive state.disk after) (outside : name ∉ prior)
    (created : name = setup.journal ∨ name ≠ setup.journal) {next : Archive}
    (stage : Stage setup trusted prior after state.appends next) :
    Sound setup trusted prior { state with disk := after, archive := next } := by
  apply sound.archive_of frames tidyAfter _ _ _ stage
  · intro inode bound kept
    rw [opens.contents inode bound]
    exact kept
  · intro other member
    exact opens.others other (fun same => outside (same ▸ member))
  · intro inode found
    obtain rfl | differ := created
    · exact sound.live_opens opens found
    · rw [opens.others _ (Ne.symm differ)] at found
      rw [opens.contents inode (sound.tidy.bounded _ inode found)]
      exact sound.live inode found

theorem readLastEventHash_label {host : Host} {label : String} {content : Bytes} {previous : Option Str}
    (found : readLastEventHash host label content = .ok previous) (other : String) :
    readLastEventHash host other content = .ok previous := by
  rw [readLastEventHash_eq] at found ⊢
  split_ifs at found ⊢ with empty
  · exact found
  · cases line : eventHashFromLine host label (lastLine content) with
    | error raised => simp [line, Except.map] at found
    | ok hash =>
      rw [eventHashFromLine_eq_ok.mpr (eventHashFromLine_eq_ok.mp line)]
      simpa [line, Except.map] using found

/-- A file that has been counted can be read at its end. -/
theorem readable_of_stats {host : Host} {stats : Nat × Option Str} {inode : Nat}
    (found : disk.inode name = some inode)
    (counted : archiveStats host (shown name) (disk.inodes inode) = .ok stats) : Readable host disk name := by
  intro other same
  cases found.symm.trans same
  unfold archiveStats at counted
  split_ifs at counted with empty
  · refine ⟨none, fun label => ?_⟩
    simp [readLastEventHash, empty]
  · cases tail : readLastEventHash host (shown name) (disk.inodes inode) with
    | error raised => simp [tail, Except.map] at counted
    | ok previous => exact ⟨previous, readLastEventHash_label tail⟩

/-- A file that can be read can be counted. -/
theorem stats_of_readable {host : Host} {inode : Nat} (found : disk.inode name = some inode)
    (readable : Readable host disk name) :
    ∃ stats, archiveStats host (shown name) (disk.inodes inode) = .ok stats := by
  obtain ⟨previous, tail⟩ := readable inode found
  unfold archiveStats
  split_ifs
  · exact ⟨_, rfl⟩
  · exact ⟨_, by rw [tail]; rfl⟩

/-- A step of a count opens, locks or unlocks the file, and goes on from there. -/
theorem statsStep_ok {host : Host} {call next : Stats}
    (taken : statsStep host name error disk call = some (after, next)) (tidy : Tidy disk)
    (ok : StatsOk host disk name call) :
    Opens name disk after ∧ Tidy after ∧ Frames .archive disk after ∧ StatsOk host after name next ∧
      ((disk.inode name).isSome = true → Readable host disk name →
        ∀ raised, next = .done (.error raised) → isJournalError raised = true) := by
  have unlocked : ∀ inode, disk.locks inode = some .archive → Frames .archive disk (disk.unlock inode) := by
    intro inode mine
    refine ⟨le_rfl, fun other holder _ differ locked => ⟨?_, rfl⟩⟩
    have apart : other ≠ inode := by
      rintro rfl
      exact differ (Option.some.inj (locked.symm.trans mine))
    simpa [Disk.unlock, apart] using locked
  have stopped : ∀ {locks text}, StatsOk host { disk with locks := locks } name
      (.done (.error (cannotRead name (.osError text)))) := by
    intro locks text
    exact ⟨by simp, by simp, by simp, fun _ same => by cases same; exact .inl rfl⟩
  cases call with
  | ready =>
    cases error with
    | some text =>
      cases taken
      refine ⟨opens_same, tidy, ⟨le_rfl, fun _ _ _ _ locked => ⟨locked, rfl⟩⟩, stopped, ?_⟩
      rintro _ _ raised ⟨⟩
      rfl
    | none =>
      cases taken
      have steps : Steps host name (fun _ => .error .typeError) .archive disk .ready (disk.openAppend name).1
          (.opened (disk.openAppend name).2) := .opens
      refine ⟨opens_openAppend, tidy.openAppend name, steps.frames ⟨fun _ held => (by cases held), trivial⟩, ?_, ?_⟩
      · refine ⟨?_, by simp, by simp, by simp⟩
        rintro inode (same | same)
        · cases same
          exact inode_openAppend disk name
        · cases same
      · rintro _ _ raised ⟨⟩
  | opened inode =>
    cases error with
    | some text =>
      cases taken
      refine ⟨opens_same, tidy, ⟨le_rfl, fun _ _ _ _ locked => ⟨locked, rfl⟩⟩, stopped, ?_⟩
      rintro _ _ raised ⟨⟩
      rfl
    | none =>
      simp only [statsStep] at taken
      split_ifs at taken with free
      cases taken
      have steps : Steps host name (fun _ => .error .typeError) .archive disk (.opened inode)
          (disk.lock .archive inode) (.locked inode) := .locks free
      refine ⟨opens_same, ⟨tidy.injective, tidy.bounded⟩,
        steps.frames ⟨fun _ held => (by cases held), trivial⟩, ?_, ?_⟩
      · refine ⟨?_, ?_, by simp, by simp⟩
        · rintro other (same | same)
          · cases same
          · cases same
            exact ok.opened inode (.inl rfl)
        · rintro other ⟨⟩
          simp [Disk.lock]
      · rintro _ _ raised ⟨⟩
  | locked inode =>
    have found := ok.opened inode (.inr rfl)
    have frames := unlocked inode (ok.locked inode rfl)
    cases error with
    | some text =>
      cases taken
      refine ⟨opens_same, ⟨tidy.injective, tidy.bounded⟩, frames, stopped, ?_⟩
      rintro _ _ raised ⟨⟩
      rfl
    | none =>
      cases taken
      have there : (disk.inode name).isSome = true := by rw [found]; rfl
      refine ⟨opens_same, ⟨tidy.injective, tidy.bounded⟩, frames, ⟨by simp, by simp, ?_, ?_⟩, ?_⟩
      · intro stats same
        cases counted : archiveStats host (shown name) (disk.inodes inode) with
        | error raised => simp [counted, Except.mapError] at same
        | ok result => exact ⟨there, readable_of_stats found counted⟩
      · exact fun _ _ => .inr there
      · intro _ readable raised same
        obtain ⟨stats, counted⟩ := stats_of_readable found readable
        simp [counted, Except.mapError] at same
  | done result => cases taken

theorem frames_replace {actor : Actor} {source target : Str} {inode : Nat} :
    Frames actor disk (disk.replace source target inode) :=
  ⟨le_rfl, fun _ _ _ _ locked => ⟨locked, rfl⟩⟩

/-- The state as it was, at another stage. -/
theorem Sound.archive_stays (sound : Sound setup trusted prior state) {next : Archive}
    (stage : Stage setup trusted prior state.disk state.appends next) :
    Sound setup trusted prior { state with archive := next } :=
  ⟨sound.tidy, sound.apart, sound.opened, sound.calls, sound.live, stage⟩

theorem Sound.counting {call next : Stats} (sound : Sound setup trusted prior state)
    (at_ : state.archive = .counting call)
    (taken : statsStep setup.host setup.journal error state.disk call = some (after, next)) :
    Sound setup trusted prior { state with disk := after, archive := .counting next } := by
  have stage := sound.stage
  rw [at_] at stage
  cases stage with
  | counting live stats =>
    obtain ⟨opens, tidyAfter, frames, ok, _⟩ := statsStep_ok taken sound.tidy stats
    exact sound.archive_opens opens tidyAfter frames sound.apart (.inl rfl)
      (.counting (live.opens opens sound.tidy sound.apart) ok)

theorem Sound.counted {result : Except PyError (Nat × Option Str)} (sound : Sound setup trusted prior state)
    (at_ : state.archive = .counting (.done result)) :
    Sound setup trusted prior { state with archive := setup.counted result } := by
  apply sound.archive_stays
  have stage := sound.stage
  rw [at_] at stage
  cases stage with
  | counting live stats =>
    cases result with
    | error raised =>
      apply Stage.raised
      by_cases isJournal : isJournalError raised = true
      · rw [if_pos isJournal]
        exact .inl ⟨raised.text, rfl⟩
      · rw [if_neg isJournal]
        exact .inr ⟨live, (stats.failed raised rfl).resolve_left isJournal⟩
    | ok counted =>
      obtain ⟨there, readable⟩ := stats.counted counted rfl
      by_cases none : counted.1 = 0
      · simp only [Setup.counted, none, if_true]
        exact .raised (.inl ⟨_, rfl⟩)
      · simp only [Setup.counted, if_neg none]
        exact .claiming live none there readable

theorem inode_archiveName (disk : Disk) (journal : Str) (time : Time) :
    disk.inode (archiveName journal time (freeIndex disk.world.files journal time)) = none := by
  have missing := freeIndex_free disk.world.files journal time
  have file := Disk.file_world disk (archiveName journal time (freeIndex disk.world.files journal time))
  rw [World.file, missing] at file
  exact Option.map_eq_none_iff.mp file.symm

theorem opens_create (free : disk.inode name = none) : Opens name disk (disk.create name) := by
  have created := @opens_openAppend disk name
  simpa [Disk.openAppend, free] using created

/-- The name claimed is new, and its file empty and unused. -/
theorem Sound.claiming {stats : Nat × Option Str} (sound : Sound setup trusted prior state)
    (at_ : state.archive = .claiming stats) (noSlash : 47 ∉ setup.journal) (noBackslash : 92 ∉ setup.journal)
    (chosen : archived = archiveName setup.journal setup.time
      (freeIndex state.disk.world.files setup.journal setup.time)) :
    Sound setup trusted prior { state with
      disk := state.disk.create archived
      archive := .moving stats archived } := by
  have stage := sound.stage
  rw [at_] at stage
  cases stage with
  | claiming live positive there readable =>
    have free : state.disk.inode archived = none := chosen ▸ inode_archiveName state.disk setup.journal setup.time
    have notJournal : archived ≠ setup.journal := by
      rintro rfl
      rw [free] at there
      cases there
    obtain ⟨events, standing⟩ := live
    have notPrior : archived ∉ prior := by
      intro member
      have present := standing.chain.present archived member
      rw [Disk.file_world, free] at present
      cases present
    have opens : Opens archived state.disk (state.disk.create archived) := opens_create free
    have frames : Frames .archive state.disk (state.disk.create archived) := by
      refine ⟨Nat.le_succ _, fun inode holder bound _ locked => ?_⟩
      have apart : inode ≠ state.disk.next := Nat.ne_of_lt bound
      simpa [Disk.create, apart] using locked
    apply sound.archive_opens opens (sound.tidy.create archived) frames notPrior (.inr notJournal)
    refine .moving ⟨events, opens.standing sound.tidy standing notPrior⟩ positive (opens.isSome there)
      (opens.readable sound.tidy readable there) ⟨?_, ?_, ?_⟩ ⟨state.disk.next, ?_, ?_, ?_⟩
    · simpa using ⟨notJournal, notPrior⟩
    · exact chosen ▸ bare_archiveName noSlash noBackslash
    · exact chosen ▸ last_archiveName _ _ _
    · rw [Disk.inode_create, if_pos rfl]
    · simp [Disk.create]
    · exact fun n held => Nat.lt_irrefl _ (sound.opened n _ held).1

/-- The journal renamed over the claimed file. -/
theorem Sound.moving {stats : Nat × Option Str} {inode : Nat} (sound : Sound setup trusted prior state)
    (at_ : state.archive = .moving stats archived) (found : state.disk.inode setup.journal = some inode) :
    Sound setup trusted prior { state with
      disk := state.disk.replace setup.journal archived inode
      archive := .settling stats archived .ready } := by
  have stage := sound.stage
  rw [at_] at stage
  cases stage with
  | moving live positive there readable name claimed =>
    obtain ⟨events, standing⟩ := live
    obtain ⟨notLive, distinct⟩ := List.nodup_cons.mp standing.distinct
    have apart : archived ≠ setup.journal ∧ archived ∉ prior := by simpa using name.fresh
    have others : ∀ file ∈ prior, file ≠ setup.journal ∧ file ≠ archived := by
      intro file member
      exact ⟨fun same => notLive (same ▸ member), fun same => apart.2 (same ▸ member)⟩
    have moved : (state.disk.replace setup.journal archived inode).inode archived = some inode := by
      rw [Disk.inode_replace, if_neg apart.1, if_pos rfl]
    apply sound.archive_of frames_replace (sound.tidy.replace found)
    · exact fun _ _ kept => kept
    · intro file member
      rw [Disk.inode_replace, if_neg (others file member).1, if_neg (others file member).2]
    · intro other gone
      rw [Disk.inode_replace, if_pos rfl] at gone
      cases gone
    · refine .settling ⟨⟨events, ?_, List.nodup_cons.mpr ⟨apart.2, distinct⟩⟩, ?_, ?_⟩ positive name.bare ?_
        ⟨by simp, by simp, by simp, by simp⟩ (by simp)
      · apply standing.chain.rename
        · rw [file_replace, if_neg apart.1, if_pos rfl, Disk.file_world, found]
          rfl
        · intro file member
          rw [file_replace, if_neg (others file member).1, if_neg (others file member).2]
      · rw [moved]
        rfl
      · simpa [Ne.symm apart.1] using notLive
      · intro other same
        cases moved.symm.trans same
        exact readable inode found

theorem Sound.settling {stats : Nat × Option Str} {call next : Stats} (sound : Sound setup trusted prior state)
    (at_ : state.archive = .settling stats archived call)
    (taken : statsStep setup.host archived error state.disk call = some (after, next)) :
    Sound setup trusted prior { state with disk := after, archive := .settling stats archived next } := by
  have stage := sound.stage
  rw [at_] at stage
  cases stage with
  | settling behind positive bare readable again failed =>
    obtain ⟨opens, tidyAfter, frames, ok, raises⟩ := statsStep_ok taken sound.tidy again
    obtain ⟨⟨events, standing⟩, there, apart⟩ := behind
    have notPrior := (List.nodup_cons.mp standing.distinct).1
    have notJournal : archived ≠ setup.journal := fun same => apart (same ▸ List.mem_cons_self)
    exact sound.archive_opens opens tidyAfter frames notPrior (.inr notJournal)
      (.settling ⟨⟨events, opens.standing sound.tidy standing notPrior⟩, opens.isSome there, apart⟩ positive bare
        (opens.readable sound.tidy readable there) ok (raises there readable))

theorem Sound.settled {stats : Nat × Option Str} {result : Except PyError (Nat × Option Str)}
    (sound : Sound setup trusted prior state) (loads : setup.unloadable = none)
    (at_ : state.archive = .settling stats archived (.done result)) :
    Sound setup trusted prior { state with archive := setup.settled stats archived result } := by
  apply sound.archive_stays
  have stage := sound.stage
  rw [at_] at stage
  cases stage with
  | settling behind positive bare readable again failed =>
    cases result with
    | error raised =>
      simp only [Setup.settled, failed raised rfl, if_true]
      exact .checking behind
    | ok counted =>
      by_cases same : counted = stats
      · simp only [Setup.settled, if_pos same, loads]
        exact .appending behind positive bare ⟨fun _ held => (by cases held), trivial⟩
          (fun _ held => by cases held) rfl
      · simp only [Setup.settled, if_neg same]
        exact .checking behind

theorem rolledBack_error (setup : Setup) (archived : Str) (reason : Option PyError) (restored : Bool) :
    ∃ text, setup.rolledBack archived reason restored = .archiveError text := by
  unfold Setup.rolledBack
  cases reason with
  | some error => exact ⟨_, rfl⟩
  | none => cases restored <;> exact ⟨_, rfl⟩

/-- The file archived moved back. -/
theorem Sound.restoring {reason : Option PyError} {inode : Nat} {raised : PyError}
    (sound : Sound setup trusted prior state) (at_ : state.archive = .restoring archived reason)
    (found : state.disk.inode archived = some inode) (isError : ∃ text, raised = .archiveError text) :
    Sound setup trusted prior { state with
      disk := state.disk.replace archived setup.journal inode
      archive := .raised raised } := by
  have stage := sound.stage
  rw [at_] at stage
  cases stage with
  | restoring behind =>
    obtain ⟨⟨events, standing⟩, _, apart⟩ := behind
    have notPrior := (List.nodup_cons.mp standing.distinct).1
    have outside : setup.journal ≠ archived ∧ setup.journal ∉ prior := by simpa using apart
    apply sound.archive_of frames_replace (sound.tidy.replace found)
    · exact fun _ _ kept => kept
    · intro file member
      have notArchived : file ≠ archived := fun same => notPrior (same ▸ member)
      have notJournal : file ≠ setup.journal := fun same => outside.2 (same ▸ member)
      rw [Disk.inode_replace, if_neg notArchived, if_neg notJournal]
    · intro other back
      rw [Disk.inode_replace, if_neg outside.1, if_pos rfl] at back
      cases back
      have kept := standing.chain.kept
      rw [Disk.file_world, found] at kept
      exact ⟨events, kept⟩
    · exact .raised (.inl isError)

theorem cannotStart_error (journal : Str) (error : PyError) :
    ∃ text, cannotStart journal error = .archiveError text := by
  cases error <;> exact ⟨_, rfl⟩

/-- A file whose tail has no hash has no events. -/
theorem nil_of_lastHash {host : Host} {content : Bytes} {events : List Dict} (kept : Kept host trusted content events)
    (none : lastHash events = none) : events = [] := by
  rcases List.eq_nil_or_concat' events with nil | ⟨before, last, rfl⟩
  · exact nil
  · have member : last ∈ before ++ [last] := by simp
    obtain ⟨hash, stored⟩ := hashed_of_clean kept.valid.clean last member
    simp [lastHash, stored, asStr] at none

/-- The archive record on the new journal, where the file archived is still as counted. -/
theorem Sound.linking {stats : Nat × Option Str} {inode : Nat} {event : Dict} {line : Bytes}
    (sound : Sound setup trusted prior state) (trustedSigner : TrustedSigner setup.host trusted setup.signer)
    (at_ : state.archive = .appending stats archived (.built inode event line))
    (committed : ∀ content, state.disk.world.file archived = some content →
      archiveStats setup.host (shown archived) content = .ok stats) :
    Sound setup trusted prior { state with
      disk := state.disk.write inode (line ++ [10])
      archive := .appending stats archived (.written inode event line) } := by
  have stage := sound.stage
  rw [at_] at stage
  cases stage with
  | appending behind positive bare ok here unwritten =>
    have live := here inode rfl
    obtain ⟨⟨before, standing⟩, there, apart⟩ := behind
    obtain ⟨content, found⟩ : ∃ content, state.disk.world.file archived = some content := by
      obtain ⟨number, named⟩ := Option.isSome_iff_exists.mp there
      exact ⟨_, by rw [Disk.file_world, named]; rfl⟩
    obtain ⟨previous, tail, made, encoded⟩ := ok.progress
    obtain ⟨events, kept⟩ := sound.live inode live
    -- the builder refuses a file with events
    have first : previous = none := by
      cases previous with
      | none => rfl
      | some hash => simp [Setup.build, buildArchive] at made
    have nothing : events = [] :=
      nil_of_lastHash kept ((readLastEventHash_sound kept.valid.decoded tail).symm.trans first)
    subst nothing
    have counted := committed content found
    have archivedKept := standing.chain.kept
    rw [found, Option.getD_some] at archivedKept
    have same : stats = (before.length, lastHash before) := archiveStats_kept archivedKept counted
    have length : before.length ≠ 0 := by
      rw [same] at positive
      exact positive
    have returned : appendBuilt setup.host (shown setup.journal) (state.disk.inodes inode)
        (buildArchive setup.host setup.signer setup.stamp setup.journal archived (before.length, lastHash before)) =
          .ok ⟨state.disk.inodes inode ++ (line ++ [10]), event, previous⟩ :=
      appendBuilt_eq_ok.mpr ⟨line, tail, same ▸ made, encoded, rfl⟩
    obtain ⟨linkKept, isOne, path, count, head⟩ :=
      kept_archive trustedSigner (Nat.one_le_iff_ne_zero.mpr length) bare kept returned
    have steps : Steps setup.host setup.journal (setup.build stats archived) .archive state.disk
        (.built inode event line) (state.disk.write inode (line ++ [10])) (.written inode event line) := .writes
    have bound := sound.tidy.bounded _ inode live
    have others : ∀ file ∈ archived :: prior,
        (state.disk.write inode (line ++ [10])).world.file file = state.disk.world.file file := by
      intro file member
      rw [file_write, if_neg]
      intro collides
      exact apart (sound.tidy.injective _ _ _ live collides ▸ member)
    have written : (state.disk.write inode (line ++ [10])).world.file setup.journal =
        some (state.disk.inodes inode ++ (line ++ [10])) := by
      rw [file_write, if_pos live]
    have keeps : ∀ other, (∃ events, Kept setup.host trusted (state.disk.inodes other) events) →
        ∃ events, Kept setup.host trusted ((state.disk.write inode (line ++ [10])).inodes other) events := by
      intro other before
      by_cases isLive : other = inode
      · subst isLive
        exact ⟨[event], by simpa [Disk.write] using linkKept⟩
      · simpa [Disk.write, isLive] using before
    apply sound.archive_of (steps.frames ok) ⟨sound.tidy.injective, sound.tidy.bounded⟩
    · exact fun other _ before => keeps other before
    · exact fun _ _ => rfl
    · exact fun other found => keeps other (sound.live other found)
    · refine .linked ⟨⟨[event], ?_, List.nodup_cons.mpr ⟨apart, standing.distinct⟩⟩, ?_⟩ (ok.locked inode rfl) bound
      · apply Chain.link _ isOne path bare count head
        · rw [others archived List.mem_cons_self, found]
          rfl
        · exact standing.chain.frame others
        · rwa [written, Option.getD_some]
      · change (state.disk.inode setup.journal).isSome = true
        rw [live]
        rfl

/-- The other steps of the archive's append. -/
theorem Sound.appending {stats : Nat × Option Str} {call next : Append} (sound : Sound setup trusted prior state)
    (at_ : state.archive = .appending stats archived call)
    (steps : Steps setup.host setup.journal (setup.build stats archived) .archive state.disk call after next)
    (quiet : ∀ inode event line, next ≠ .written inode event line) :
    Sound setup trusted prior { state with disk := after, archive := setup.appended stats archived next } := by
  have stage := sound.stage
  rw [at_] at stage
  have unlocks : ∀ inode, state.disk.locks inode = some .archive → ∀ archive,
      Stage setup trusted prior (state.disk.unlock inode) state.appends archive →
      Sound setup trusted prior { state with disk := state.disk.unlock inode, archive := archive } := by
    intro inode locked archive stage
    have held : CallOk setup.host setup.journal (setup.build stats archived) .archive state.disk
        (.failing inode .typeError) := by
      refine ⟨fun other same => ?_, trivial⟩
      cases same
      exact locked
    have released : Steps setup.host setup.journal (setup.build stats archived) .archive state.disk
        (.failing inode .typeError) (state.disk.unlock inode)
        (.raised (cannotAppend setup.journal .typeError)) := .unlocks
    exact sound.archive_opens opens_unlock ⟨sound.tidy.injective, sound.tidy.bounded⟩ (released.frames held)
      sound.apart (.inl rfl) stage
  cases stage with
  | appending behind positive bare ok here unwritten =>
    have frames := steps.frames ok
    have goesOn := steps.ok ok
    cases steps with
    | opens =>
      apply sound.archive_opens opens_openAppend (sound.tidy.openAppend _) frames sound.apart (.inl rfl)
      refine .appending (behind.opens opens_openAppend sound.tidy) positive bare goesOn ?_ rfl
      intro inode held
      rw [inode_openAppend]
      exact held
    | locks free =>
      apply sound.archive_opens opens_lock ⟨sound.tidy.injective, sound.tidy.bounded⟩ frames sound.apart (.inl rfl)
      exact .appending (behind.opens opens_lock sound.tidy) positive bare goesOn here rfl
    | reads | builds => exact sound.archive_stays (.appending behind positive bare goesOn here rfl)
    | writes => exact absurd rfl (quiet _ _ _)
    | returns => cases unwritten
    | unlocks => exact unlocks _ (ok.locked _ rfl) _ (.raised (.inl (cannotStart_error _ _)))
    | fails raised held =>
      have opened := here _ (handle_of_holds held)
      exact sound.archive_stays (.failing (ok.locked _ held) (sound.tidy.bounded _ _ opened))
    | stops raised free => exact sound.archive_stays (.raised (.inl (cannotStart_error _ _)))
  | linked linked locked bound =>
    cases steps with
    | returns =>
      apply unlocks _ locked
      exact .returned (linked.opens opens_unlock sound.tidy)
    | fails raised held =>
      cases held
      exact sound.archive_stays (.failing locked bound)
    | stops raised free => cases free
  | failing locked bound =>
    cases steps with
    | unlocks => exact unlocks _ locked _ (.raised (.inl (cannotStart_error _ _)))
    | fails raised held =>
      cases held
      exact sound.archive_stays (.failing locked bound)
    | stops raised free => cases free

/-- The writes that the chain depends on. The archive writes its record only where the
file archived has the count and the head that the record commits to, and no appender
writes to that file afterwards. -/
structure Settled (setup : Setup) (state : State) (action : Action) : Prop where
  committed : ∀ stats archived inode event line content, action = .archive none →
    state.archive = .appending stats archived (.built inode event line) →
    state.disk.world.file archived = some content →
    archiveStats setup.host (shown archived) content = .ok stats
  untouched : ∀ n inode event line archived, action = .append n none →
    state.appends n = .built inode event line → linkTo state.archive = some archived →
    state.disk.inode archived ≠ some inode

theorem Sound.archive_step (sound : Sound setup trusted prior state)
    (trustedSigner : TrustedSigner setup.host trusted setup.signer) (loads : setup.unloadable = none)
    (noSlash : 47 ∉ setup.journal) (noBackslash : 92 ∉ setup.journal) {next : Archive}
    (taken : setup.archiveStep error state.disk state.archive = some (after, next))
    (committed : ∀ stats archived inode event line content, error = none →
      state.archive = .appending stats archived (.built inode event line) →
      state.disk.world.file archived = some content →
      archiveStats setup.host (shown archived) content = .ok stats) :
    Sound setup trusted prior { state with disk := after, archive := next } := by
  cases at_ : state.archive with
  | counting call =>
    rw [at_] at taken
    cases call with
    | done result =>
      cases taken
      exact sound.counted at_
    | ready | opened | locked =>
      obtain ⟨moved, stepped, same⟩ := Option.map_eq_some_iff.mp taken
      cases same
      exact sound.counting at_ stepped
  | claiming stats =>
    rw [at_] at taken
    cases error with
    | some text =>
      cases taken
      exact sound.archive_stays (.raised (.inl ⟨_, rfl⟩))
    | none =>
      cases taken
      exact sound.claiming at_ noSlash noBackslash rfl
  | moving stats archived =>
    rw [at_] at taken
    cases error with
    | some text =>
      cases found : state.disk.inode setup.journal <;> simp only [Setup.archiveStep, found] at taken <;> cases taken
      all_goals exact sound.archive_stays (.raised (.inl ⟨_, rfl⟩))
    | none =>
      cases found : state.disk.inode setup.journal with
      | none =>
        simp only [Setup.archiveStep, found] at taken
        cases taken
        exact sound.archive_stays (.raised (.inl ⟨_, rfl⟩))
      | some inode =>
        simp only [Setup.archiveStep, found] at taken
        cases taken
        exact sound.moving at_ found
  | settling stats archived call =>
    rw [at_] at taken
    cases call with
    | done result =>
      cases taken
      exact sound.settled loads at_
    | ready | opened | locked =>
      obtain ⟨moved, stepped, same⟩ := Option.map_eq_some_iff.mp taken
      cases same
      exact sound.settling at_ stepped
  | checking archived reason =>
    have stage := sound.stage
    rw [at_] at stage taken
    simp only [Setup.archiveStep] at taken
    split_ifs at taken with live
    · cases taken
      exact sound.archive_stays (.raised (.inl (rolledBack_error _ _ _ _)))
    · cases taken
      cases stage with
      | checking behind => exact sound.archive_stays (.restoring behind)
  | restoring archived reason =>
    rw [at_] at taken
    cases error with
    | some text =>
      cases found : state.disk.inode archived <;> simp only [Setup.archiveStep, found] at taken <;> cases taken
      all_goals exact sound.archive_stays (.raised (.inl (rolledBack_error _ _ _ _)))
    | none =>
      cases found : state.disk.inode archived with
      | none =>
        simp only [Setup.archiveStep, found] at taken
        cases taken
        exact sound.archive_stays (.raised (.inl (rolledBack_error _ _ _ _)))
      | some inode =>
        simp only [Setup.archiveStep, found] at taken
        cases taken
        exact sound.restoring at_ found (rolledBack_error _ _ _ _)
  | appending stats archived call =>
    rw [at_] at taken
    obtain ⟨moved, stepped, same⟩ := Option.map_eq_some_iff.mp taken
    cases same
    have steps := steps_of_appendStep stepped
    by_cases writes : ∃ inode event line, call = .built inode event line ∧ error = none
    · obtain ⟨inode, event, line, rfl, rfl⟩ := writes
      cases stepped
      exact sound.linking trustedSigner at_ (fun content => committed stats archived inode event line content rfl at_)
    · apply sound.appending at_ steps
      intro inode event line written
      have built : call = .built inode event line := (written ▸ steps).of_written
      apply writes
      refine ⟨inode, event, line, built, ?_⟩
      cases error with
      | none => rfl
      | some text =>
        rw [built] at stepped
        cases stepped
        cases written
  | returned archived event line =>
    rw [at_] at taken
    cases taken
  | raised raised =>
    rw [at_] at taken
    cases taken

theorem Sound.step {action : Action} {next : State} (sound : Sound setup trusted prior state)
    (trustedSigner : TrustedSigner setup.host trusted setup.signer) (loads : setup.unloadable = none)
    (noSlash : 47 ∉ setup.journal) (noBackslash : 92 ∉ setup.journal) (honest : ∀ n, Honest setup.host trusted (setup.builds n))
    (settled : Settled setup state action) (taken : step setup state action = some next) :
    Sound setup trusted prior next := by
  cases action with
  | archive error =>
    obtain ⟨moved, stepped, rfl⟩ := Option.map_eq_some_iff.mp taken
    apply sound.archive_step trustedSigner loads noSlash noBackslash stepped
    intro stats archived inode event line content none
    subst none
    exact settled.committed stats archived inode event line content rfl
  | append n error =>
    obtain ⟨moved, stepped, rfl⟩ := Option.map_eq_some_iff.mp taken
    apply sound.append (honest n) stepped
    intro inode event line name built written linked
    cases error with
    | none => exact settled.untouched n inode event line name rfl built linked
    | some text =>
      rw [built] at stepped
      simp only [appendStep, Option.some.injEq] at stepped
      rw [← stepped] at written
      cases written

end Archiver

end Tesera.Verification.Rotation
