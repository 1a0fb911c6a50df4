import Tesera.Verification.WriterRuns

/-!
The events reachable from the live path, and what a failed archive does to them. Up to
the rename a failure leaves them as they were, and so does a failed re-read whose rename is
taken back. A failure after that leaves the live path without its events.
-/

namespace Tesera.Verification.Reachable
open Tesera.Effects Tesera.Text Tesera.Text.Unicode Tesera.Text.Lines Tesera.Python.Value Tesera.Canonical
open Tesera.Journal.Record Tesera.Journal.Tail Tesera.Journal.Payloads
open Tesera.Journal.Append Tesera.Journal.Store Tesera.Commands.Archive
open Tesera.Verification.Event (PublicKey toKeyring)
open Tesera.Verification.Journal Tesera.Verification.Chain Tesera.Verification.Custody
open Tesera.Verification.WriterRuns Tesera.Verification.Preserve

/-! ## The events reachable from a file -/

/-- The lines of the file under a name. -/
def linesOf (world : World) (name : Str) : List Bytes := records ((world.file name).getD [])

/-- The link the walk follows from a file; where it would end, or raise, there is none. -/
def linkFrom (host : Host) (keys : List PublicKey) (world : World) (seen : List Str) (current : Str) :
    Option Str :=
  match arrive host keys (World.directory world) seen [] current with
  | .ok (.inr link) =>
      match followLink host (World.directory world) current link with
      | .ok ([], predecessor) => some predecessor
      | _ => none
  | _ => none

/-- The lines of the files that `verify_archive_chain` walks, from a name on. -/
def reachableFrom (host : Host) (keys : List PublicKey) (world : World) : Nat → List Str → Str → List Bytes
  | 0, seen, current => if seen.contains current then [] else linesOf world current
  | left + 1, seen, current =>
      if seen.contains current then []
      else linesOf world current ++
        (linkFrom host keys world seen current).elim []
          (fun predecessor => reachableFrom host keys world left (seen ++ [current]) predecessor)

/-- The events reachable from the live path. -/
def reachable (host : Host) (keys : List PublicKey) (maxLinks : Nat) (journal : Str) (world : World) :
    List Bytes := reachableFrom host keys world maxLinks [] journal

section Reachable

variable {host : Host} {keys : List PublicKey} {world other : World} {journal : Str} {left maxLinks : Nat}
  {seen : List Str} {current : Str}

theorem directory_eq (world : World) (name : Str) :
    World.directory world name = (world.file name).map (fun content => .readable content none) := rfl

/-- A link that is followed goes to the file it names. -/
theorem followLink_target {dir : Directory} {link : Dict} {predecessor : Str}
    (followed : followLink host dir current link = .ok ([], predecessor)) :
    linkTarget link = some predecessor := by
  unfold followLink at followed
  cases target : linkTarget link with
  | none => simp [target] at followed
  | some named =>
    simp only [target] at followed
    cases entry : dir named with
    | none => simp [entry] at followed
    | some source =>
      simp only [entry] at followed
      cases counted : tallyOf host source with
      | error e =>
        simp only [counted] at followed
        split_ifs at followed
        cases followed
      | ok found =>
        simp only [counted, Except.ok.injEq, Prod.mk.injEq] at followed
        rw [followed.2]

/-- Every reachable line stands in a file. -/
theorem mem_reachableFrom {line : Bytes} (member : line ∈ reachableFrom host keys world left seen current) :
    ∃ name, line ∈ linesOf world name := by
  induction left generalizing seen current with
  | zero =>
    rw [reachableFrom] at member
    split_ifs at member
    · cases member
    · exact ⟨current, member⟩
  | succ left ih =>
    rw [reachableFrom] at member
    split_ifs at member
    · cases member
    · rcases List.mem_append.mp member with here | there
      · exact ⟨current, here⟩
      · cases next : linkFrom host keys world seen current with
        | none => simp [next] at there
        | some predecessor =>
          rw [next] at there
          exact ih there

/-- The lines of the live file are reachable. -/
theorem linesOf_subset_reachable : linesOf world journal ⊆ reachable host keys maxLinks journal world := by
  intro line member
  unfold reachable
  cases maxLinks <;> simp [reachableFrom, member]

/-- What is reachable is a matter of the files. -/
theorem reachableFrom_congr (same : ∀ name, other.file name = world.file name) :
    reachableFrom host keys other left seen current = reachableFrom host keys world left seen current := by
  have files : World.directory other = World.directory world := by
    funext name
    simp only [directory_eq, same]
  have lines : linesOf other = linesOf world := by
    funext name
    simp only [linesOf, same]
  have links : linkFrom host keys other = linkFrom host keys world := by
    funext seen current
    simp only [linkFrom, files]
  induction left generalizing seen current with
  | zero => simp only [reachableFrom, lines]
  | succ left ih => simp only [reachableFrom, lines, links, ih]

/-- The walk ends at a file that is absent or empty. -/
theorem linkFrom_empty (empty : (world.file current).getD [] = []) : linkFrom host keys world seen current = none := by
  have stops : ∀ link, arrive host keys (World.directory world) seen [] current ≠ .ok (.inr link) := by
    intro link arrived
    rw [arrive] at arrived
    split_ifs at arrived with again
    · cases arrived
    · cases file : world.file current with
      | none => simp [directory_eq, file] at arrived
      | some content =>
        rw [file, Option.getD_some] at empty
        subst empty
        have visited := visit_kept current (kept_nil host (toKeyring host keys))
        rw [directory_eq, file, Option.map_some, Option.elim_some, visited] at arrived
        cases arrived
  unfold linkFrom
  cases arrived : arrive host keys (World.directory world) seen [] current with
  | error e => rfl
  | ok outcome =>
    cases outcome with
    | inl report => rfl
    | inr link => exact absurd arrived (stops link)

theorem reachableFrom_empty (empty : (world.file current).getD [] = []) :
    reachableFrom host keys world left seen current = [] := by
  have none : linesOf world current = [] := by rw [linesOf, empty]; rfl
  cases left with
  | zero => simp [reachableFrom, none]
  | succ left => simp [reachableFrom, none, linkFrom_empty empty]

/-- An empty file under a name that was free adds nothing. -/
theorem reachableFrom_write_empty {name : Str} (free : world.file name = none) (apart : current ≠ name) :
    reachableFrom host keys (world.write name []) left seen current =
      reachableFrom host keys world left seen current := by
  have same : ∀ file, file ≠ name → (world.write name []).file file = world.file file :=
    fun file different => by rw [World.file_write, if_neg different]
  have lines : ∀ file, linesOf (world.write name []) file = linesOf world file := by
    intro file
    by_cases here : file = name
    · rw [linesOf, linesOf, here, World.file_write, if_pos rfl, free]
      rfl
    · rw [linesOf, linesOf, same file here]
  have empty : ((world.write name []).file name).getD [] = [] := by
    rw [World.file_write, if_pos rfl]
    rfl
  have entry : ∀ file, file ≠ name → World.directory (world.write name []) file = World.directory world file :=
    fun file different => by rw [directory_eq, directory_eq, same file different]
  induction left generalizing seen current with
  | zero => simp only [reachableFrom, lines]
  | succ left ih =>
    rw [reachableFrom, reachableFrom, lines]
    split_ifs with again
    · rfl
    · congr 1
      have arrived : arrive host keys (World.directory (world.write name [])) seen [] current =
          arrive host keys (World.directory world) seen [] current := by
        rw [arrive, arrive, entry current apart]
      unfold linkFrom
      rw [arrived]
      cases arrive host keys (World.directory world) seen [] current with
      | error e => rfl
      | ok outcome =>
        cases outcome with
        | inl report => rfl
        | inr link =>
          by_cases here : linkTarget link = some name
          · have absent : World.directory world name = none := by rw [directory_eq, free]; rfl
            have there : World.directory (world.write name []) name = some (.readable [] none) := by
              rw [directory_eq, World.file_write, if_pos rfl]
              rfl
            have counted : tallyOf host (.readable [] none) = .ok (0, none) := rfl
            simp only [followLink, here, absent, there, counted]
            cases Chain.linkIssues host current name link (0, none) with
            | nil => exact reachableFrom_empty empty
            | cons issue issues => rfl
          · have followed : followLink host (World.directory (world.write name [])) current link =
                followLink host (World.directory world) current link := by
              cases target : linkTarget link with
              | none => simp only [followLink, target]
              | some predecessor =>
                have different : predecessor ≠ name := fun same => here (same ▸ target)
                simp only [followLink, target, entry predecessor different]
            simp only [followed]
            cases result : followLink host (World.directory world) current link with
            | error e => rfl
            | ok pair =>
              obtain ⟨issues, predecessor⟩ := pair
              cases issues with
              | cons issue issues => rfl
              | nil => exact ih (fun same => here (same ▸ followLink_target result))

end Reachable

/-! ## A failed archive -/

section Failure

variable {host : Host} {io : Io} {journal : Str} {identity : Except PyError Signer} {stamp : Stamp}
  {time : Time} {world after : World} {error : PyError}

/-- The count and the head the command reads off the live file. -/
def statsOf (host : Host) (journal : Str) (world : World) : Except PyError (Nat × Option Str) :=
  archiveStats host (shown journal) ((world.file journal).getD [])

/-- The call stops at the rename or before it, or its re-read fails and the rename is taken
back. -/
def Untouched (host : Host) (io : Io) (journal : Str) (world : World) : Prop :=
  (io .stats).isSome = true ∨ (∀ stats, statsOf host journal world = .ok stats → stats.1 = 0) ∨
    (io .claim).isSome = true ∨ (io .rename).isSome = true ∨
    ((io .settle).isSome = true ∧ (io .restore).isNone = true)

/-- The world a call that stops early leaves: at most an empty live file and an empty file
under a free name are new. -/
inductive Stopped (journal : Str) (world : World) : World → Prop where
  | unread : Stopped journal world world
  | touched {after : World} (same : ∀ name, after.file name = (world.touch journal).file name) :
      Stopped journal world after
  | reserved {name : Str} (free : (world.touch journal).file name = none) :
      Stopped journal world ((world.touch journal).write name [])

/-- The world a call that fails late leaves: without events in the live file, or with its
archive record there. -/
inductive Cut (host : Host) (journal : Str) (stamp : Stamp) (after : World) : Prop where
  | empty (nothing : (after.file journal).getD [] = []) : Cut host journal stamp after
  | record (line : Bytes) (event : Dict) (content : after.file journal = some (line ++ [10]))
      (encoded : encodeEvent host event = .ok line) (ok : DictOk host event)
      (named : get event "event_id" = .str stamp.eventId) : Cut host journal stamp after

theorem attempt_none {point : Point} (passes : io point = none) : attempt io point world = (.ok (), world) := by
  simp [attempt, passes, Effect.lift, Effect.inspect]

theorem attempt_some {point : Point} {message : String} (fails : io point = some message) :
    attempt io point world = (.error (.osError message), world) := by
  simp [attempt, fails, Effect.lift, Effect.inspect]

theorem archiveStatsAt_run {point : Point} {name : Str} (passes : io point = none) :
    ∃ result, archiveStatsAt host io point name world = (result, world.touch name) ∧
      ∀ stats, result = .ok stats ↔ statsOf host name world = .ok stats := by
  have file : ((world.touch name).file name).getD [] = (world.file name).getD [] := by
    rw [World.file_touch, if_pos rfl, Option.getD_some]
  unfold archiveStatsAt statsOf
  simp only [Effect.mapError, Effect.rescue, run_bind, Effect.andThen, attempt_none passes, Effect.change,
    Effect.inspect, file]
  cases archiveStats host (shown name) ((world.file name).getD []) with
  | ok stats => exact ⟨_, rfl, fun _ => Iff.rfl⟩
  | error e => exact ⟨_, rfl, fun stats => by simp⟩

theorem archiveStatsAt_fails {point : Point} {name : Str} {message : String} (fails : io point = some message) :
    archiveStatsAt host io point name world = (.error (cannotRead name (.osError message)), world) := by
  simp only [archiveStatsAt, Effect.mapError, Effect.rescue, run_bind, Effect.andThen, attempt_some fails]
  rfl

theorem appendAt_raises {name : Str} {append : Option Bytes → Except PyError Appended}
    (raised : appendAt io name append world = (.error error, after)) :
    after = world ∨ after = world.touch name ∨ ∃ appended,
      append ((world.touch name).file name) = .ok appended ∧
        after = (world.touch name).write name appended.content := by
  cases opening : io .opening with
  | some message =>
    simp only [appendAt, Effect.mapError, Effect.rescue, run_bind, Effect.andThen, attempt_some opening] at raised
    exact .inl (Prod.mk.inj raised).2.symm
  | none =>
    right
    simp only [appendAt, Effect.mapError, Effect.rescue, run_bind, Effect.andThen, attempt_none opening,
      Effect.change, Effect.inspect] at raised
    cases found : append ((world.touch name).file name) with
    | error e =>
      simp only [found] at raised
      exact .inl (Prod.mk.inj raised).2.symm
    | ok appended =>
      simp only [found] at raised
      cases writing : io .writing with
      | some message =>
        simp only [attempt_some writing] at raised
        exact .inl (Prod.mk.inj raised).2.symm
      | none =>
        refine .inr ⟨appended, rfl, ?_⟩
        simp only [attempt_none writing] at raised
        cases flushing : io .flushing with
        | some message =>
          simp only [attempt_some flushing] at raised
          exact (Prod.mk.inj raised).2.symm
        | none =>
          simp only [attempt_none flushing, run_pure] at raised
          cases (Prod.mk.inj raised).1

/-- A failed append of the archive record leaves the live file empty, or with the record. -/
theorem cut_of_append {signer : Signer} {archived : Str} {stats : Nat × Option Str}
    (nothing : (world.file journal).getD [] = [])
    (raised : appendAt io journal (fun file => appendEvent host (shown journal) file
      (buildArchive host signer stamp journal archived stats)) world = (.error error, after)) :
    Cut host journal stamp after := by
  have touched : (world.touch journal).file journal = some [] := by
    rw [World.file_touch, if_pos rfl, nothing]
  rcases appendAt_raises raised with rfl | rfl | ⟨appended, found, rfl⟩
  · exact .empty nothing
  · exact .empty (by rw [touched]; rfl)
  · rw [touched] at found
    obtain ⟨line, tail, built, encoded, content⟩ := appendBuilt_eq_ok.mp found
    cases previous : appended.previous with
    | some hash => simp [buildArchive, previous] at built
    | none =>
      simp only [buildArchive, previous] at built
      obtain ⟨_, _, -, finalized⟩ := finalizeEvent_spec (dictOk_archivePayload host signer stamp stats.1 stats.2 archived)
        (by simp [has, archivePayload, Members.get]) (by simp [has, archivePayload, Members.get]) built
      refine .record line appended.event ?_ encoded finalized.ok ?_
      · rw [World.file_write, if_pos rfl, content]
        rfl
      · rw [Extend.get_of_payload finalized.payload_eq _ (by decide) (by decide)]
        simp [Python.Value.get, archivePayload, Members.get]

/-- What is read off a file does not depend on its name. -/
theorem archiveStats_name {content : Bytes} {name other : String} {stats : Nat × Option Str}
    (found : archiveStats host name content = .ok stats) : archiveStats host other content = .ok stats := by
  unfold archiveStats at found ⊢
  split_ifs at found ⊢ with empty
  · exact found
  · rw [readLastEventHash_eq] at found ⊢
    split_ifs at found ⊢ with nothing
    · exact found
    · cases line : eventHashFromLine host name (lastLine content) with
      | error e => simp [line, Except.map] at found
      | ok hash =>
        have again : eventHashFromLine host other (lastLine content) = .ok hash :=
          eventHashFromLine_eq_ok.mpr (eventHashFromLine_eq_ok.mp line)
        rw [line] at found
        rw [again]
        exact found

theorem lines_of_stats {stats : Nat × Option Str} (found : statsOf host journal world = .ok stats)
    (positive : stats.1 ≠ 0) : linesOf world journal ≠ [] := by
  intro none
  unfold statsOf archiveStats at found
  split_ifs at found
  · cases found
    exact positive rfl
  · cases tail : readLastEventHash host (shown journal) ((world.file journal).getD []) with
    | error e => simp [tail, Except.map] at found
    | ok head =>
      simp only [tail, Except.map, Except.ok.injEq] at found
      apply positive
      rw [← found, countEventLines]
      exact congrArg List.length none

/-- The name a claim reserves. -/
def claimed (world : World) (journal : Str) (time : Time) : Str :=
  archiveName journal time (freeIndex world.files journal time)

theorem claimArchivePath_run (passes : io .claim = none) :
    claimArchivePath io journal time world = (.ok (claimed world journal time), world.write (claimed world journal time) []) := by
  simp only [claimArchivePath, run_bind, Effect.andThen, Effect.inspect, Effect.mapError, Effect.rescue,
    attempt_none passes, Effect.change, run_pure, claimed]

theorem claimArchivePath_fails {message : String} (fails : io .claim = some message) :
    ∃ e, claimArchivePath io journal time world = (.error e, world) := by
  simp only [claimArchivePath, run_bind, Effect.andThen, Effect.inspect, Effect.mapError, Effect.rescue,
    attempt_some fails, Effect.raise]
  exact ⟨_, rfl⟩

theorem renameJournal_run {archived : Str} (passes : io .rename = none) :
    renameJournal io journal archived world = (.ok (), moveFile journal archived world) := by
  simp only [renameJournal, run_bind, Effect.andThen, Effect.mapError, Effect.rescue, attempt_none passes,
    Effect.change]

theorem renameJournal_fails {archived : Str} {message : String} (fails : io .rename = some message) :
    ∃ e, renameJournal io journal archived world = (.error e, world) := by
  simp only [renameJournal, run_bind, Effect.andThen, Effect.mapError, Effect.rescue, attempt_some fails,
    Effect.raise]
  exact ⟨_, rfl⟩

theorem settle_run {archived : Str} {stats : Nat × Option Str} (passes : io .settle = none)
    (there : (world.file archived).isSome = true) (found : statsOf host archived world = .ok stats) :
    settle host io journal archived stats world =
      (.ok (), { world with archived := archived :: world.archived }) := by
  obtain ⟨result, read, agrees⟩ := @archiveStatsAt_run host io world .settle archived passes
  rw [(agrees stats).mpr found, touch_of_isSome there] at read
  simp only [settle, settledStats, run_bind, Effect.andThen, Effect.rescue, read, if_true, Effect.change]

/-- A re-read that fails takes the rename back, where the system lets it. -/
theorem settle_fails {archived : Str} {stats : Nat × Option Str} {message : String}
    (fails : io .settle = some message) (moved : world.file journal = none) :
    ∃ e, settle host io journal archived stats world =
      (.error e, if (io .restore).isNone then moveFile archived journal world else world) := by
  have read := @archiveStatsAt_fails host io world .settle archived _ fails
  have rolled : ∃ restored, rollbackArchive io archived journal world =
      (.ok restored, if (io .restore).isNone then moveFile archived journal world else world) := by
    unfold rollbackArchive
    rw [moved]
    cases io .restore with
    | none => exact ⟨true, rfl⟩
    | some failure => exact ⟨false, rfl⟩
  obtain ⟨restored, rolled⟩ := rolled
  simp only [settle, settledStats, run_bind, Effect.andThen, Effect.rescue, read, cannotRead, isJournalError,
    ↓reduceIte, rolled, Effect.raise]
  exact ⟨_, rfl⟩

/-- What a raising call leaves. -/
theorem archiveJournal_raises
    (raised : archiveJournal host io journal identity stamp time world = (.error error, after)) :
    (Untouched host io journal world ∧ Stopped journal world after) ∨
      (¬ Untouched host io journal world ∧ linesOf world journal ≠ [] ∧ Cut host journal stamp after) := by
  cases stats : io .stats with
  | some message =>
    simp only [archiveJournal, run_bind, Effect.andThen, Effect.mapError, Effect.rescue,
      archiveStatsAt_fails stats] at raised
    cases (Prod.mk.inj raised).2
    exact .inl ⟨.inl (by rw [stats]; rfl), .unread⟩
  | none =>
    obtain ⟨result, read, agrees⟩ := @archiveStatsAt_run host io world .stats journal stats
    simp only [archiveJournal, run_bind, Effect.andThen, Effect.mapError, Effect.rescue, read] at raised
    cases result with
    | error e =>
      simp only [Effect.raise] at raised
      cases (Prod.mk.inj raised).2
      refine .inl ⟨.inr (.inl ?_), .touched (fun _ => rfl)⟩
      intro found same
      cases (agrees found).mpr same
    | ok found =>
      have foundIs := (agrees found).mp rfl
      by_cases zero : found.1 = 0
      · simp only [if_pos zero, Effect.raise] at raised
        cases (Prod.mk.inj raised).2
        refine .inl ⟨.inr (.inl ?_), .touched (fun _ => rfl)⟩
        intro other same
        rw [foundIs] at same
        cases same
        exact zero
      · simp only [if_neg zero, run_bind, Effect.andThen] at raised
        have lines := lines_of_stats foundIs zero
        have read : ¬ ∀ other, statsOf host journal world = .ok other → other.1 = 0 := fun all => zero (all _ foundIs)
        cases claim : io .claim with
        | some message =>
          obtain ⟨e, ran⟩ := @claimArchivePath_fails io journal time (world.touch journal) _ claim
          simp only [ran] at raised
          cases (Prod.mk.inj raised).2
          exact .inl ⟨.inr (.inr (.inl (by rw [claim]; rfl))), .touched (fun _ => rfl)⟩
        | none =>
          simp only [claimArchivePath_run claim] at raised
          have free := freeIndex_free (world.touch journal).files journal time
          have apart : claimed (world.touch journal) journal time ≠ journal := by
            intro same
            have present : (world.touch journal).file journal ≠ none := by
              rw [World.file_touch, if_pos rfl]
              exact Option.some_ne_none _
            have absent : (world.touch journal).file (claimed (world.touch journal) journal time) = none := free
            rw [same] at absent
            exact present absent
          change (world.touch journal).file (claimed (world.touch journal) journal time) = none at free
          generalize claimed (world.touch journal) journal time = archived at raised apart free
          cases rename : io .rename with
          | some message =>
            obtain ⟨e, ran⟩ := @renameJournal_fails io journal ((world.touch journal).write archived []) archived _ rename
            simp only [ran] at raised
            cases (Prod.mk.inj raised).2
            exact .inl ⟨.inr (.inr (.inr (.inl (by rw [rename]; rfl)))), .reserved free⟩
          | none =>
            simp only [renameJournal_run rename] at raised
            -- the files once the journal is renamed
            have files : ∀ name, (moveFile journal archived ((world.touch journal).write archived [])).file name =
                if name = journal then none
                else if name = archived then (world.touch journal).file journal
                else (world.touch journal).file name := by
              intro name
              rw [file_moveFile, World.file_write, World.file_write, if_neg (Ne.symm apart), World.file_touch,
                if_pos rfl, Option.getD_some]
              split_ifs <;> rfl
            have moved := files journal
            have kept := files archived
            rw [if_pos rfl] at moved
            rw [if_neg apart, if_pos rfl] at kept
            generalize moveFile journal archived ((world.touch journal).write archived []) = renamed
              at raised files moved kept
            have touched : (world.touch journal).file journal = some ((world.file journal).getD []) := by
              rw [World.file_touch, if_pos rfl]
            cases settles : io .settle with
            | some message =>
              obtain ⟨e, ran⟩ := @settle_fails host io journal renamed archived found _ settles moved
              simp only [ran] at raised
              have isAfter := (Prod.mk.inj raised).2
              cases restore : io .restore with
              | none =>
                rw [restore, Option.isNone_none, if_pos rfl] at isAfter
                refine .inl ⟨.inr (.inr (.inr (.inr ⟨by rw [settles]; rfl, by rw [restore]; rfl⟩))), .touched ?_⟩
                intro name
                rw [← isAfter, file_moveFile, kept, files, touched, Option.getD_some]
                split_ifs with isArchived isJournal
                · rw [isArchived, free]
                · rw [isJournal, touched]
                · rfl
              | some failure =>
                rw [restore, Option.isNone_some, if_neg (by simp)] at isAfter
                refine .inr ⟨?_, lines, .empty (by rw [← isAfter, moved]; rfl)⟩
                rintro (one | two | three | four | ⟨-, five⟩)
                · rw [stats] at one; cases one
                · exact read two
                · rw [claim] at three; cases three
                · rw [rename] at four; cases four
                · rw [restore] at five; cases five
            | none =>
              refine .inr ⟨?_, lines, ?_⟩
              · rintro (one | two | three | four | ⟨five, -⟩)
                · rw [stats] at one; cases one
                · exact read two
                · rw [claim] at three; cases three
                · rw [rename] at four; cases four
                · rw [settles] at five; cases five
              have again : statsOf host archived renamed = .ok found := by
                unfold statsOf
                rw [kept, touched, Option.getD_some]
                exact archiveStats_name foundIs
              have there : (renamed.file archived).isSome = true := by
                rw [kept, touched]
                rfl
              simp only [settle_run settles there again, Effect.lift, Effect.inspect] at raised
              have nothing : (({ renamed with archived := archived :: renamed.archived } : World).file journal).getD [] =
                  [] := by
                have same : ({ renamed with archived := archived :: renamed.archived } : World).file journal =
                  renamed.file journal := rfl
                rw [same, moved]
                rfl
              cases identity with
              | error e =>
                simp only at raised
                exact .empty ((Prod.mk.inj raised).2 ▸ nothing)
              | ok signer =>
                simp only at raised
                rcases ran : appendAt io journal (fun file => appendEvent host (shown journal) file
                    (buildArchive host signer stamp journal archived found))
                    { renamed with archived := archived :: renamed.archived } with ⟨e | event, left⟩
                · simp only [Effect.rescue, ran, Effect.raise] at raised
                  exact (Prod.mk.inj raised).2 ▸ cut_of_append nothing ran
                · simp only [Effect.rescue, ran, run_pure] at raised
                  cases (Prod.mk.inj raised).1

theorem reachable_stopped {keys : List PublicKey} {maxLinks : Nat} (stopped : Stopped journal world after) :
    reachable host keys maxLinks journal after = reachable host keys maxLinks journal world := by
  have touched : reachable host keys maxLinks journal (world.touch journal) =
      reachable host keys maxLinks journal world := by
    cases file : world.file journal with
    | some content => rw [touch_of_isSome (by rw [file]; rfl)]
    | none =>
      have empty : ((world.touch journal).file journal).getD [] = [] := by
        rw [World.file_touch, if_pos rfl, file]
        rfl
      rw [reachable, reachable, reachableFrom_empty empty, reachableFrom_empty (by rw [file]; rfl)]
  cases stopped with
  | unread => rfl
  | touched same => exact (reachableFrom_congr same).trans touched
  | @reserved name free =>
    have apart : journal ≠ name := by
      rintro rfl
      rw [World.file_touch, if_pos rfl] at free
      cases free
    exact (reachableFrom_write_empty free apart).trans touched

/-- After a late failure the live path leads to none of its events, or to one it did not
lead to before. -/
theorem reachable_cut {keys : List PublicKey} {maxLinks : Nat}
    (fresh : ∀ name, ∀ line ∈ linesOf world name, ∀ event, decodeLine host line = .ok (.dict event) →
      get event "event_id" ≠ .str stamp.eventId)
    (lines : linesOf world journal ≠ []) (cut : Cut host journal stamp after) :
    reachable host keys maxLinks journal after ≠ reachable host keys maxLinks journal world := by
  cases cut with
  | empty nothing =>
    intro same
    obtain ⟨line, member⟩ := List.exists_mem_of_ne_nil _ lines
    have before : line ∈ reachable host keys maxLinks journal world := linesOf_subset_reachable member
    rw [← same, reachable, reachableFrom_empty nothing] at before
    cases before
  | record line event content encoded ok named =>
    intro same
    have solid := solid_encodeEvent encoded
    have kept : ¬ Blank line := fun blank => solid.nonempty (solid.stripped.symm.trans (strip_eq_nil.mpr blank))
    have here : line ∈ linesOf after journal := by
      rw [linesOf, content, Option.getD_some, records_line_blank solid.plain kept (by decide), solid.stripped]
      exact List.mem_singleton_self line
    have inside : line ∈ reachable host keys maxLinks journal after := linesOf_subset_reachable here
    rw [same] at inside
    obtain ⟨name, stands⟩ := mem_reachableFrom inside
    exact fresh name line stands event (decodeLine_encodeEvent ok encoded) named

end Failure

/-- A call of `archive_journal` that raises leaves the events reachable from the live path
as they were exactly when it stops at the rename or before, or takes the rename back. -/
theorem failed_archive_keeps_iff {host : Host} {io : Io} {journal : Str} {identity : Except PyError Signer}
    {stamp : Stamp} {time : Time} {world after : World} {error : PyError} (keys : List PublicKey) (maxLinks : Nat)
    (fresh : ∀ name, ∀ line ∈ linesOf world name, ∀ event, decodeLine host line = .ok (.dict event) →
      get event "event_id" ≠ .str stamp.eventId)
    (raised : archiveJournal host io journal identity stamp time world = (.error error, after)) :
    reachable host keys maxLinks journal after = reachable host keys maxLinks journal world ↔
      Untouched host io journal world := by
  rcases archiveJournal_raises raised with ⟨untouched, stopped⟩ | ⟨touched, lines, cut⟩
  · exact iff_of_true (reachable_stopped stopped) untouched
  · exact iff_of_false (reachable_cut fresh lines cut) touched

/-! ## An archive without its signing key -/

/-- Without a signing key the call raises, wherever it comes to. -/
theorem archiveJournal_keyless {host : Host} {io : Io} {journal : Str} {stamp : Stamp} {time : Time}
    {world : World} {missing : PyError} :
    ∃ error after, archiveJournal host io journal (.error missing) stamp time world = (.error error, after) := by
  rcases ran : archiveJournal host io journal (.error missing) stamp time world with ⟨error | report, after⟩
  · exact ⟨error, after, rfl⟩
  · exfalso
    have keyless : Ensures (fun _ : World => True) (archiveJournal host io journal (.error missing) stamp time)
        (fun _ _ => False) (fun _ => True) := by
      unfold archiveJournal
      apply ensures_bind ensures_true
      intro stats
      apply ensures_ite
      · exact fun _ => ensures_raise (fun _ _ => trivial)
      intro positive
      apply ensures_bind ensures_true
      intro archived
      apply ensures_bind ensures_true
      intro _
      apply ensures_bind ensures_true
      intro _
      apply ensures_bind
      · exact @ensures_lift _ _ _ _ (fun _ _ => False) _ _ (fun _ _ _ found => by cases found) (fun _ _ => trivial)
      · intro _ _ never
        exact never.elim
    exact (keyless world trivial).1 report after ran

theorem statsOf_sample : statsOf sampleHost sampleJournalName sampleWorld = .ok (1, some sampleHash) := by
  have solid := solid_encodeEvent sample_lines.1
  have content : (sampleLine sampleEvents.1 ++ [10]).length ≠ 0 := by
    rw [List.length_append]
    exact Nat.succ_ne_zero _
  rw [statsOf, file_sampleWorld, Option.getD_some, archiveStats, if_neg content, sample_tail (.inr rfl),
    countEventLines, sample_records (.inr rfl)]
  rfl

/-- Nothing in the directory of the sample has the id of the second stamp. -/
theorem fresh_sample (name : Str) (line : Bytes) (member : line ∈ linesOf sampleWorld name) (event : Dict)
    (decoded : decodeLine sampleHost line = .ok (.dict event)) :
    get event "event_id" ≠ .str (sampleStamp 1).eventId := by
  have here : line = sampleLine sampleEvents.1 := by
    unfold linesOf at member
    by_cases live : name = sampleJournalName
    · rw [live, file_sampleWorld, Option.getD_some, sample_records (.inr rfl)] at member
      exact List.mem_singleton.mp member
    · have absent : sampleWorld.file name = none := by
        rw [sampleWorld, World.file_write, if_neg live, World.file_touch, if_neg live]
        rfl
      rw [absent] at member
      cases member
  rw [here, decodeLine_encodeEvent dictOk_sampleFirst sample_lines.1] at decoded
  cases decoded
  have named : get sampleEvents.1 "event_id" = .str (sampleId 0) := by
    rw [sampleEvents, Python.Value.get, Members.get_put_of_ne (by simp), Members.get_put_of_ne (by simp)]
    simp [samplePayload, checkpointPayload, Members.get, sampleStamp]
  rw [named]
  simp only [ne_eq, Json.str.injEq]
  decide

/-- The clock of the sample's archive. -/
def sampleTime : Time := ⟨2026, 1, 5, 9, 30, 0⟩

theorem touched_sample : ¬ Untouched sampleHost (fun _ => none) sampleJournalName sampleWorld := by
  rintro (stats | empty | claim | rename | ⟨settle, -⟩)
  · cases stats
  · exact absurd (empty _ statsOf_sample) (by decide)
  · cases claim
  · cases rename
  · cases settle

/-- A journal with one event loses it from its live path where the signing key cannot be
loaded. -/
theorem failed_archive_keeps_sample :
    ∃ error after, archiveJournal sampleHost (fun _ => none) sampleJournalName (.error .canonicalizationError)
        (sampleStamp 1) sampleTime sampleWorld = (.error error, after) ∧
      (reachable sampleHost [sampleKey] 1024 sampleJournalName after =
          reachable sampleHost [sampleKey] 1024 sampleJournalName sampleWorld ↔
        Untouched sampleHost (fun _ => none) sampleJournalName sampleWorld) := by
  obtain ⟨error, after, raised⟩ := archiveJournal_keyless
  exact ⟨error, after, raised, failed_archive_keeps_iff [sampleKey] 1024 fresh_sample raised⟩

theorem keyless_archive_cuts :
    ∃ (world after : World) (error : PyError),
      archiveJournal sampleHost (fun _ => none) sampleJournalName (.error .canonicalizationError) (sampleStamp 1)
        sampleTime world = (.error error, after) ∧
      reachable sampleHost [sampleKey] 1024 sampleJournalName after ≠
        reachable sampleHost [sampleKey] 1024 sampleJournalName world := by
  obtain ⟨error, after, raised⟩ := archiveJournal_keyless
  refine ⟨sampleWorld, after, error, raised, ?_⟩
  rcases archiveJournal_raises raised with ⟨untouched, -⟩ | ⟨-, lines, cut⟩
  · exact absurd untouched touched_sample
  · exact reachable_cut fresh_sample lines cut

end Tesera.Verification.Reachable
