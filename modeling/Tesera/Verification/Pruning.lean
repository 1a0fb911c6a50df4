import Tesera.Commands.Pruning
import Tesera.Verification.Presence
import Tesera.Verification.Reachable

/-!
What `archive_journal` deletes where it prunes. The new archive stands, and only archives of
the journal go, exactly if the new archive and everything else that matches the pattern is
among the newest.
-/

namespace Tesera.Verification.Pruning
open Tesera.Effects Tesera.Text Tesera.Text.Unicode Tesera.Text.Number Tesera.Python.Value
open Tesera.Journal.Payloads Tesera.Journal.Append Tesera.Journal.Store Tesera.Commands.Archive
open Tesera.Commands.Pruning Tesera.Python.Fnmatch Tesera.Retention
open Tesera.Verification.WriterRuns Tesera.Verification.Reachable Tesera.Verification.Presence

variable {host : Host} {io : Io} {journal : Str} {identity : Except PyError Signer} {stamp : Stamp} {time : Time}

/-! ## What an archive leaves -/

section Calls
variable {σ ε α β : Type} {call : Effect σ ε α} {state after : σ}

/-- The parts of a sequence that returns have returned. -/
theorem bind_returns {next : α → Effect σ ε β} {value : β} (returned : (call >>= next) state = (.ok value, after)) :
    ∃ first middle, call state = (.ok first, middle) ∧ next first middle = (.ok value, after) := by
  rw [run_bind, Effect.andThen] at returned
  rcases ran : call state with ⟨error | first, middle⟩
  · rw [ran] at returned
    cases (Prod.mk.inj returned).1
  · rw [ran] at returned
    exact ⟨first, middle, rfl, returned⟩

theorem mapError_returns {convert : ε → ε} {value : α} (returned : Effect.mapError convert call state = (.ok value, after)) :
    call state = (.ok value, after) := by
  rw [Effect.mapError, Effect.rescue] at returned
  rcases ran : call state with ⟨error | first, middle⟩
  · rw [ran] at returned
    cases (Prod.mk.inj returned).1
  · rw [ran] at returned
    exact returned

end Calls

section Returns
variable {world after : World} {stats : Nat × Option Str} {archived : Str}

/-- A re-read that agrees leaves the files alone. -/
theorem settle_returns (moved : world.file journal = none) (there : (world.file archived).isSome = true)
    (returned : settle host io journal archived stats world = (.ok (), after)) : after.files = world.files := by
  cases fails : io .settle with
  | some message =>
    obtain ⟨error, ran⟩ := @settle_fails host io journal world archived stats _ fails moved
    rw [ran] at returned
    cases (Prod.mk.inj returned).1
  | none =>
    obtain ⟨result, read, agrees⟩ := @archiveStatsAt_run host io world .settle archived fails
    by_cases found : statsOf host archived world = .ok stats
    · rw [settle_run fails there found] at returned
      rw [← (Prod.mk.inj returned).2]
    · exfalso
      rw [touch_of_isSome there] at read
      obtain ⟨restored, next, rolled⟩ : ∃ restored next, rollbackArchive io archived journal world = (.ok restored, next) := by
        unfold rollbackArchive
        split
        · exact ⟨_, _, rfl⟩
        · exact ⟨_, _, rfl⟩
      cases result with
      | error error =>
        simp only [settle, settledStats, run_bind, Effect.andThen, Effect.rescue, read] at returned
        by_cases journalError : isJournalError error = true
        · simp [journalError, rolled, run_bind, Effect.andThen, Effect.raise] at returned
        · simp [journalError, Effect.raise] at returned
      | ok settled =>
        have differs : settled ≠ stats := by
          intro same
          exact found (same ▸ (agrees settled).mp rfl)
        simp only [settle, settledStats, run_bind, Effect.andThen, Effect.rescue, read, if_neg differs, rolled] at returned
        cases restored <;> simp [Effect.raise] at returned

theorem attempt_returns {point : Point} (returned : attempt io point world = (.ok (), after)) : after = world := by
  cases passes : io point with
  | none =>
    rw [attempt_none passes] at returned
    exact (Prod.mk.inj returned).2.symm
  | some message =>
    rw [attempt_some passes] at returned
    cases (Prod.mk.inj returned).1

/-- An append that returns has built its event on the content of the file, and written it. -/
theorem appendAt_written {name : Str} {append : Option Bytes → Except PyError Appended} {event : Dict}
    (returned : appendAt io name append world = (.ok event, after)) :
    ∃ appended, append ((world.touch name).file name) = .ok appended ∧ appended.event = event ∧
      after = (world.touch name).write name appended.content := by
  obtain ⟨_, opened, opening, returned⟩ := bind_returns (mapError_returns returned)
  obtain ⟨_, touched, touching, returned⟩ := bind_returns returned
  obtain ⟨appended, read, reading, returned⟩ := bind_returns returned
  obtain ⟨_, writable, attempted, returned⟩ := bind_returns returned
  obtain ⟨_, written, writing, returned⟩ := bind_returns returned
  obtain ⟨_, flushed, flushing, returned⟩ := bind_returns returned
  cases attempt_returns opening
  cases touching
  have unread : read = world.touch name := (Prod.mk.inj reading).2.symm
  subst unread
  cases attempt_returns attempted
  cases writing
  cases attempt_returns flushing
  cases returned
  exact ⟨appended, (Prod.mk.inj reading).1, rfl, rfl⟩

theorem archiveStatsAt_returns {point : Point} {name : Str} (returned : archiveStatsAt host io point name world = (.ok stats, after)) :
    after = world.touch name ∧ statsOf host name world = .ok stats := by
  cases passes : io point with
  | some message =>
    rw [archiveStatsAt_fails passes] at returned
    cases (Prod.mk.inj returned).1
  | none =>
    obtain ⟨result, read, agrees⟩ := @archiveStatsAt_run host io world point name passes
    rw [read] at returned
    obtain ⟨same, rfl⟩ := Prod.mk.inj returned
    exact ⟨rfl, (agrees stats).mp same⟩

/-- The name that is claimed is free, and an archive that returns adds it and nothing else. -/
structure Rotated (journal : Str) (time : Time) (world after : World) (archived : Str) : Prop where
  named : archived = claimed world journal time
  free : world.file archived = none
  live : (world.file journal).isSome = true
  names : ∀ name, (after.file name).isSome = true ↔
    name = archived ∨ name = journal ∨ (world.file name).isSome = true

theorem archiveJournal_returns {report : ArchiveReport}
    (returned : archiveJournal host io journal identity stamp time world = (.ok report, after)) :
    Rotated journal time world after report.archivedPath := by
  obtain ⟨stats, counted, counting, returned⟩ := bind_returns returned
  obtain ⟨rfl, found⟩ := archiveStatsAt_returns (mapError_returns counting)
  by_cases nothing : stats.1 = 0
  · simp only [if_pos nothing, Effect.raise] at returned
    cases (Prod.mk.inj returned).1
  · have live : (world.file journal).isSome = true := by
      by_contra absent
      apply lines_of_stats found nothing
      simp only [Option.isSome_iff_ne_none, ne_eq, not_not] at absent
      rw [linesOf, absent]
      rfl
    simp only [touch_of_isSome live, if_neg nothing] at returned
    obtain ⟨archived, reserved, claiming, returned⟩ := bind_returns returned
    obtain ⟨_, renamed, replacing, returned⟩ := bind_returns returned
    obtain ⟨_, settled, settling, returned⟩ := bind_returns returned
    obtain ⟨signer, loaded, loading, returned⟩ := bind_returns returned
    obtain ⟨event, last, appending, returned⟩ := bind_returns returned
    have free : world.file (claimed world journal time) = none := freeIndex_free world.files journal time
    have claims : archived = claimed world journal time ∧ reserved = world.write archived [] := by
      cases passes : io .claim with
      | some message =>
        obtain ⟨e, ran⟩ := @claimArchivePath_fails io journal time world _ passes
        rw [ran] at claiming
        cases (Prod.mk.inj claiming).1
      | none =>
        rw [claimArchivePath_run passes] at claiming
        cases claiming
        exact ⟨rfl, rfl⟩
    obtain ⟨named, written⟩ := claims
    rw [← named] at free
    rw [written] at replacing
    have apart : archived ≠ journal := by
      intro same
      rw [same] at free
      simp [free] at live
    have moved : renamed = moveFile journal archived (world.write archived []) := by
      cases passes : io .rename with
      | some message =>
        obtain ⟨e, ran⟩ := @renameJournal_fails io journal (world.write archived []) archived _ passes
        rw [ran] at replacing
        cases (Prod.mk.inj replacing).1
      | none =>
        rw [renameJournal_run passes] at replacing
        exact (Prod.mk.inj replacing).2.symm
    have files : ∀ name, renamed.file name = if name = journal then none
        else if name = archived then world.file journal else world.file name := by
      intro name
      rw [moved, file_moveFile, World.file_write, World.file_write, if_neg apart.symm]
      obtain ⟨content, read⟩ := Option.isSome_iff_exists.mp live
      split_ifs <;> simp [read]
    have same : settled.files = renamed.files := by
      apply settle_returns _ _ settling
      · rw [files, if_pos rfl]
      · rw [files, if_neg apart, if_pos rfl]
        exact live
    have unchanged : loaded = settled := (Prod.mk.inj loading).2.symm
    obtain ⟨written, _, _, appended⟩ := appendAt_written (mapError_returns appending)
    cases returned
    refine ⟨named, free, live, ?_⟩
    intro name
    have kept : loaded.file name = renamed.file name := by rw [World.file, World.file, unchanged, same]
    rw [appended, World.file_write, World.file_touch, kept, files]
    split_ifs with isLive isArchived
    · simp [isLive]
    · simp [isArchived, live]
    · simp [isLive, isArchived]

end Returns

/-! ## What a pruning deletes -/

/-- The key of a name whose time can be read. -/
def keyOf (stat : Str → Stat) (name : Str) : Int ×ₗ Str := toLex ((stat name).mtime.toOption.getD 0, name)

/-- What matches the pattern once the journal has been archived under a name. -/
def matching (journal archived : Str) (directory : Directory) : Finset Str :=
  (insert archived directory.names.toFinset).filter (fun name => fnmatchcase name (archivePattern journal) = true)

/-- What was modified after a name, or has a greater name and the same time. -/
def newer (stat : Str → Stat) (names : Finset Str) (name : Str) : Finset Str :=
  names.filter (fun other => keyOf stat name < keyOf stat other)

section Prunes
variable {stat : Str → Stat} {names pruned : List Str} {world after : World} {directory : Directory} {keys : List (Int ×ₗ Str)}

theorem file_unlinkAll (stat : Str → Stat) (names : List Str) (world : World) (other : Str) :
    (unlinkAll stat names world).2.file other =
      if other ∈ names ∧ (stat other).removable = true then none else world.file other := by
  induction names generalizing world with
  | nil => simp [unlinkAll]
  | cons name names ih =>
    rw [unlinkAll]
    by_cases removable : (stat name).removable = true
    · rw [if_pos removable, ih, World.file_remove]
      by_cases same : other = name
      · subst same
        simp [removable]
      · simp [same]
    · rw [if_neg removable, ih]
      by_cases same : other = name
      · subst same
        simp [removable]
      · simp [same]

theorem sortKeys_eq (sorted : sortKeys directory names = .ok keys) : keys = names.map (keyOf directory.stat) := by
  induction names generalizing keys with
  | nil =>
    cases sorted
    rfl
  | cons name names ih =>
    rw [sortKeys, List.mapM_cons] at sorted
    cases time : (directory.stat name).mtime with
    | error e =>
      rw [time] at sorted
      cases sorted
    | ok mtime =>
      rw [time] at sorted
      rcases rest : sortKeys directory names with error | others
      · rw [sortKeys] at rest
        rw [rest] at sorted
        cases sorted
      · have tail := ih rest
        rw [sortKeys] at rest
        rw [rest] at sorted
        cases sorted
        rw [List.map_cons, tail, keyOf, time]
        rfl

theorem keyOf_mem_oldest {names : List Str} (distinct : names.Nodup) (name : Str) (keep : Nat) :
    keyOf stat name ∈ oldest keep (names.map (keyOf stat)) ↔
      name ∈ names ∧ keep ≤ (newer stat names.toFinset name).card := by
  have injective : Function.Injective (keyOf stat) := by
    intro one other same
    exact (Prod.mk.inj (toLex.injective same)).2
  have count : (Retention.after (names.map (keyOf stat)) (keyOf stat name)).length = (newer stat names.toFinset name).card := by
    have same : newer stat names.toFinset name =
        (names.filter (fun other => decide (keyOf stat name < keyOf stat other))).toFinset := by
      ext other
      simp [newer]
    rw [Retention.after, List.filter_map, List.length_map, same, List.toFinset_card_of_nodup (distinct.filter _)]
    rfl
  rw [mem_oldest_iff (distinct.map injective), List.mem_map_of_injective injective, count]

/-- A pruning deletes what can be removed and is not among the newest of what matches. -/
theorem file_pruneArchives {journal : Str} {keep : Nat} {final : Directory}
    (returned : pruneArchives journal keep directory = (.ok pruned, final)) (name : Str) :
    final.world.file name = if (name ∈ archivesOf journal directory ∧
        keep ≤ (newer directory.stat (archivesOf journal directory).toFinset name).card) ∧
        (directory.stat name).removable = true then none else directory.world.file name := by
  rw [pruneArchives] at returned
  rcases sorted : sortKeys directory (archivesOf journal directory) with error | keys
  · rw [sorted] at returned
    cases (Prod.mk.inj returned).1
  · rw [sorted] at returned
    have mapped := sortKeys_eq sorted
    have distinct : (archivesOf journal directory).Nodup := (List.nodup_dedup _).filter _
    have doomed : name ∈ (oldest keep keys).map (fun key => (ofLex key).2) ↔ name ∈ archivesOf journal directory ∧
        keep ≤ (newer directory.stat (archivesOf journal directory).toFinset name).card := by
      rw [← keyOf_mem_oldest distinct, ← mapped, List.mem_map]
      constructor
      · intro ⟨key, old, named⟩
        have inside := mem_oldest old
        rw [mapped] at inside
        obtain ⟨other, _, rfl⟩ := List.mem_map.mp inside
        have same : other = name := named
        exact same ▸ old
      · exact fun old => ⟨keyOf directory.stat name, old, rfl⟩
    rw [← (Prod.mk.inj returned).2, file_unlinkAll]
    simp only [doomed]

theorem mem_names (name : Str) : name ∈ directory.names ↔ (directory.world.file name).isSome = true := by
  rw [Directory.names, List.mem_dedup, World.file, Members.isSome_get]

/-- The pruning finds the new archive among what was there before. -/
theorem archivesOf_rotated {journal archived : Str} {time : Time} {found : Directory}
    (rotated : Rotated journal time directory.world found.world archived) :
    (archivesOf journal found).toFinset = matching journal archived directory := by
  ext name
  simp only [archivesOf, matching, List.toFinset_filter, Finset.mem_filter, List.mem_toFinset, Finset.mem_insert, mem_names,
    rotated.names]
  have live : name = journal → (directory.world.file name).isSome = true := fun same => same ▸ rotated.live
  tauto

end Prunes

/-! ## The theorem -/

/-- Fewer than are to be kept are newer than the new archive, and than everything that matches
the pattern, can be removed and is no earlier archive of the journal. -/
def Spared (journal archived : Str) (made : Str → Prop) (keep : Int) (directory : Directory) (stat : Str → Stat) : Prop :=
  ∀ name ∈ matching journal archived directory, (stat name).removable = true → name = archived ∨ ¬ made name →
    (newer stat (matching journal archived directory) name).card < keep.toNat

/-- The name that an archive takes. -/
theorem archiveKeeping_returns {fresh : Stat} {keep : Int} {directory after : Directory} {report : ArchiveReport}
    {pruned : List Str} (returned : archiveKeeping host io journal identity stamp time fresh keep directory =
      (.ok (report, pruned), after)) :
    ∃ world, Rotated journal time directory.world world report.archivedPath ∧ ∀ name, after.world.file name =
      if (name ∈ matching journal report.archivedPath directory ∧
          keep.toNat ≤ (newer (renamedStat directory.stat journal report.archivedPath fresh)
            (matching journal report.archivedPath directory) name).card) ∧
        (renamedStat directory.stat journal report.archivedPath fresh name).removable = true then none
      else world.file name := by
  rw [archiveKeeping] at returned
  split_ifs at returned with few
  · cases (Prod.mk.inj returned).1
  rcases archiving : archiveJournal host io journal identity stamp time directory.world with ⟨error | archive, world⟩
  · rw [archiving] at returned
    cases (Prod.mk.inj returned).1
  rw [archiving] at returned
  simp only at returned
  have rotated := archiveJournal_returns archiving
  rcases pruning : pruneArchives journal keep.toNat
      ⟨world, renamedStat directory.stat journal archive.archivedPath fresh⟩ with ⟨error | deleted, final⟩
  · rw [pruning] at returned
    cases (Prod.mk.inj returned).1
  rw [pruning] at returned
  obtain ⟨reported, rfl⟩ := Prod.mk.inj returned
  have same : archive = report := (Prod.mk.inj (Except.ok.inj reported)).1
  subst same
  have found : (archivesOf journal ⟨world, renamedStat directory.stat journal archive.archivedPath fresh⟩).toFinset =
      matching journal archive.archivedPath directory := archivesOf_rotated rotated
  have inside : ∀ name, name ∈ archivesOf journal ⟨world, renamedStat directory.stat journal archive.archivedPath fresh⟩ ↔
      name ∈ matching journal archive.archivedPath directory := fun name => by rw [← found, List.mem_toFinset]
  refine ⟨world, rotated, ?_⟩
  have file := file_pruneArchives pruning
  simpa only [found, inside] using file

/-- An archive that prunes and returns leaves the new archive, and deletes only what earlier
archives of the journal have made, exactly if those and only those that are to be kept
can be among the newest. -/
theorem pruning_keeps_iff (host : Host) (io : Io) (journal : Str) (identity : Except PyError Signer) (stamp : Stamp)
    (time : Time) (fresh : Stat) (keep : Int) (made : Str → Prop) {directory after : Directory} {report : ArchiveReport}
    {pruned : List Str} (returned : archiveKeeping host io journal identity stamp time fresh keep directory =
      (.ok (report, pruned), after)) :
    ((after.world.file report.archivedPath).isSome = true ∧
      ∀ name, (directory.world.file name).isSome = true → after.world.file name = none → made name) ↔
    Spared journal (claimed directory.world journal time) made keep directory
      (renamedStat directory.stat journal (claimed directory.world journal time) fresh) := by
  obtain ⟨world, rotated, file⟩ := archiveKeeping_returns returned
  rw [← rotated.named]
  have names := rotated.names
  generalize renamedStat directory.stat journal report.archivedPath fresh = stat at file
  constructor
  · intro ⟨stands, frame⟩ name member removable which
    by_contra many
    have gone : after.world.file name = none := by
      rw [file, if_pos ⟨⟨member, Nat.not_lt.mp many⟩, removable⟩]
    by_cases new : name = report.archivedPath
    · rw [new] at gone
      simp [gone] at stands
    · have before : (directory.world.file name).isSome = true := by
        have listed := (Finset.mem_insert.mp (Finset.mem_filter.mp member).1).resolve_left new
        exact (mem_names name).mp (List.mem_toFinset.mp listed)
      exact which.resolve_left new (frame name before gone)
  · intro spared
    have kept : ∀ name, name = report.archivedPath ∨ ¬ made name → after.world.file name = world.file name := by
      intro name which
      rw [file, if_neg]
      intro ⟨⟨member, many⟩, removable⟩
      exact absurd many (Nat.not_le.mpr (spared name member removable which))
    constructor
    · rw [kept _ (.inl rfl)]
      exact (names _).mpr (.inl rfl)
    · intro name before gone
      by_contra foreign
      rw [kept name (.inr foreign)] at gone
      have there := (names name).mpr (.inr (.inr before))
      simp [gone] at there

/-! ## A sibling -/

theorem sortKeys_succeeds {directory : Directory} (timed : ∀ name, (directory.stat name).mtime.isOk = true) (names : List Str) :
    ∃ keys, sortKeys directory names = .ok keys := by
  induction names with
  | nil => exact ⟨[], rfl⟩
  | cons name names ih =>
    obtain ⟨keys, rest⟩ := ih
    rw [sortKeys] at rest ⊢
    have readable := timed name
    cases time : (directory.stat name).mtime with
    | error e =>
      rw [time] at readable
      cases readable
    | ok mtime =>
      rw [List.mapM_cons, rest, time]
      exact ⟨_, rfl⟩

/-- Where nothing fails and the times can be read, an archive that prunes returns. -/
theorem archiveKeeping_completes {fresh : Stat} {keep : Int} {directory : Directory} {signer : Signer}
    {stats : Nat × Option Str} {appended : Appended} (positive : ¬ keep < 1)
    (live : (directory.world.file journal).isSome = true) (found : statsOf host journal directory.world = .ok stats)
    (filled : stats.1 ≠ 0)
    (built : appendEvent host (shown journal) (some []) (buildArchive host signer stamp journal
      (claimed directory.world journal time) stats) = .ok appended)
    (timed : ∀ name, (renamedStat directory.stat journal (claimed directory.world journal time) fresh name).mtime.isOk = true) :
    ∃ report pruned after, archiveKeeping host (fun _ => none) journal (.ok signer) stamp time fresh keep directory =
      (.ok (report, pruned), after) := by
  obtain ⟨result, read, agrees⟩ := @archiveStatsAt_run host (fun _ => none) directory.world .stats journal rfl
  rw [(agrees stats).mpr found, touch_of_isSome live] at read
  have free : directory.world.file (claimed directory.world journal time) = none := freeIndex_free _ journal time
  generalize chosen : claimed directory.world journal time = archived at built timed free
  have apart : archived ≠ journal := by
    intro same
    rw [same] at free
    simp [free] at live
  have renames : renameJournal (fun _ => none) journal archived (directory.world.write archived []) =
      (.ok (), moveFile journal archived (directory.world.write archived [])) := renameJournal_run rfl
  have claims : claimArchivePath (fun _ => none) journal time directory.world =
      (.ok archived, directory.world.write archived []) := by rw [claimArchivePath_run rfl, chosen]
  have there : ((moveFile journal archived (directory.world.write archived [])).file archived) = directory.world.file journal := by
    obtain ⟨content, read⟩ := Option.isSome_iff_exists.mp live
    rw [file_moveFile, if_neg apart, if_pos rfl, World.file_write, if_neg apart.symm, read]
    rfl
  have settles := @settle_run host (fun _ => none) journal (moveFile journal archived (directory.world.write archived []))
    archived stats rfl (there ▸ live) (by
      rw [statsOf, there]
      exact archiveStats_name found)
  have gone : (moveFile journal archived (directory.world.write archived [])).file journal = none := by
    rw [file_moveFile, if_pos rfl]
  generalize moveFile journal archived (directory.world.write archived []) = moved at settles gone renames
  have empty : (World.touch { moved with archived := archived :: moved.archived } journal).file journal = some [] := by
    rw [World.file_touch, if_pos rfl]
    change some ((moved.file journal).getD []) = some []
    rw [gone]
    rfl
  have appends := @WriterRuns.appendAt_returns journal (fun file => appendEvent host (shown journal) file
    (buildArchive host signer stamp journal archived stats)) _ appended (empty ▸ built)
  obtain ⟨final, archives⟩ : ∃ final, archiveJournal host (fun _ => none) journal (.ok signer) stamp time directory.world =
      (.ok ⟨archived, appended.event, stats.1, stats.2⟩, final) := by
    simp only [archiveJournal, run_bind, Effect.andThen, Effect.mapError, Effect.rescue, read, if_neg filled, claims,
      renames, settles, Effect.lift, Effect.inspect, appends, run_pure]
    exact ⟨_, rfl⟩
  have sortable : ∃ keys, sortKeys ⟨final, renamedStat directory.stat journal archived fresh⟩
      (archivesOf journal ⟨final, renamedStat directory.stat journal archived fresh⟩) = .ok keys := sortKeys_succeeds timed _
  obtain ⟨keys, sorted⟩ := sortable
  rw [archiveKeeping, if_neg positive, archives]
  simp only [pruneArchives, sorted]
  exact ⟨_, _, _, rfl⟩

def siblingName : Str := lit "journal-eu.jsonl"

def statAt (mtime : Int) : Stat := ⟨.ok mtime, true⟩

/-- The journal with one record, beside a journal of another name that was written before. -/
def siblings : Directory where
  world := ⟨[(siblingName, rotationContent), (rotationSetup.journal, rotationContent)], []⟩
  stat := fun name => statAt (if name = siblingName then 10 else 20)

theorem claimed_siblings : claimed siblings.world rotationSetup.journal rotationSetup.time = rotationArchived := by
  decide +kernel

theorem siblings_archive (keep : Int) (positive : ¬ keep < 1) : ∃ report pruned after,
    archiveKeeping rotationHost (fun _ => none) rotationSetup.journal (.ok rotationSigner) rotationSetup.stamp
      rotationSetup.time (statAt 30) keep siblings = (.ok (report, pruned), after) := by
  have live : siblings.world.file rotationSetup.journal = some rotationContent := by
    simp [World.file, siblings, Members.get, siblingName, rotationSetup]
  have found : statsOf rotationHost rotationSetup.journal siblings.world = .ok (1, rotationHead) := by
    rw [statsOf, live]
    exact stats_rotationContent _
  obtain ⟨made, encoded⟩ := buildLine_eq_ok rotation_link
  have built : appendEvent rotationHost (shown rotationSetup.journal) (some []) (buildArchive rotationHost rotationSigner
      rotationSetup.stamp rotationSetup.journal rotationArchived (1, rotationHead)) =
        .ok ⟨[] ++ ((rotationLine 2).2 ++ [10]), (rotationLine 2).1, none⟩ :=
    appendBuilt_eq_ok.mpr ⟨_, rfl, made, encoded, rfl⟩
  rw [← claimed_siblings] at built
  refine archiveKeeping_completes positive (live ▸ rfl) found (by decide) built ?_
  intro name
  unfold renamedStat siblings
  split_ifs <;> rfl

theorem pruning_keeps_iff_sample : ∃ (report : ArchiveReport) (after : Directory),
    ((after.world.file report.archivedPath).isSome = true ∧
      ∀ name, (siblings.world.file name).isSome = true → after.world.file name = none → False) ↔
    Spared rotationSetup.journal (claimed siblings.world rotationSetup.journal rotationSetup.time) (fun _ => False) 3
      siblings (renamedStat siblings.stat rotationSetup.journal
        (claimed siblings.world rotationSetup.journal rotationSetup.time) (statAt 30)) := by
  obtain ⟨report, pruned, after, returned⟩ := siblings_archive 3 (by decide)
  exact ⟨report, after, pruning_keeps_iff _ _ _ _ _ _ _ _ _ returned⟩

/-- No archive of the journal has the name of the sibling. -/
theorem archiveName_ne_sibling (time : Time) (index : Nat) : archiveName rotationSetup.journal time index ≠ siblingName := by
  intro same
  have rest := congrArg (List.drop 8) same
  have stemmed : stem rotationSetup.journal = lit "journal" := by decide
  rw [archiveName, stemmed] at rest
  have cut : time.text ++ ((if index = 0 then [] else 45 :: (decimal index).text) ++ lit ".jsonl") = lit "eu.jsonl" := rest
  cases text : time.text with
  | nil => simp [Time.text] at text
  | cons c others =>
    rw [text] at cut
    have head : c = 101 := (List.cons.inj cut).1
    have inside := @mem_text time c (by rw [text]; exact List.mem_cons_self)
    rw [head] at inside
    revert inside
    decide

/-- With one archive to keep, the live journal that another name has is deleted. -/
theorem sibling_deleted : ∃ (report : ArchiveReport) (pruned : List Str) (after : Directory),
    archiveKeeping rotationHost (fun _ => none) rotationSetup.journal (.ok rotationSigner) rotationSetup.stamp
      rotationSetup.time (statAt 30) 1 siblings = (.ok (report, pruned), after) ∧
    (siblings.world.file siblingName).isSome = true ∧ after.world.file siblingName = none ∧
    ∀ time index, archiveName rotationSetup.journal time index ≠ siblingName := by
  obtain ⟨report, pruned, after, returned⟩ := siblings_archive 1 (by decide)
  obtain ⟨world, rotated, file⟩ := archiveKeeping_returns returned
  refine ⟨report, pruned, after, returned, by decide +kernel, ?_, archiveName_ne_sibling⟩
  have named := rotated.named
  rw [claimed_siblings] at named
  rw [named] at file
  rw [file, if_pos]
  decide +kernel

end Tesera.Verification.Pruning
