import Tesera.Commands.Witnesses
import Tesera.Verification.Pruning

/-!
What a pruning of the shipped witnesses keeps. The newest files have the greatest counts as
long as each witness is of a journal with no fewer events than any witness before committed to,
and comes after those with fewer in the order of the files.
-/

namespace Tesera.Verification.WitnessBounds
open Tesera.Effects Tesera.Text Tesera.Text.Unicode Tesera.Text.Lines Tesera.Python.Value Tesera.Canonical
open Tesera.Journal.Payloads Tesera.Journal.Append Tesera.Journal.Store
open Tesera.Commands.Archive Tesera.Commands.Checkpoint Tesera.Commands.Witnesses Tesera.Retention
open Tesera.Verification.Preserve Tesera.Verification.WriterRuns Tesera.Verification.Pruning Tesera.Transition

/-! ## The count of a checkpoint -/

section Count
variable {host : Host} {io : Io} {journal : Str} {identity : Except PyError Signer} {stamp : Stamp}
  {witness : WitnessPath} {world after : World} {report : CheckpointReport}

/-- The events of the live file. -/
def liveCount (journal : Str) (world : World) : Nat := countEventLines ((world.file journal).getD [])

/-- A checkpoint commits to the events that the live file had. -/
theorem checkpointJournal_count
    (returned : checkpointJournal host io journal identity stamp witness world = (.ok report, after)) :
    report.count = liveCount journal world := by
  obtain ⟨signer, _, loading, returned⟩ := bind_returns returned
  obtain ⟨event, _, appending, returned⟩ := bind_returns returned
  obtain ⟨text, _, _, returned⟩ := bind_returns returned
  obtain ⟨_, _, _, returned⟩ := bind_returns returned
  obtain ⟨count, _, counting, returned⟩ := bind_returns returned
  have reported : report.count = count := by
    rw [← Except.ok.inj (Prod.mk.inj returned).1]
  cases (Prod.mk.inj loading).2
  obtain ⟨appended, built, same, _⟩ := appendAt_written appending
  have content : ((world.touch journal).file journal).getD [] = (world.file journal).getD [] := by
    rw [World.file_touch, if_pos rfl, Option.getD_some]
  obtain ⟨line, tail, made, encoded, _⟩ := appendBuilt_eq_ok.mp built
  obtain ⟨digest, signature, _, _, event_eq⟩ := finalizeEvent_eq_ok.mp made
  have committed : item event "checkpoint_count" = .ok (.int (liveCount journal world)) := by
    rw [← same, event_eq, item, Members.get_put_of_ne (by decide), Members.get_put_of_ne (by decide), liveCount, content]
    simp [checkpointPayload, Members.get]
  rw [reported]
  have read := (Prod.mk.inj counting).1
  rw [committed] at read
  exact (Except.ok.inj read).symm

end Count

/-! ## Runs -/

/-- The journal and the directory of its witnesses, with the time of the last copy. -/
structure Filling where
  state : State
  clock : Int

/-- Nothing has been shipped. -/
def start (world : World) (clock : Int) : Filling := ⟨⟨world, none⟩, clock⟩

/-- An operation on the journal, the shipping of a witness, or a pruning. -/
inductive Action where
  | operate (io : Io) (op : Op)
  | witness (io : Io) (identity : Except PyError Signer) (stamp : Stamp) (time : Time) (mtime : Int)
      (faults : CopyFaults) (counter : Option Counter)
  | prune (directory : Str) (faults : PruneFaults) (keep : Int)

/-- File times do not go back. -/
def step (host : Host) (journal : Str) (filling : Filling) : Action → Option Filling
  | .operate io op =>
      some { filling with state := { filling.state with world := (op.run host journal io filling.state.world).2 } }
  | .witness io identity stamp time mtime faults counter =>
      if filling.clock ≤ mtime then
        some ⟨(witnessJournal host io journal identity stamp time mtime faults counter filling.state).2, mtime⟩
      else none
  | .prune directory faults keep =>
      some { filling with state := (pruneWitnesses directory faults keep filling.state).2 }

def copies (state : State) : Vault := state.vault.getD []

def keyOf (name : Str) (shipped : Shipped) : Int ×ₗ Str := toLex (shipped.mtime, name)

/-- A witness is of a journal with at least as many events as any copy commits to, and comes
after the copies that commit to fewer. -/
def Grows (journal : Str) (filling : Filling) : Action → Prop
  | .witness _ _ _ time mtime _ _ => ∀ entry ∈ copies filling.state, entry.1 ≠ latestName →
      entry.2.count ≤ liveCount journal filling.state.world ∧
      (entry.2.count < liveCount journal filling.state.world →
        keyOf entry.1 entry.2 < toLex (mtime, targetName (copies filling.state) time))
  | _ => True

/-- Among the copies, one that commits to fewer events comes first. -/
def Ordered (vault : Vault) : Prop := ∀ one ∈ vault, one.1 ≠ latestName → ∀ other ∈ vault, other.1 ≠ latestName →
  one.2.count < other.2.count → keyOf one.1 one.2 < keyOf other.1 other.2

section Steps
variable {host : Host} {journal : Str} {vault : Vault}

theorem Ordered.subset {fewer : Vault} (ordered : Ordered vault) (inside : ∀ entry ∈ fewer, entry ∈ vault) : Ordered fewer :=
  fun one found named other foundOther namedOther less =>
    ordered one (inside one found) named other (inside other foundOther) namedOther less

theorem Ordered.put {name : Str} {shipped : Shipped} (ordered : Ordered vault)
    (grows : ∀ entry ∈ vault, entry.1 ≠ latestName →
      entry.2.count ≤ shipped.count ∧ (entry.2.count < shipped.count → keyOf entry.1 entry.2 < keyOf name shipped)) :
    Ordered (Members.put name shipped vault) := by
  intro one found named other foundOther namedOther less
  apply (Members.mem_put found).elim
  · intro new
    subst new
    apply (Members.mem_put foundOther).elim
    · intro same
      subst same
      exact absurd less (lt_irrefl _)
    · intro old
      exact absurd (grows other old namedOther).1 (not_le.mpr less)
  · intro old
    apply (Members.mem_put foundOther).elim
    · intro new
      subst new
      exact (grows one old named).2 less
    · intro oldOther
      exact ordered one old named other oldOther namedOther less

theorem Ordered.putLatest {shipped : Shipped} (ordered : Ordered vault) : Ordered (Members.put latestName shipped vault) := by
  intro one found named other foundOther namedOther less
  have old := (Members.mem_put found).resolve_left (fun new => named (congrArg Prod.fst new))
  have oldOther := (Members.mem_put foundOther).resolve_left (fun new => namedOther (congrArg Prod.fst new))
  exact ordered one old named other oldOther namedOther less

/-- A shipping leaves the copies, adds one, or adds it and replaces the latest. -/
theorem ordered_shipWitness {faults : CopyFaults} {time : Time} {shipped : Shipped} (ordered : Ordered vault)
    (grows : ∀ entry ∈ vault, entry.1 ≠ latestName → entry.2.count ≤ shipped.count ∧
      (entry.2.count < shipped.count → keyOf entry.1 entry.2 < keyOf (targetName vault time) shipped)) :
    Ordered (shipWitness faults time shipped vault).2 := by
  simp only [shipWitness]
  cases faults.target with
  | some error => exact ordered
  | none =>
    cases faults.latest with
    | some error => exact ordered.put grows
    | none => exact (ordered.put grows).putLatest

/-- The copies after a run are those that the shipping leaves, if it gets that far. -/
theorem copies_witnessJournal {io : Io} {identity : Except PyError Signer} {stamp : Stamp} {time : Time} {mtime : Int}
    {faults : CopyFaults} {counter : Option Counter} {state : State} :
    copies (witnessJournal host io journal identity stamp time mtime faults counter state).2 = copies state ∨
      ∃ shipped : Shipped, shipped.mtime = mtime ∧ shipped.count = liveCount journal state.world ∧
        copies (witnessJournal host io journal identity stamp time mtime faults counter state).2 =
          (shipWitness faults time shipped (copies state)).2 := by
  rw [witnessJournal]
  rcases checkpointing : checkpointJournal host io journal identity stamp .beside state.world with ⟨error | report, world⟩
  · exact .inl rfl
  · right
    have count := checkpointJournal_count checkpointing
    simp only
    refine ⟨⟨(world.file (journal ++ lit ".checkpoint")).getD [], report.count, mtime⟩, rfl, count, ?_⟩
    change _ = (shipWitness faults time _ (state.vault.getD [])).2
    rcases shipWitness faults time ⟨(world.file (journal ++ lit ".checkpoint")).getD [], report.count, mtime⟩
        (state.vault.getD []) with ⟨error | target, after⟩
    · rfl
    · simp only
      cases counter with
      | none => rfl
      | some counter =>
        simp only
        rcases Effect.mapError countersignFailed (Commands.Operator.countersignJournal host counter.io journal counter.identity
            counter.stamp) world with ⟨error | countersigned, last⟩
        · rfl
        · rfl

theorem copies_pruneWitnesses (directory : Str) (faults : PruneFaults) (keep : Int) (state : State) :
    ∀ entry ∈ copies (pruneWitnesses directory faults keep state).2, entry ∈ copies state := by
  intro entry found
  rw [pruneWitnesses] at found
  split_ifs at found
  · exact found
  · cases holds : state.vault with
    | none =>
      simp only [holds] at found
      exact found
    | some vault =>
      simp only [holds] at found
      have kept : entry ∈ vault := by
        split_ifs at found
        · exact List.mem_of_mem_filter found
        · exact List.mem_of_mem_filter found
      rw [copies, holds]
      exact kept

theorem ordered_step {filling next : Filling} {action : Action} (grows : Grows journal filling action)
    (ordered : Ordered (copies filling.state)) (taken : step host journal filling action = some next) :
    Ordered (copies next.state) := by
  cases action with
  | operate io op =>
    cases taken
    exact ordered
  | witness io identity stamp time mtime faults counter =>
    simp only [step, Option.ite_none_right_eq_some, Option.some.injEq] at taken
    obtain ⟨_, rfl⟩ := taken
    apply copies_witnessJournal.elim
    · intro same
      rw [same]
      exact ordered
    · intro ⟨shipped, written, count, same⟩
      subst written
      rw [same]
      apply ordered_shipWitness ordered
      intro entry found named
      rw [count]
      exact grows entry found named
  | prune directory faults keep =>
    cases taken
    exact ordered.subset (copies_pruneWitnesses directory faults keep filling.state)

end Steps

/-! ## The bound -/

section Bound
variable {vault : Vault} {faults : PruneFaults}

theorem mem_regular {key : Int ×ₗ Str} (member : key ∈ regular faults vault) :
    ∃ shipped, Members.get vault (nameOf key) = some shipped ∧ key = keyOf (nameOf key) shipped ∧ nameOf key ≠ latestName := by
  obtain ⟨name, candidate, found⟩ := List.mem_filterMap.mp member
  split_ifs at found
  obtain ⟨shipped, read, rfl⟩ := Option.map_eq_some_iff.mp found
  have named := (List.mem_filter.mp candidate).2
  simp only [Bool.and_eq_true, bne_iff_ne, ne_eq] at named
  exact ⟨shipped, read, rfl, named.2⟩

theorem pruneWitnesses_report {directory : Str} {keep : Int} {state after : State} {report : PruneReport}
    (filled : state.vault = some vault) (pruned : pruneWitnesses directory faults keep state = (.ok report, after)) :
    report.kept = (newest keep.toNat (regular faults vault)).map nameOf ++ (candidates vault).filter faults.unassessed ∧
      ∀ name ∈ report.deleted, name ∈ (oldest keep.toNat (regular faults vault)).map nameOf := by
  rw [pruneWitnesses] at pruned
  split_ifs at pruned
  · cases (Prod.mk.inj pruned).1
  · simp only [filled] at pruned
    split_ifs at pruned
    · cases (Prod.mk.inj pruned).1
    · have same := Except.ok.inj (Prod.mk.inj pruned).1
      subst same
      exact ⟨rfl, fun name found => List.mem_of_mem_filter found⟩

/-- In every run in which the witnesses grow, a pruning that can read the time of every copy keeps
none that commits to fewer events than one that it deletes. -/
theorem strongest_bounds_kept (host : Host) (journal directory : Str) (world : World) (clock keep : Int)
    {actions : List Action} {last : Filling}
    (run : Run (step host journal) (Grows journal) (start world clock) actions last)
    {vault : Vault} (filled : last.state.vault = some vault) (readable : ∀ name, faults.unassessed name = false)
    {report : PruneReport} {after : State}
    (pruned : pruneWitnesses directory faults keep last.state = (.ok report, after)) :
    ∀ kept ∈ report.kept, ∀ deleted ∈ report.deleted, ∀ one other,
      Members.get vault kept = some one → Members.get vault deleted = some other → other.count ≤ one.count := by
  have ordered : Ordered vault := by
    have kept : Ordered (copies last.state) :=
      run.keeps (P := fun filling => Ordered (copies filling.state))
        (fun _ _ _ grows ordered taken => ordered_step grows ordered taken) (by simp [Ordered, copies, start])
    rwa [copies, filled] at kept
  obtain ⟨keeps, deletes⟩ := pruneWitnesses_report filled pruned
  intro kept isKept deleted isDeleted one other readOne readOther
  have unassessed : (candidates vault).filter faults.unassessed = [] := by
    apply List.filter_eq_nil_iff.mpr
    simp [readable]
  rw [keeps, unassessed, List.append_nil] at isKept
  obtain ⟨new, isNew, rfl⟩ := List.mem_map.mp isKept
  obtain ⟨old, isOld, rfl⟩ := List.mem_map.mp (deletes deleted isDeleted)
  obtain ⟨shipped, read, key, named⟩ := mem_regular (mem_newest isNew)
  obtain ⟨shippedOld, readOld, keyOld, namedOld⟩ := mem_regular (mem_oldest isOld)
  cases readOne.symm.trans read
  cases readOther.symm.trans readOld
  have before : old ≤ new := oldest_le_newest isOld isNew
  by_contra fewer
  have less := ordered _ (Members.mem_of_get read) named _ (Members.mem_of_get readOld) namedOld (not_le.mp fewer)
  rw [← key, ← keyOld] at less
  exact absurd less (not_lt.mpr before)

end Bound

/-! ## Two witnesses -/

theorem checkpointJournal_completes {journal : Str} {world : World} {count : Nat} {appended : Appended} {text : Str}
    {encoded : Bytes}
    (found : appendCheckpoint sampleHost (shown journal) ((world.touch journal).file journal)
      (fun n previous => finalizeEvent sampleHost (checkpointPayload sampleSigner
        (sampleStamp count) n previous) sampleSigner.sign) = .ok appended)
    (dumped : dumpsAscii sampleHost (.dict appended.event) = .ok text) (bytes : encodeUtf8 text = .ok encoded)
    (counted : (item appended.event "checkpoint_count" >>= pyInt sampleHost) = .ok (count : Int)) :
    checkpointJournal sampleHost (fun _ => none) journal (.ok sampleSigner) (sampleStamp count)
      .beside world = (.ok ⟨appended.event, count, get appended.event "head_sha256"⟩,
        witnessed ((world.touch journal).write journal appended.content) encoded (some (journal ++ lit ".checkpoint"))) := by
  have appends := @WriterRuns.appendAt_returns journal (fun file => appendCheckpoint sampleHost (shown journal) file _)
    world appended found
  simp only [checkpointJournal, run_bind, Effect.andThen, Effect.lift, Effect.inspect, appends, dumped,
    writeDurable_returns bytes, counted, run_pure, WitnessPath.target]

def sampleTime : Time := ⟨2026, 1, 5, 9, 30, 0⟩

/-- The faultless shipping of a witness at a file time. -/
def sampleWitness (count : Nat) (mtime : Int) : Action :=
  .witness (fun _ => none) (.ok sampleSigner) (sampleStamp count) sampleTime mtime ⟨none, none⟩ none

/-- The copies of the two witnesses of the sample, shipped within one second. -/
def sampleVault (count : Nat) (mtime : Int) (vault : Vault) : Vault :=
  let shipped : Shipped := ⟨sampleLine (if count = 0 then sampleEvents.1 else sampleEvents.2), count, mtime⟩
  Members.put latestName shipped (Members.put (witnessName sampleTime count) shipped vault)


/-- A faultless shipping of a witness of the sample. -/
theorem step_sample {count : Nat} {filling : Filling} {mtime : Int} {appended : Appended} {line : Bytes}
    (found : appendCheckpoint sampleHost (shown sampleJournalName)
      ((filling.state.world.touch sampleJournalName).file sampleJournalName)
      (fun n previous => finalizeEvent sampleHost (checkpointPayload sampleSigner (sampleStamp count) n previous)
        sampleSigner.sign) = .ok appended)
    (text : (dumpsAscii sampleHost (.dict appended.event) >>= encodeUtf8) = .ok line)
    (isLine : line = sampleLine (if count = 0 then sampleEvents.1 else sampleEvents.2))
    (counted : (item appended.event "checkpoint_count" >>= pyInt sampleHost) = .ok (count : Int))
    (later : filling.clock ≤ mtime) (named : targetName (copies filling.state) sampleTime = witnessName sampleTime count) :
    ∃ world, step sampleHost sampleJournalName filling (sampleWitness count mtime) =
        some ⟨⟨world, some (sampleVault count mtime (copies filling.state))⟩, mtime⟩ ∧
      world.file sampleJournalName = some appended.content := by
  obtain ⟨dumped, dumps, bytes⟩ := bind_eq_ok.mp text
  have checkpoints := checkpointJournal_completes found dumps bytes counted
  generalize written : witnessed ((filling.state.world.touch sampleJournalName).write sampleJournalName appended.content)
    line (some (sampleJournalName ++ lit ".checkpoint")) = world at checkpoints
  have apart : sampleJournalName ≠ sampleJournalName ++ lit ".checkpoint" := by decide
  refine ⟨world, ?_, ?_⟩
  · have content : (world.file (sampleJournalName ++ lit ".checkpoint")).getD [] = line := by
      rw [← written, witnessed, World.file_write, if_pos rfl]
      rfl
    rw [sampleWitness, step, if_pos later, witnessJournal, checkpoints]
    simp only [content, shipWitness]
    change some (Filling.mk ⟨world, some (Members.put latestName _ (Members.put (targetName (copies filling.state) sampleTime) _
      (copies filling.state)))⟩ mtime) = _
    rw [named, isLine]
    rfl
  · rw [← written, witnessed, World.file_write, if_neg apart, World.file_write, if_neg apart, World.file_write, if_pos rfl]

theorem sample_target (mtime : Int) : targetName (sampleVault 0 mtime []) sampleTime = witnessName sampleTime 1 := by
  rfl

/-- The sample's two witnesses, whatever the times of their files. -/
theorem run_sample {guard : Filling → Action → Prop} (first second : Int) (later : first ≤ second)
    (allowedFirst : guard (start ⟨[], []⟩ first) (sampleWitness 0 first))
    (allowedSecond : ∀ world, world.file sampleJournalName = some (sampleLine sampleEvents.1 ++ [10]) →
      guard ⟨⟨world, some (sampleVault 0 first [])⟩, first⟩ (sampleWitness 1 second)) :
    ∃ world, Run (step sampleHost sampleJournalName) guard (start ⟨[], []⟩ first)
      [sampleWitness 0 first, sampleWitness 1 second]
      ⟨⟨world, some (sampleVault 1 second (sampleVault 0 first []))⟩, second⟩ := by
  have empty : ((World.touch ⟨[], []⟩ sampleJournalName).file sampleJournalName) = some [] := by
    rw [World.file_touch, if_pos rfl]
    rfl
  obtain ⟨world, took, file⟩ := @step_sample 0 (start ⟨[], []⟩ first) first
    ⟨sampleLine sampleEvents.1 ++ [10], sampleEvents.1, none⟩ _ (by
      rw [start, empty]
      exact sample_first) sample_texts.1 rfl sample_counts.1 (le_refl first) rfl
  have content : ((World.touch world sampleJournalName).file sampleJournalName) = some (sampleLine sampleEvents.1 ++ [10]) := by
    rw [World.file_touch, if_pos rfl, file]
    rfl
  obtain ⟨last, tookLast, _⟩ := @step_sample 1 ⟨⟨world, some (sampleVault 0 first [])⟩, first⟩ second
    (sampleAppended (sampleLine sampleEvents.1 ++ [10])) _ (by
      rw [content]
      have count : countEventLines (sampleLine sampleEvents.1 ++ [10]) = 1 :=
        (sample_valid (.inr rfl)).decoded.length_eq
      have second := @sample_second (shown sampleJournalName) _ (.inr rfl)
      rw [appendCheckpoint, Option.getD_some, count] at second ⊢
      exact second) sample_texts.2 rfl sample_counts.2 later (sample_target first)
  exact ⟨last, .cons allowedFirst took (.cons (allowedSecond world file) tookLast (.nil _))⟩

def noFaults : PruneFaults := ⟨fun _ => false, fun _ => none⟩

theorem pruneWitnesses_completes (directory : Str) {keep : Int} {state : State} {vault : Vault} (positive : ¬ keep < 1)
    (filled : state.vault = some vault) : ∃ after, pruneWitnesses directory noFaults keep state =
      (.ok ⟨(newest keep.toNat (regular noFaults vault)).map nameOf,
        (oldest keep.toNat (regular noFaults vault)).map nameOf⟩, after) := by
  have none : ∀ names : List Str, names.filterMap (fun _ => (none : Option String)) = [] := by
    intro names
    simp
  rw [pruneWitnesses, if_neg positive]
  simp only [filled, noFaults, Option.map_none, none, ne_eq, not_true_eq_false, if_false, Option.isNone_none, List.filter_true,
    List.filter_false, List.append_nil]
  exact ⟨_, rfl⟩

/-- The two copies of the sample. -/
def sampleCopies (first second : Int) : Vault := sampleVault 1 second (sampleVault 0 first [])

theorem sample_growing (world : World) (file : world.file sampleJournalName = some (sampleLine sampleEvents.1 ++ [10])) :
    Grows sampleJournalName ⟨⟨world, some (sampleVault 0 10 [])⟩, 10⟩ (sampleWitness 1 20) := by
  intro entry found named
  have old : entry = (witnessName sampleTime 0, ⟨sampleLine sampleEvents.1, (0 : Nat), 10⟩) := by
    have inside := (Members.mem_put found).resolve_left (fun new => named (congrArg Prod.fst new))
    exact (Members.mem_put inside).resolve_right List.not_mem_nil
  have live : liveCount sampleJournalName world = 1 := by
    rw [liveCount, file]
    exact (sample_valid (.inr rfl)).decoded.length_eq
  subst old
  refine ⟨by simp [live], ?_⟩
  intro _
  apply Prod.Lex.left
  decide

theorem strongest_bounds_kept_sample : ∃ report after, ∃ state : State,
    pruneWitnesses (lit "witnesses") noFaults 1 state = (.ok report, after) ∧
    ∀ kept ∈ report.kept, ∀ deleted ∈ report.deleted, ∀ one other,
      Members.get (sampleCopies 10 20) kept = some one → Members.get (sampleCopies 10 20) deleted = some other →
        other.count ≤ one.count := by
  obtain ⟨world, run⟩ := @run_sample (Grows sampleJournalName) 10 20 (by decide)
    (fun entry found => absurd found List.not_mem_nil) sample_growing
  obtain ⟨after, pruned⟩ := @pruneWitnesses_completes (lit "witnesses") 1 ⟨world, some (sampleCopies 10 20)⟩ _ (by decide) rfl
  exact ⟨_, after, _, pruned,
    strongest_bounds_kept sampleHost sampleJournalName (lit "witnesses") ⟨[], []⟩ 10 1 run rfl (fun _ => rfl) pruned⟩

/-- Of two witnesses whose files have one time, that with the greater count is deleted. -/
theorem same_time_loses : ¬ ∀ (journal directory : Str) (world : World) (clock keep : Int) (actions : List Action)
    (last : Filling) (vault : Vault) (report : PruneReport) (after : State),
    Run (step sampleHost journal) (fun _ _ => True) (start world clock) actions last → last.state.vault = some vault →
    pruneWitnesses directory noFaults keep last.state = (.ok report, after) →
    ∀ kept ∈ report.kept, ∀ deleted ∈ report.deleted, ∀ one other,
      Members.get vault kept = some one → Members.get vault deleted = some other → other.count ≤ one.count := by
  intro all
  obtain ⟨world, run⟩ := @run_sample (fun _ _ => True) 10 10 (by decide) trivial (fun _ _ => trivial)
  obtain ⟨after, pruned⟩ := @pruneWitnesses_completes (lit "witnesses") 1 ⟨world, some (sampleCopies 10 10)⟩ _ (by decide) rfl
  have keys : regular noFaults (sampleCopies 10 10) =
      [toLex (10, witnessName sampleTime 1), toLex (10, witnessName sampleTime 0)] := by rfl
  have distinct : (regular noFaults (sampleCopies 10 10)).Nodup := by
    rw [keys]
    decide +kernel
  have old : toLex (10, witnessName sampleTime 1) ∈ oldest (1 : Int).toNat (regular noFaults (sampleCopies 10 10)) := by
    rw [mem_oldest_iff distinct, keys]
    decide +kernel
  have new : toLex (10, witnessName sampleTime 0) ∈ newest (1 : Int).toNat (regular noFaults (sampleCopies 10 10)) := by
    apply mem_newest_of_not_oldest
    · rw [keys]
      decide +kernel
    · rw [mem_oldest_iff distinct, keys]
      decide +kernel
  have fewer := all _ _ _ _ _ _ _ _ _ _ run rfl pruned _ (List.mem_map_of_mem new) _ (List.mem_map_of_mem old) _ _ rfl rfl
  exact absurd fewer (by decide)

end Tesera.Verification.WitnessBounds
