import Tesera.Journal.Payloads
import Tesera.Journal.Store
import Tesera.Text.Number

/-!
`archive_journal`: the live file is renamed to a name that is free in its directory, and
a new live file begins with a record of the old one's count and head.
-/

namespace Tesera.Commands.Archive
open Tesera.Effects Tesera.Text Tesera.Text.Unicode Tesera.Text.Number Tesera.Python.Value
open Tesera.Canonical Tesera.Journal.Payloads Tesera.Journal.Append Tesera.Journal.Store

/-! ## Names -/

/-- `Path.stem`: the name without its last suffix; a leading or a trailing dot makes
none. -/
def stem (name : Str) : Str :=
  let suffix := name.rtakeWhile (fun c => c != 46)
  let base := (name.rdropWhile (fun c => c != 46)).dropLast
  if suffix ≠ [] ∧ base ≠ [] then base else name

/-- The clock, in UTC. -/
structure Time where
  year : Nat
  month : Nat
  day : Nat
  hour : Nat
  minute : Nat
  second : Nat

def padded (width n : Nat) : Str :=
  List.replicate (width - (decimal n).text.length) 48 ++ (decimal n).text

/-- `strftime("%Y%m%dT%H%M%SZ")`. -/
def Time.text (time : Time) : Str :=
  padded 4 time.year ++ padded 2 time.month ++ padded 2 time.day ++ [84] ++
    padded 2 time.hour ++ padded 2 time.minute ++ padded 2 time.second ++ [90]

/-- The names `_claim_archive_path` tries, in their order. -/
def archiveName (journal : Str) (time : Time) (index : Nat) : Str :=
  stem journal ++ (45 :: time.text) ++
    ((if index = 0 then [] else 45 :: (decimal index).text) ++ lit ".jsonl")

/-- The first index whose name is free. -/
def freeIndex (files : Files) (journal : Str) (time : Time) : Nat :=
  (List.range files.length).findIdx (fun index => (Members.get files (archiveName journal time index)).isNone)

theorem mem_stem {name : Str} {c : Nat} (member : c ∈ stem name) : c ∈ name := by
  simp only [stem] at member
  split_ifs at member with cut
  · exact ( List.rdropWhile_prefix (fun c => c != 46) name).subset ((List.dropLast_sublist _).subset member)
  · exact member

theorem mem_padded {width n c : Nat} (member : c ∈ padded width n) : isDigit c = true := by
  rcases List.mem_append.mp member with zero | digit
  · rw [List.eq_of_mem_replicate zero]
    decide
  · exact (decimal n).digits c digit

theorem mem_text {time : Time} {c : Nat} (member : c ∈ time.text) : isDigit c = true ∨ c = 84 ∨ c = 90 := by
  simp only [Time.text, List.mem_append, List.mem_singleton] at member
  rcases member with ((((((((year | month) | day) | rfl) | hour) | minute) | second) | rfl))
  · exact .inl (mem_padded year)
  · exact .inl (mem_padded month)
  · exact .inl (mem_padded day)
  · exact .inr (.inl rfl)
  · exact .inl (mem_padded hour)
  · exact .inl (mem_padded minute)
  · exact .inl (mem_padded second)
  · exact .inr (.inr rfl)

/-- A separator in an archive's name is one in the journal's. -/
theorem mem_archiveName {journal : Str} {time : Time} {index c : Nat}
    (member : c ∈ archiveName journal time index) (separator : c = 47 ∨ c = 92) : c ∈ journal := by
  have noDigit : isDigit c = false := by rcases separator with rfl | rfl <;> decide
  simp only [archiveName, List.mem_append, List.mem_cons] at member
  rcases member with (inStem | dash | inTime) | inIndex | inSuffix
  · exact mem_stem inStem
  · omega
  · rcases mem_text inTime with digit | letter
    · rw [digit] at noDigit
      cases noDigit
    · omega
  · split_ifs at inIndex
    · cases inIndex
    · rcases List.mem_cons.mp inIndex with dash | digit
      · omega
      · rw [(decimal index).digits c digit] at noDigit
        cases noDigit
  · have plain : ∀ d ∈ lit ".jsonl", d ≠ 47 ∧ d ≠ 92 := by decide
    have := plain c inSuffix
    omega

theorem last_archiveName (journal : Str) (time : Time) (index : Nat) :
    (archiveName journal time index).getLast? = some 108 := by
  have suffix : lit ".jsonl" = [46, 106, 115, 111, 110] ++ [108] := by decide
  rw [archiveName, suffix, ← List.append_assoc, ← List.append_assoc, List.getLast?_concat]

theorem archiveName_injective {journal : Str} {time : Time} {m n : Nat}
    (same : archiveName journal time m = archiveName journal time n) : m = n := by
  have indices := List.append_cancel_right (List.append_cancel_left same)
  by_cases first : m = 0 <;> by_cases second : n = 0
  · rw [first, second]
  · simp [first, second] at indices
  · simp [first, second] at indices
  · simp only [if_neg first, if_neg second] at indices
    exact decimal_injective (Digits.ext_text (List.cons.inj indices).2)

/-- Among one more name than there are files, one is free. -/
theorem freeIndex_free (files : Files) (journal : Str) (time : Time) :
    Members.get files (archiveName journal time (freeIndex files journal time)) = none := by
  by_contra taken
  have before : ∀ index < freeIndex files journal time,
      Members.get files (archiveName journal time index) ≠ none := by
    intro index less free
    have bound := @List.findIdx_le_length _
      (fun index => (Members.get files (archiveName journal time index)).isNone) (List.range files.length)
    have stays := List.not_of_lt_findIdx less
    rw [List.length_range] at bound
    unfold freeIndex at less
    simp [free] at stays
  have all : files.length ≤ freeIndex files journal time := by
    by_contra found
    have inside := Nat.lt_of_not_le found
    have free := @List.findIdx_getElem _ (fun index =>
      (Members.get files (archiveName journal time index)).isNone) (List.range files.length)
      (by rwa [List.length_range])
    rw [List.getElem_range, Option.isNone_iff_eq_none] at free
    exact taken free
  have keys : ∀ index < files.length + 1, archiveName journal time index ∈ files.map Prod.fst := by
    intro index less
    have present : Members.get files (archiveName journal time index) ≠ none := by
      rcases Nat.lt_or_ge index (freeIndex files journal time) with earlier | last
      · exact before index earlier
      · have same : index = freeIndex files journal time := by omega
        rwa [same]
    obtain ⟨content, found⟩ := Option.ne_none_iff_exists'.mp present
    exact List.mem_map.mpr ⟨_, Members.mem_of_get found, rfl⟩
  have distinct : ((List.range (files.length + 1)).map (archiveName journal time)).Nodup :=
    List.nodup_range.map (fun _ _ same => archiveName_injective same)
  have inFiles : (List.range (files.length + 1)).map (archiveName journal time) ⊆ files.map Prod.fst := by
    intro name member
    obtain ⟨index, inRange, rfl⟩ := List.mem_map.mp member
    exact keys index (List.mem_range.mp inRange)
  have tooMany := (List.subperm_of_subset distinct inFiles).length_le
  rw [List.length_map, List.length_map, List.length_range] at tooMany
  omega

/-! ## The command -/

structure ArchiveReport where
  archivedPath : Str
  event : Dict
  priorCount : Nat
  priorHead : Option Str

/-- `_claim_archive_path`: create an empty file under the first free name. -/
def claimArchivePath (io : Io) (journal : Str) (time : Time) : Command Str := do
  let name ← Effect.inspect (fun world => .ok (archiveName journal time (freeIndex world.files journal time)))
  let path := shown name
  Effect.mapError (fun error => .archiveError (s!"cannot reserve archive path {path}: " ++ error.text))
    (attempt io .claim)
  Effect.change (fun world => world.write name [])
  return name

/-- `os.replace`, where the source exists. -/
def moveFile (source target : Str) (world : World) : World :=
  (world.write target ((world.file source).getD [])).remove source

/-- `os.replace(journal, archived)`. -/
def renameJournal (io : Io) (journal archived : Str) : Command Unit := do
  let path := shown journal
  Effect.mapError (fun error => .archiveError (s!"cannot archive {path}: " ++ error.text)) (attempt io .rename)
  Effect.change (moveFile journal archived)

/-- `_rollback_archive`: move the file back unless another has taken its place. -/
def rollbackArchive (io : Io) (archived journal : Str) : Command Bool := fun world =>
  match world.file journal, io .restore with
  | none, none => (.ok true, moveFile archived journal world)
  | _, _ => (.ok false, world)

def isJournalError : PyError → Bool
  | .journalError _ => true
  | _ => false

/-- The count and head of the renamed file; a failure to read it undoes the rename. -/
def settledStats (host : Host) (io : Io) (journal archived : Str) : Command (Nat × Option Str) :=
  Effect.rescue (archiveStatsAt host io .settle archived) (fun error =>
    if isJournalError error then do
      let _ ← rollbackArchive io archived journal
      let path := shown journal
      let text := error.text
      Effect.raise (.archiveError s!"cannot archive {path}: {text}")
    else Effect.raise error)

/-- The renamed file must hold what was counted; otherwise the rename is undone. -/
def settle (host : Host) (io : Io) (journal archived : Str) (stats : Nat × Option Str) : Command Unit := do
  let settled ← settledStats host io journal archived
  if settled = stats then
    Effect.change (fun world => { world with archived := archived :: world.archived })
  else do
    let restored ← rollbackArchive io archived journal
    let path := shown journal
    let kept := shown archived
    if restored then
      Effect.raise (.archiveError s!"concurrent write to {path} during archive; rerun the archive")
    else
      Effect.raise (.archiveError s!"concurrent write to {path} during archive, and a new file now exists at the live path; old evidence is intact at {kept} — reconcile manually instead of rerunning blindly")

/-- The first event of the new file; the file must be empty. -/
def buildArchive (host : Host) (signer : Signer) (stamp : Stamp) (journal archived : Str)
    (stats : Nat × Option Str) (previous : Option Str) : Except PyError Dict :=
  match previous with
  | some _ =>
      let path := shown journal
      .error (.archiveError s!"concurrent write to {path} during archive; rerun the archive")
  | none => finalizeEvent host (archivePayload signer stamp stats.1 stats.2 archived) signer.sign

/-- Errors of the append other than the command's own are wrapped. -/
def cannotStart (journal : Str) : PyError → PyError
  | .archiveError text => .archiveError text
  | error =>
      let path := shown journal
      let text := error.text
      .archiveError s!"cannot start archived journal {path}: {text}"

/-- `archive_journal` without `keep`. -/
def archiveJournal (host : Host) (io : Io) (journal : Str) (identity : Except PyError Signer)
    (stamp : Stamp) (time : Time) : Command ArchiveReport := do
  let asArchiveError := fun error : PyError => if isJournalError error then .archiveError error.text else error
  let stats ← Effect.mapError asArchiveError (archiveStatsAt host io .stats journal)
  if stats.1 = 0 then
    let path := shown journal
    Effect.raise (.archiveError s!"nothing to archive in {path}")
  else do
    let archived ← claimArchivePath io journal time
    renameJournal io journal archived
    settle host io journal archived stats
    let signer ← Effect.lift identity
    let event ← Effect.mapError (cannotStart journal)
      (appendAt io journal (fun file => appendEvent host (shown journal) file
        (buildArchive host signer stamp journal archived stats)))
    return ⟨archived, event, stats.1, stats.2⟩

end Tesera.Commands.Archive
