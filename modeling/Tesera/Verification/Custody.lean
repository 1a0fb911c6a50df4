import Tesera.Verification.Chain
import Tesera.Verification.Extend

/-!
The files a writer keeps: valid, and made of whole lines each of which is an event. One
more event keeps a file; a chain of such files linked by their archive records is walked
to its end without an issue.
-/

namespace Tesera.Verification.Custody
open Tesera.Text Tesera.Text.Unicode Tesera.Text.Lines Tesera.Python.Value Tesera.Canonical
open Tesera.Journal.Record Tesera.Journal.Tail Tesera.Journal.Idempotency Tesera.Journal.Append
open Tesera.Journal.Store
open Tesera.Verification.Event (PublicKey Keyring EventType notBareName toKeyring)
open Tesera.Verification.Journal Tesera.Verification.Valid Tesera.Verification.Extend
open Tesera.Verification.Chain

/-- A file of whole lines, each an event, that verifies; its checkpoints have ids. -/
structure Kept (host : Host) (trusted : Keyring) (content : Bytes) (events : List Dict) : Prop where
  lines : Decoded host (splitLines content) events
  whole : fragment content = []
  valid : ValidFile host trusted content events
  named : ∀ event ∈ events, isCheckpoint event = true → ∃ id, get event "event_id" = .str id

theorem kept_nil (host : Host) (trusted : Keyring) : Kept host trusted [] [] where
  lines := .nil
  whole := rfl
  valid := ⟨.nil, trivial, by simp [Covered]⟩
  named := List.forall_mem_nil _

theorem terminated_of_whole {content : Bytes} (whole : fragment content = []) : Terminated content := by
  have parts := complete_append_fragment content
  rw [whole, List.append_nil] at parts
  rw [← parts]
  exact terminated_complete content

theorem fragment_newline (content : Bytes) : fragment (content ++ [10]) = [] := by
  unfold fragment
  rw [List.rtakeWhile_concat_neg]
  decide

/-- A kept file with the event of a call written at its end is kept. -/
theorem kept_written {host : Host} {trusted : Keyring} {content line : Bytes} {events : List Dict}
    {appended : Appended} (kept : Kept host trusted content events)
    (wrote : Wrote host trusted content events appended line)
    (named : isCheckpoint appended.event = true → ∃ id, get appended.event "event_id" = .str id) :
    Kept host trusted appended.content (events ++ [appended.event]) where
  lines := by
    have solid := solid_encodeEvent wrote.encoded
    have decoded := decodeLine_newline (decodeLine_encodeEvent wrote.ok wrote.encoded)
    rw [wrote.content_eq, splitLines_append (terminated_of_whole kept.whole), splitLines_line solid.plain]
    exact decoded_append kept.lines (.cons decoded .nil)
  whole := by
    rw [wrote.content_eq, ← List.append_assoc]
    exact fragment_newline _
  valid := by
    rw [wrote.content_eq]
    exact validFile_written kept.valid (kept.whole ▸ blank_nil) wrote.ok wrote.encoded wrote.clean wrote.counted
  named := by
    intro event member checkpoint
    rcases List.mem_append.mp member with before | last
    · exact kept.named event before checkpoint
    · rw [List.mem_singleton.mp last] at checkpoint ⊢
      exact named checkpoint

/-! ## Reading a kept file -/

theorem strip_ne_nil_of_decoded {host : Host} {raw : Bytes} {event : Dict}
    (decoded : decodeLine host raw = .ok (.dict event)) : strip raw ≠ [] := by
  intro blank
  have stripped := decodeLine_strip decoded
  rw [blank] at stripped
  exact decodeLine_nil stripped

theorem readEvents_decoded {host : Host} {lines : List Bytes} {events : List Dict}
    (decoded : Decoded host lines events) : readEvents host lines = .ok events := by
  induction decoded with
  | nil => rfl
  | cons first _ ih => simp only [readEvents, first, ih, Except.map]

theorem firstEvent_decoded {host : Host} {lines : List Bytes} {events : List Dict}
    (decoded : Decoded host lines events) : firstEvent host none lines = .ok events.head? := by
  cases decoded with
  | nil => rfl
  | cons first _ =>
    rw [firstEvent, if_neg (strip_ne_nil_of_decoded first), first]
    rfl

theorem tally_decoded {host : Host} {lines : List Bytes} {events : List Dict}
    (decoded : Decoded host lines events)
    (hashed : ∀ event ∈ events, ∃ hash, get event "event_hash" = .str hash) (count : Nat) (head : Option Str) :
    tally host none lines (count, head) = .ok (count + events.length, hashAfter head events) := by
  induction decoded generalizing count head with
  | nil => rfl
  | @cons raw event lines events first rest ih =>
    obtain ⟨here, others⟩ := List.forall_mem_cons.mp hashed
    obtain ⟨hash, stored⟩ := here
    have known : hashOf (.dict event) = some hash := by
      rw [hashOf, asDict, Option.bind_some, stored]
      rfl
    rw [tally, if_neg (strip_ne_nil_of_decoded first), first]
    simp only [known, Option.some_or]
    rw [ih others, hashAfter, hashAfter, List.foldl_cons, stored, List.length_cons]
    simp only [asStr, Except.ok.injEq, Prod.mk.injEq, and_true]
    omega

theorem hashed_of_clean {host : Host} {trusted : Keyring} {events : List Dict} {previous : Option Str}
    {checkpoints : Event.Checkpoints} (clean : CleanFrom host trusted previous checkpoints events) :
    ∀ event ∈ events, ∃ hash, get event "event_hash" = .str hash := by
  intro event member
  obtain ⟨_, _, _, digest, _, cleanEvent⟩ := isClean_of_mem clean member
  exact ⟨_, cleanEvent.stored⟩

theorem tallyOf_kept {host : Host} {trusted : Keyring} {content : Bytes} {events : List Dict}
    (kept : Kept host trusted content events) :
    tallyOf host (.readable content none) = .ok (events.length, lastHash events) := by
  rw [tallyOf, tally_decoded kept.lines (hashed_of_clean kept.valid.clean), hashAfter_eq_lastHash, Nat.zero_add]

/-- The count and the head that `archive_stats` gives are those of the events. -/
theorem archiveStats_kept {host : Host} {trusted : Keyring} {content : Bytes} {events : List Dict}
    {name : String} {stats : Nat × Option Str} (kept : Kept host trusted content events)
    (found : archiveStats host name content = .ok stats) :
    stats = (events.length, lastHash events) := by
  unfold archiveStats at found
  split_ifs at found with empty
  · rw [List.eq_nil_of_length_eq_zero empty] at kept
    have none := kept.lines
    cases none
    cases found
    rfl
  · cases tail : readLastEventHash host name content with
    | error e => simp [tail, Except.map] at found
    | ok head =>
      simp only [tail, Except.map, Except.ok.injEq] at found
      rw [← found, readLastEventHash_sound kept.valid.decoded tail, countEventLines, kept.valid.decoded.length_eq]

/-- The newest checkpoint is the one the verifier remembers under its id. -/
theorem get_checkpointsAfter {events : List Dict} {checkpoint : Dict} {id : Str}
    (newest : events.foldl noteNewest none = some checkpoint)
    (named : get checkpoint "event_id" = .str id) :
    Members.get (checkpointsAfter [] events) id = some checkpoint := by
  induction events using List.reverseRecOn with
  | nil => cases newest
  | append_singleton events event ih =>
    rw [List.foldl_append, List.foldl_cons, List.foldl_nil, noteNewest] at newest
    rw [checkpointsAfter, List.foldl_append, List.foldl_cons, List.foldl_nil, noteCheckpoint]
    split_ifs at newest ⊢ with isOne
    · cases newest
      simp only [named, asStr]
      exact Members.get_put_self _ _ _
    · exact ih newest

/-! ## The verifier on a kept file -/

theorem verifyJournal_kept {host : Host} {keys : List PublicKey} {content : Bytes} {events : List Dict}
    (kept : Kept host (toKeyring host keys) content events) :
    ∃ result, verifyJournal host (.readable content none) keys none = .ok result ∧
      result.valid = true ∧ result.issues = [] := by
  obtain ⟨result, verified, valid, clean⟩ := readAndVerify_complete kept.valid
  refine ⟨result, ?_, valid, clean⟩
  simp [verifyJournal, verified, bind, Except.bind, pure, Except.pure]

theorem visit_kept {host : Host} {keys : List PublicKey} {content : Bytes} {events : List Dict}
    (current : Str) (kept : Kept host (toKeyring host keys) content events) :
    visit host keys current (.readable content none) = .ok (visitOf events.head?) := by
  obtain ⟨result, verified, valid, -⟩ := verifyJournal_kept kept
  have first : firstEventOf host (.readable content none) = .ok events.head? := firstEvent_decoded kept.lines
  simp only [visit, verified, bind, Except.bind, valid, if_true, first]
  rfl

/-! ## Chains -/

/-- A file and its predecessors: each file but the last begins with an archive record that
names the next and commits to its count and head. A file that is absent holds nothing. -/
inductive Chain (host : Host) (trusted : Keyring) (world : World) : Str → List Dict → List Str → Prop where
  | genesis {name : Str} {events : List Dict} (kept : Kept host trusted ((world.file name).getD []) events)
      (first : ∀ event ∈ events.head?, isArchive event = false) : Chain host trusted world name events []
  | link {name prior : Str} {archive : Dict} {events before : List Dict} {names : List Str}
      (kept : Kept host trusted ((world.file name).getD []) (archive :: events))
      (isOne : isArchive archive = true) (path : get archive "archived_path" = .str prior)
      (bare : notBareName prior = false) (count : get archive "prior_count" = .int before.length)
      (head : get archive "prior_head" = linkOf (lastHash before)) (there : (world.file prior).isSome = true)
      (rest : Chain host trusted world prior before names) :
      Chain host trusted world name (archive :: events) (prior :: names)

section Chains

variable {host : Host} {trusted : Keyring} {world : World} {name : Str} {events : List Dict}
  {names : List Str}

theorem Chain.kept (chain : Chain host trusted world name events names) :
    Kept host trusted ((world.file name).getD []) events := by
  cases chain with
  | genesis kept first => exact kept
  | link kept isOne path bare count head there rest => exact kept

theorem Chain.present (chain : Chain host trusted world name events names) :
    ∀ other ∈ names, (world.file other).isSome = true := by
  induction chain with
  | genesis kept first => exact List.forall_mem_nil _
  | link kept isOne path bare count head there rest ih => exact List.forall_mem_cons.mpr ⟨there, ih⟩

/-- A chain is a matter of its own files. -/
theorem Chain.frame (chain : Chain host trusted world name events names) {other : World}
    (same : ∀ file ∈ name :: names, other.file file = world.file file) :
    Chain host trusted other name events names := by
  induction chain with
  | genesis kept first =>
    apply Chain.genesis _ first
    rwa [same _ List.mem_cons_self]
  | link kept isOne path bare count head there rest ih =>
    have tail := (List.forall_mem_cons.mp same).2
    have next := tail _ List.mem_cons_self
    apply Chain.link _ isOne path bare count head (next ▸ there) (ih tail)
    rwa [same _ List.mem_cons_self]

/-- The first file of a chain under another name. -/
theorem Chain.rename (chain : Chain host trusted world name events names) {other : World} {target : Str}
    (moved : other.file target = some ((world.file name).getD []))
    (same : ∀ file ∈ names, other.file file = world.file file) :
    Chain host trusted other target events names := by
  cases chain with
  | genesis kept first =>
    apply Chain.genesis _ first
    rwa [moved, Option.getD_some]
  | link kept isOne path bare count head there rest =>
    have next := same _ List.mem_cons_self
    apply Chain.link _ isOne path bare count head (next ▸ there) (rest.frame same)
    rwa [moved, Option.getD_some]

/-- One more event in the first file. -/
theorem Chain.append (chain : Chain host trusted world name events names) {other : World} {event : Dict}
    (kept : Kept host trusted ((other.file name).getD []) (events ++ [event]))
    (record : isArchive event = false) (same : ∀ file ∈ names, other.file file = world.file file) :
    Chain host trusted other name (events ++ [event]) names := by
  cases chain with
  | genesis _ first =>
    apply Chain.genesis kept
    intro opening member
    cases events with
    | nil =>
      cases member
      exact record
    | cons head tail => exact first opening member
  | link _ isOne path bare count head there rest =>
    have next := same _ List.mem_cons_self
    exact Chain.link kept isOne path bare count head (next ▸ there) (rest.frame same)

/-- The files of a world as a reader meets them. -/
def World.directory (world : World) : Directory := fun name =>
  (world.file name).map (fun content => .readable content none)

theorem linkIssues_committed {current predecessor : Str} {link : Dict} {counted : Nat × Option Str}
    (count : get link "prior_count" = .int counted.1) (head : get link "prior_head" = linkOf counted.2) :
    Chain.linkIssues host current predecessor link counted = [] := by
  have same : pyEq host (linkOf counted.2) (linkOf counted.2) = true := Event.pyEq_linkOf.mpr rfl
  simp [Chain.linkIssues, count, head, same, asInt]

/-- A link to a kept file with the count and the head it commits to is followed. -/
theorem followLink_kept {prior : Str} {link : Dict} {before : List Dict} {content : Bytes} (current : Str)
    (path : get link "archived_path" = .str prior) (bare : notBareName prior = false)
    (count : get link "prior_count" = .int before.length) (head : get link "prior_head" = linkOf (lastHash before))
    (there : world.file prior = some content) (kept : Kept host trusted content before) :
    followLink host (World.directory world) current link = .ok ([], prior) := by
  have target : linkTarget link = some prior := by simp [linkTarget, path, asStr, bare]
  have source : World.directory world prior = some (.readable content none) := by
    simp [World.directory, there]
  simp only [followLink, target, source, tallyOf_kept kept]
  rw [@linkIssues_committed _ _ _ _ (before.length, lastHash before) count head]

/-- A chain of distinct files is walked to its end. -/
theorem walk_chain {keys : List PublicKey} (chain : Chain host (toKeyring host keys) world name events names)
    (there : (world.file name).isSome = true) {left : Nat} (enough : names.length ≤ left)
    {seen : List Str} (checked : List Str) (distinct : (name :: names).Nodup)
    (fresh : ∀ file ∈ name :: names, file ∉ seen) :
    ∃ report, walk host keys (World.directory world) left seen checked name = .ok report ∧
      report.valid = true := by
  induction chain generalizing left seen checked with
  | @genesis name events kept first =>
    obtain ⟨content, found⟩ := Option.isSome_iff_exists.mp there
    rw [found, Option.getD_some] at kept
    have source : World.directory world name = some (.readable content none) := by
      simp [World.directory, found]
    have ends : visitOf events.head? = .stop [] := by
      cases opening : events.head? with
      | none => rfl
      | some event => simp [visitOf, first event opening]
    have arrived : arrive host keys (World.directory world) seen checked name =
        .ok (.inl (chainReport (checked ++ [name]) [])) := by
      rw [arrive, if_neg (by simpa using fresh name List.mem_cons_self), source, Option.elim_some,
        visit_kept name kept, ends]
      rfl
    refine ⟨chainReport (checked ++ [name]) [], ?_, rfl⟩
    cases left <;> rw [walk, arrived] <;> rfl
  | @link name prior archive events before names kept isOne path bare count head present rest ih =>
    obtain ⟨content, found⟩ := Option.isSome_iff_exists.mp there
    obtain ⟨priorContent, foundPrior⟩ := Option.isSome_iff_exists.mp present
    rw [found, Option.getD_some] at kept
    have priorKept := rest.kept
    rw [foundPrior, Option.getD_some] at priorKept
    have source : World.directory world name = some (.readable content none) := by
      simp [World.directory, found]
    have follows : visitOf (archive :: events).head? = .follow archive := by simp [visitOf, isOne]
    obtain ⟨notSelf, apart⟩ := List.nodup_cons.mp distinct
    have unseen : ∀ file ∈ prior :: names, file ∉ seen ++ [name] := by
      intro file member already
      rcases List.mem_append.mp already with before | here
      · exact fresh file (List.mem_cons_of_mem name member) before
      · exact notSelf (List.mem_singleton.mp here ▸ member)
    obtain ⟨left, rfl⟩ : ∃ fewer, left = fewer + 1 :=
      ⟨left - 1, by simp only [List.length_cons] at enough; omega⟩
    have shorter : names.length ≤ left := by
      simp only [List.length_cons] at enough
      omega
    have arrived : arrive host keys (World.directory world) seen checked name = .ok (.inr archive) := by
      rw [arrive, if_neg (by simpa using fresh name List.mem_cons_self), source, Option.elim_some,
        visit_kept name kept, follows]
      rfl
    rw [walk, arrived]
    simp only [bind, Except.bind, followLink_kept name path bare count head foundPrior priorKept]
    exact ih present shorter (checked ++ [name]) apart unseen

end Chains

end Tesera.Verification.Custody
