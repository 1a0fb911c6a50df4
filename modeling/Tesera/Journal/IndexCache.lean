import Tesera.Transition
import Tesera.Journal.Append
import Tesera.Journal.Scan
import Tesera.Journal.TailScan

/-!
The cached idempotency tables of one journal. Calls of this process look the tables up,
rebuild them and fold their own appends in, each under the lock of the file it opened;
other processes append to the file or put another one in its place. An entry describes the
file that had its size and its tail hash.
-/

namespace Tesera.Journal.IndexCache
open Tesera.Text Tesera.Text.Unicode Tesera.Text.Lines Tesera.Python.Value Tesera.Canonical
open Tesera.Journal.Record Tesera.Journal.Tail Tesera.Journal.Idempotency Tesera.Journal.Append
open Tesera.Journal.Scan Tesera.Transition

/-- The file at the path, and the entry of this process for it. -/
structure World where
  file : Option Bytes
  cache : IdemCache

/-- What happens between two points in time. A handle is on the file at the path, or on one
that has been replaced since it was opened. -/
inductive Action where
  /-- Another process appends or replaces the file, or a write of this one stops halfway. -/
  | foreign (file : Option Bytes)
  | opening
  /-- `_locked_blocking_prior_id`. -/
  | check (replaced : Option Bytes) (action key : Str)
  /-- The tail read, the write and the note of any of the three appends. -/
  | append (replaced : Option Bytes) (build : Option Str → Except PyError Dict)
  /-- A look at the tables without the lock. -/
  | query
  /-- The entry is dropped: by the entries of other paths, a reset, or a failing note. -/
  | evict

/-- The content behind a handle. -/
def World.opened (world : World) (replaced : Option Bytes) : Bytes := replaced.getD (world.file.getD [])

/-- `_tables_for_unlocked_path`. -/
def World.unlockedTables (host : Host) (name : String) (world : World) : Option IdemTables :=
  world.file.bind (fun content => (readLastEventHash host name content).toOption.bind
    (fun head => cachedIdemTables world.cache content.length head))

/-- A call that raises leaves the file and the entry as they were. -/
def step (host : Host) (name : String) (world : World) : Action → Option World
  | .foreign file => some { world with file := file }
  | .opening => some { world with file := some (world.file.getD []) }
  | .check replaced action key =>
      match lockedBlockingPriorId host true name world.cache (world.opened replaced) action key with
      | .ok answer => some { world with cache := answer.2 }
      | .error _ => some world
  | .append replaced build =>
      let content := world.opened replaced
      match appendBuilt host name content build with
      | .ok appended => some {
          file := if replaced.isSome then world.file else some appended.content
          cache := noteIdemAppend true world.cache appended.event content.length appended.previous
            appended.content.length (asStr (get appended.event "event_hash")) }
      | .error _ => some world
  | .query => some world
  | .evict => some { world with cache := none }

/-! ## Coherence -/

/-- Among the contents that occur, size and tail hash name one. -/
def Determined (host : Host) (name : String) (occurs : Bytes → Prop) : Prop :=
  ∀ content other head, occurs content → occurs other → content.length = other.length →
    readLastEventHash host name content = .ok head → readLastEventHash host name other = .ok head →
      content = other

/-- An entry with the size and the head of the file has the tables of the file. -/
def Coherent (host : Host) (name : String) (world : World) : Prop :=
  ∀ entry ∈ world.cache, ∀ content ∈ world.file, entry.size = content.length →
    readLastEventHash host name content = .ok entry.head →
      collectIdemTables host content = .ok entry.tables

/-- Folding an appended event in gives the tables of the file with its line. -/
def Rebuilds (host : Host) (name : String) (world : World) : Action → Prop
  | .append replaced build => ∀ appended tables,
      appendBuilt host name (world.opened replaced) build = .ok appended →
      collectIdemTables host (world.opened replaced) = .ok tables →
        collectIdemTables host appended.content = .ok (evolveIdemTables tables appended.event)
  | _ => True

/-- The contents that occur, and the events that builders make. -/
def Occurring (host : Host) (name : String) (occurs : Bytes → Prop) (world : World) : Action → Prop
  | .foreign file => ∀ content ∈ file, occurs content
  | .opening => occurs (world.file.getD [])
  | .check replaced _ _ => occurs (world.opened replaced)
  | .append replaced build => occurs (world.opened replaced) ∧
      ∀ appended, appendBuilt host name (world.opened replaced) build = .ok appended →
        DictOk host appended.event ∧ occurs appended.content
  | _ => True

/-- An append finds nothing but whitespace after the last newline. -/
def OnWhole (world : World) : Action → Prop
  | .append replaced _ => Blank (fragment (world.opened replaced))
  | _ => True

/-! ## An appended line -/

section Appends

variable {host : Host} {name : String} {content line : Bytes} {event : Dict}

theorem readEvents_append {lines : List Bytes} {events : List Dict} (read : readEvents host lines = .ok events)
    (decoded : decodeLine host line = .ok (.dict event)) :
    readEvents host (lines ++ [line]) = .ok (events ++ [event]) := by
  induction lines generalizing events with
  | nil =>
    cases read
    rw [List.nil_append, readEvents, decoded]
    rfl
  | cons first rest ih =>
    rw [List.cons_append, readEvents]
    rw [readEvents] at read
    cases found : decodeLine host first with
    | error e =>
      simp only [found] at read ⊢
      split_ifs at read ⊢
      exact ih read
    | ok v =>
      cases v with
      | dict one =>
        simp only [found] at read ⊢
        cases others : readEvents host rest with
        | error e =>
          rw [others] at read
          cases read
        | ok more =>
          rw [others] at read
          cases read
          rw [ih others]
          rfl
      | _ =>
        simp only [found] at read ⊢
        exact ih read

/-- The tables of a file with one more line. -/
theorem collect_written {tables : IdemTables} (collected : collectIdemTables host content = .ok tables)
    (blank : Blank (fragment content)) (ok : DictOk host event) (encoded : encodeEvent host event = .ok line) :
    collectIdemTables host (content ++ (line ++ [10])) = .ok (evolveIdemTables tables event) := by
  unfold collectIdemTables at collected ⊢
  rw [records_written_of_blank (solid_encodeEvent encoded) blank]
  cases read : readEvents host (records content) with
  | error e =>
    rw [read] at collected
    cases collected
  | ok events =>
    rw [read, Except.map, Except.ok.injEq] at collected
    rw [readEvents_append read (decodeLine_encodeEvent ok encoded), Except.map, List.foldl_append, collected,
      List.foldl_cons, List.foldl_nil]

/-- What is put after the complete lines of a file is its last line. -/
theorem fragment_complete_append {last : Bytes} (plain : ∀ b ∈ last, isNewline b = false) :
    fragment (complete content ++ last) = last := by
  have stops : fragment (complete content) = [] := by
    rw [fragment, List.rtakeWhile_eq_nil_iff]
    intro nonempty
    have newline := terminated_complete content _ (List.getLast?_eq_some_getLast nonempty)
    simp [newline]
  have all : ∀ b ∈ last.reverse, (!isNewline b) = true := by
    intro b member
    rw [plain b (List.mem_reverse.mp member)]
    rfl
  unfold fragment List.rtakeWhile at stops ⊢
  rw [List.reverse_append, List.takeWhile_append_of_pos all, List.reverse_append, List.reverse_reverse, stops,
    List.nil_append]

/-- What the tail reader accepts has no other whitespace after its last newline than line ends. -/
theorem lineEnds_of_tail {head : Option Str} (tail : readLastEventHash host name content = .ok head)
    (blank : Blank (fragment content)) : ∀ b ∈ fragment content, isLineEnd b = true := by
  by_contra other
  have kept : (fragment content).rdropWhile isLineEnd ≠ [] := fun nothing =>
    other (List.rdropWhile_eq_nil_iff.mp nothing)
  have trimmed : content.rdropWhile isLineEnd = complete content ++ (fragment content).rdropWhile isLineEnd := by
    have stays : ((fragment content).reverse.dropWhile isLineEnd).isEmpty = false := by
      rw [List.isEmpty_eq_false_iff]
      simpa [List.rdropWhile] using kept
    nth_rewrite 1 [← complete_append_fragment content]
    unfold List.rdropWhile
    rw [List.reverse_append, List.dropWhile_append, stays, if_neg Bool.false_ne_true, List.reverse_append,
      List.reverse_reverse]
  have inside : (fragment content).rdropWhile isLineEnd ⊆ fragment content :=
    (List.rdropWhile_prefix isLineEnd _).subset
  have last : lastLine content = (fragment content).rdropWhile isLineEnd := by
    rw [lastLine, trimmed]
    exact fragment_complete_append (fun b member => not_newline_of_mem_fragment (inside member))
  have nonempty : content.rdropWhile isLineEnd ≠ [] := by
    rw [trimmed]
    exact fun empty => kept (List.append_eq_nil_iff.mp empty).2
  obtain ⟨text, refused⟩ := @TailScan.decodeLine_blank host (lastLine content)
    (fun b member => blank b (inside (last ▸ member)))
  rw [readLastEventHash_eq, if_neg nonempty, TailScan.eventHash_of_valueError refused] at tail
  cases tail

/-- The tail reader returns the hash of a line appended to what it accepts. -/
theorem readLastEventHash_appended {head : Option Str} {hash : Str}
    (tail : readLastEventHash host name content = .ok head) (blank : Blank (fragment content))
    (ok : DictOk host event) (encoded : encodeEvent host event = .ok line)
    (stored : Members.get event (lit "event_hash") = some (.str hash)) :
    readLastEventHash host name (content ++ (line ++ [10])) = .ok (some hash) := by
  have solid := solid_encodeEvent encoded
  have ends := lineEnds_of_tail tail blank
  have trimmed : (content ++ (line ++ [10])).rdropWhile isLineEnd = content ++ line := by
    obtain ⟨before, b, shape, kept⟩ := last_of_solid solid
    rw [← List.append_assoc, List.rdropWhile_concat_pos _ _ _ (by decide), shape, ← List.append_assoc,
      List.rdropWhile_concat_neg _ _ _ (by simp [kept])]
  have plain : ∀ b ∈ fragment content ++ line, isNewline b = false := by
    intro b member
    rcases List.mem_append.mp member with before | inside
    · exact not_newline_of_mem_fragment before
    · exact solid.plain b inside
  have last : lastLine (content ++ (line ++ [10])) = fragment content ++ line := by
    rw [lastLine, trimmed, ← fragment_complete_append plain, ← List.append_assoc, complete_append_fragment]
  have white : TailScan.WhiteBytes (fragment content) := by
    intro b member
    have lineEnd := ends b member
    have isEnd : b = 13 ∨ b = 10 := by simpa [isLineEnd] using lineEnd
    rcases isEnd with rfl | rfl <;> decide
  have decoded : decodeLine host (fragment content ++ line) = .ok (.dict event) := by
    have alike := TailScan.decodeLine_white host blank blank_nil line white (List.forall_mem_nil _)
    rw [List.append_nil, decodeLine_encodeEvent ok encoded] at alike
    obtain same | ⟨_, _, _, wrong⟩ := alike
    · exact same
    · cases wrong
  have nonempty : content ++ line ≠ [] := fun empty => solid.nonempty (List.append_eq_nil_iff.mp empty).2
  rw [readLastEventHash_eq, trimmed, if_neg nonempty, last, eventHashFromLine_of_decode decoded stored]
  rfl

end Appends

/-! ## The invariant -/

/-- The file occurs, and the entry describes a content that occurs. -/
structure Sound (host : Host) (name : String) (occurs : Bytes → Prop) (world : World) : Prop where
  file : ∀ content ∈ world.file, occurs content
  entry : ∀ entry ∈ world.cache, ∃ content, occurs content ∧ content.length = entry.size ∧
    readLastEventHash host name content = .ok entry.head ∧ collectIdemTables host content = .ok entry.tables

variable {host : Host} {name : String} {occurs : Bytes → Prop} {world after : World}

theorem Sound.coherent (determined : Determined host name occurs) (sound : Sound host name occurs world) :
    Coherent host name world := by
  intro entry cached content there size tail
  obtain ⟨described, occursDescribed, length, head, tables⟩ := sound.entry entry cached
  have same := determined described content entry.head occursDescribed (sound.file content there)
    (length.trans size) head tail
  exact same ▸ tables

/-- A look under the lock leaves the entry, or one for the file it was made on. -/
theorem lockedBlockingPriorId_cache {cache : IdemCache} {content : Bytes} {action key : Str}
    {answer : Option Str × IdemCache}
    (looked : lockedBlockingPriorId host true name cache content action key = .ok answer) :
    answer.2 = cache ∨ ∃ head tables, answer.2 = some ⟨content.length, head, tables⟩ ∧
      readLastEventHash host name content = .ok head ∧ collectIdemTables host content = .ok tables := by
  have scanned : ∀ {found}, (scanBlockingIdempotent host content action key).map (fun id => (id, cache)) =
      .ok found → found.2 = cache := by
    intro found same
    cases answered : scanBlockingIdempotent host content action key with
    | error e =>
      rw [answered] at same
      cases same
    | ok id =>
      rw [answered] at same
      cases same
      rfl
  unfold lockedBlockingPriorId at looked
  rw [if_pos rfl] at looked
  cases indexed : indexedBlockingPriorId host name cache content action key with
  | error e =>
    simp only [indexed] at looked
    split_ifs at looked
    exact .inl (scanned looked)
  | ok found =>
    simp only [indexed, Except.ok.injEq] at looked
    subst looked
    obtain ⟨head, tail, rest⟩ := bind_eq_ok.mp indexed
    cases hit : cachedIdemTables cache content.length head with
    | some tables =>
      simp only [hit] at rest
      cases rest
      exact .inl rfl
    | none =>
      simp only [hit] at rest
      obtain ⟨tables, collected, same⟩ := bind_eq_ok.mp rest
      cases same
      exact .inr ⟨head, tables, rfl, tail, collected⟩

/-- A note leaves no entry, or the evolved one where it described the file before. -/
theorem noteIdemAppend_cache {cache : IdemCache} {event : Dict} {preSize postSize : Nat}
    {preHead postHead : Option Str} {entry : CacheEntry}
    (noted : noteIdemAppend true cache event preSize preHead postSize postHead = some entry) :
    ∃ head before, postHead = some head ∧ cache = some before ∧ before.size = preSize ∧ before.head = preHead ∧
      entry = ⟨postSize, some head, evolveIdemTables before.tables event⟩ := by
  unfold noteIdemAppend at noted
  rw [if_pos rfl] at noted
  cases postHead with
  | none => cases noted
  | some head =>
    cases cache with
    | none => cases noted
    | some before =>
      simp only at noted
      split_ifs at noted with described
      cases noted
      exact ⟨head, before, rfl, rfl, described.1, described.2, rfl⟩

theorem rebuilds_of_whole {action : Action} (assumed : Occurring host name occurs world action)
    (whole : OnWhole world action) : Rebuilds host name world action := by
  cases action with
  | append replaced build =>
    intro appended tables built collected
    obtain ⟨line, -, -, encoded, content⟩ := appendBuilt_eq_ok.mp built
    rw [content]
    exact collect_written collected whole (assumed.2 appended built).1 encoded
  | _ => trivial

theorem step_keeps {action : Action} (determined : Determined host name occurs)
    (assumed : Occurring host name occurs world action) (whole : OnWhole world action)
    (sound : Sound host name occurs world) (taken : step host name world action = some after) :
    Sound host name occurs after := by
  cases action with
  | foreign file =>
    cases taken
    exact ⟨assumed, sound.entry⟩
  | opening =>
    cases taken
    refine ⟨?_, sound.entry⟩
    intro content same
    cases same
    exact assumed
  | check replaced action key =>
    rw [step] at taken
    cases looked : lockedBlockingPriorId host true name world.cache (world.opened replaced) action key with
    | error e =>
      rw [looked] at taken
      cases taken
      exact sound
    | ok answer =>
      rw [looked] at taken
      cases taken
      refine ⟨sound.file, ?_⟩
      obtain same | ⟨head, tables, same, tail, collected⟩ := lockedBlockingPriorId_cache looked
      · simp only [same]
        exact sound.entry
      · simp only [same]
        intro entry cached
        cases cached
        exact ⟨world.opened replaced, assumed, rfl, tail, collected⟩
  | append replaced build =>
    have rebuilds := rebuilds_of_whole assumed whole
    simp only [step] at taken
    cases built : appendBuilt host name (world.opened replaced) build with
    | error e =>
      rw [built] at taken
      cases taken
      exact sound
    | ok appended =>
      rw [built] at taken
      cases taken
      obtain ⟨ok, occursAfter⟩ := assumed.2 appended built
      constructor
      · intro content there
        by_cases old : replaced.isSome = true
        · rw [if_pos old] at there
          exact sound.file content there
        · rw [if_neg old] at there
          cases there
          exact occursAfter
      · intro entry cached
        obtain ⟨head, before, hash, inCache, size, previous, rfl⟩ := noteIdemAppend_cache cached
        obtain ⟨described, occursDescribed, length, tail, tables⟩ := sound.entry before inCache
        obtain ⟨line, tailOpened, -, encoded, content⟩ := appendBuilt_eq_ok.mp built
        have same : described = world.opened replaced := by
          apply determined described _ before.head occursDescribed assumed.1 (length.trans size) tail
          rw [previous, tailOpened]
        have stored : Members.get appended.event (lit "event_hash") = some (.str head) := by
          rw [asStr_eq_some, Python.Value.get] at hash
          cases found : Members.get appended.event (lit "event_hash") with
          | none => simp [found] at hash
          | some value => rw [found, Option.getD_some] at hash; rw [hash]
        refine ⟨appended.content, occursAfter, rfl, ?_, ?_⟩
        · rw [content]
          exact readLastEventHash_appended tailOpened whole ok encoded stored
        · exact rebuilds appended before.tables built (same ▸ tables)
  | query =>
    cases taken
    exact sound
  | evict =>
    cases taken
    refine ⟨sound.file, ?_⟩
    intro entry impossible
    cases impossible

/-! ## Runs -/

/-- In every run whose appends find whole lines, the entry is coherent in every state, and
each such append folds its event into the tables of the file with its line. -/
theorem cache_coherent {start last : World} {actions : List Action} (determined : Determined host name occurs)
    (fresh : start.cache = none) (begins : ∀ content ∈ start.file, occurs content)
    (run : Run (step host name) (fun world action => Occurring host name occurs world action ∧ OnWhole world action)
      start actions last) :
    Coherent host name last ∧ ∀ action, Occurring host name occurs last action → OnWhole last action →
      Rebuilds host name last action := by
  have sound : Sound host name occurs last := by
    apply run.keeps
    · intro before action after allowed kept taken
      exact step_keeps determined allowed.1 allowed.2 kept taken
    · refine ⟨begins, ?_⟩
      rw [fresh]
      intro entry impossible
      cases impossible
  exact ⟨sound.coherent determined, fun action assumed whole => rebuilds_of_whole assumed whole⟩

def noteHost : Host := .plain (fun bytes => bytes) (fun _ => none)

/-- A keyed decision and a checkpoint, as far as the index reads them. -/
def noteEvent : Nat → Dict
  | 0 => [(lit "action_name", .str (lit "pay")), (lit "decision", .str (lit "allowed")),
      (lit "event_hash", .str (lit "h1")), (lit "event_id", .str (lit "d1")),
      (lit "event_type", .str (lit "decision")), (lit "idempotency_key", .str (lit "k1"))]
  | _ => [(lit "event_hash", .str (lit "h2")), (lit "event_type", .str (lit "checkpoint"))]

@[irreducible] def noteLine (n : Nat) : Bytes := (encodeEvent noteHost (noteEvent n)).toOption.getD []

theorem note_encoded : ∀ n < 2, encodeEvent noteHost (noteEvent n) = .ok (noteLine n) := by
  decide +kernel

theorem dictOk_noteEvent (n : Nat) : DictOk noteHost (noteEvent n) := by
  rw [dictOk_iff]
  have sorted : Members.Sorted (noteEvent 0) ∧ Members.Sorted (noteEvent 1) := by decide +kernel
  match n with
  | 0 => exact ⟨sorted.1, by simp [noteEvent, Json.Ok]⟩
  | _ + 1 => exact ⟨sorted.2, by simp [noteEvent, Json.Ok]⟩

/-- An append of one of the two. -/
def noteAppend (n : Nat) : Action := .append none (fun _ => .ok (noteEvent n))

theorem note_built {n : Nat} {content : Bytes} {head : Option Str} (inside : n < 2)
    (tail : readLastEventHash noteHost "journal" content = .ok head) :
    appendBuilt noteHost "journal" content (fun _ => .ok (noteEvent n)) =
      .ok ⟨content ++ (noteLine n ++ [10]), noteEvent n, head⟩ :=
  appendBuilt_eq_ok.mpr ⟨noteLine n, tail, rfl, note_encoded n inside, rfl⟩

/-- What an append of one of the two assumes. -/
theorem occurring_note {occurs : Bytes → Prop} {world : World} {n : Nat} {head : Option Str} (inside : n < 2)
    (tail : readLastEventHash noteHost "journal" (world.opened none) = .ok head) (before : occurs (world.opened none))
    (after : occurs (world.opened none ++ (noteLine n ++ [10]))) :
    Occurring noteHost "journal" occurs world (noteAppend n) := by
  refine ⟨before, ?_⟩
  intro appended built
  rw [note_built inside tail] at built
  cases built
  exact ⟨dictOk_noteEvent n, after⟩

/-- An empty file, and the same with the tables a look under the lock leaves. -/
def noteStart (looked : Bool) : World := ⟨some [], if looked then some ⟨0, none, .empty⟩ else none⟩

/-- The decision in the file and in the tables. -/
def noteEnd : World :=
  ⟨some (noteLine 0 ++ [10]),
    some ⟨(noteLine 0 ++ [10]).length, some (lit "h1"), evolveIdemTables .empty (noteEvent 0)⟩⟩

theorem note_stored : asStr (get (noteEvent 0) "event_hash") = some (lit "h1") ∧
    asStr (get (noteEvent 1) "event_hash") = some (lit "h2") := by
  decide +kernel

/-- What occurs when the decision is appended to an empty file. -/
def noteGrows (content : Bytes) : Prop := content = [] ∨ content = noteLine 0 ++ [10]

theorem cache_coherent_sample :
    Coherent noteHost "journal" noteEnd ∧
      ∀ action, Occurring noteHost "journal" noteGrows noteEnd action → OnWhole noteEnd action →
        Rebuilds noteHost "journal" noteEnd action := by
  have empty : readLastEventHash noteHost "journal" [] = .ok none := rfl
  have determined : Determined noteHost "journal" noteGrows := by
    intro content other head one two size _ _
    rcases one with rfl | rfl <;> rcases two with rfl | rfl <;> simp_all
  have begins : ∀ content ∈ (noteStart false).file, noteGrows content := by
    rintro content ⟨⟩
    exact .inl rfl
  have looked : step noteHost "journal" (noteStart false) (.check none (lit "pay") (lit "k1")) =
      some (noteStart true) := rfl
  have appended : step noteHost "journal" (noteStart true) (noteAppend 0) = some noteEnd := by
    have built := @note_built 0 [] none (by decide) empty
    simp [step, noteAppend, noteStart, noteEnd, World.opened, built, noteIdemAppend, note_stored.1]
  have occurring : Occurring noteHost "journal" noteGrows (noteStart true) (noteAppend 0) :=
    occurring_note (by decide) empty (.inl rfl) (.inr rfl)
  have run : Run (step noteHost "journal")
      (fun world action => Occurring noteHost "journal" noteGrows world action ∧ OnWhole world action)
      (noteStart false) [.check none (lit "pay") (lit "k1"), noteAppend 0] noteEnd := by
    apply Run.cons ⟨.inl rfl, trivial⟩ looked
    exact .cons ⟨occurring, blank_nil⟩ appended (.nil _)
  exact cache_coherent determined rfl begins run

/-! ## An unterminated line -/

/-- The file of the checkpoint alone, as long as that of the two lines glued together. -/
def noteOther : Bytes := List.replicate (noteLine 0).length 10 ++ (noteLine 1 ++ [10])

/-- The tables of the decision in a file without a newline. -/
def noteTables : IdemTables := (collectIdemTables noteHost (noteLine 0)).toOption.getD .empty

theorem note_answers :
    readLastEventHash noteHost "journal" (noteLine 0) = .ok (some (lit "h1")) ∧
    (readLastEventHash noteHost "journal" (noteLine 0 ++ (noteLine 1 ++ [10]))).toOption = none ∧
    (collectIdemTables noteHost (noteLine 0)).toOption.isSome = true ∧
    (evolveIdemTables noteTables (noteEvent 1)).decisions.length = 1 ∧
    (collectIdemTables noteHost noteOther).toOption.map (fun tables => tables.decisions.length) = some 0 := by
  decide +kernel

theorem noteTables_collected : collectIdemTables noteHost (noteLine 0) = .ok noteTables := by
  have isOk := note_answers.2.2.1
  unfold noteTables
  cases found : collectIdemTables noteHost (noteLine 0) with
  | error e =>
    rw [found] at isOk
    cases isOk
  | ok tables => rfl

/-- What occurs when the checkpoint is glued to the decision and its file put in their place. -/
def noteOccurs (content : Bytes) : Prop :=
  content = noteLine 0 ∨ content = noteLine 0 ++ (noteLine 1 ++ [10]) ∨ content = noteOther

theorem note_determined : Determined noteHost "journal" noteOccurs := by
  have refused := note_answers.2.1
  have solid := solid_encodeEvent (note_encoded 1 (by decide))
  have positive := List.length_pos_iff.mpr solid.nonempty
  intro content other head one two size tail tailOther
  rcases one with rfl | rfl | rfl <;> rcases two with rfl | rfl | rfl
  · rfl
  · simp at size
  · simp [noteOther] at size
  · simp at size
  · rfl
  · rw [tail] at refused
    cases refused
  · simp [noteOther] at size
  · rw [tailOther] at refused
    cases refused
  · rfl

/-- The file and the entry: the decision alone, looked up, and glued to the checkpoint. -/
def noteWorld : Nat → World
  | 0 => ⟨some (noteLine 0), none⟩
  | 1 => ⟨some (noteLine 0), some ⟨(noteLine 0).length, some (lit "h1"), noteTables⟩⟩
  | _ => ⟨some (noteLine 0 ++ (noteLine 1 ++ [10])), some ⟨(noteLine 0 ++ (noteLine 1 ++ [10])).length,
      some (lit "h2"), evolveIdemTables noteTables (noteEvent 1)⟩⟩

/-- The entry of the glued file is taken for one of the file that replaces it. -/
theorem unterminated_breaks : ¬ ∀ (host : Host) (name : String) (occurs : Bytes → Prop) (start last : World)
    (actions : List Action), Determined host name occurs → start.cache = none →
    (∀ content ∈ start.file, occurs content) → Run (step host name) (Occurring host name occurs) start actions last →
      Coherent host name last := by
  intro all
  obtain ⟨tail, -, -, evolved, collected⟩ := note_answers
  have looked : lockedBlockingPriorId noteHost true "journal" none (noteLine 0) (lit "pay") (lit "k1") =
      .ok ((indexedBlockingPrior noteHost noteTables (lit "pay") (lit "k1")).bind idOf, (noteWorld 1).cache) := by
    simp [lockedBlockingPriorId, indexedBlockingPriorId, tail, cachedIdemTables, noteTables_collected, noteWorld, bind,
      Except.bind, pure, Except.pure]
  have checked : step noteHost "journal" (noteWorld 0) (.check none (lit "pay") (lit "k1")) = some (noteWorld 1) := by
    have opened : (noteWorld 0).opened none = noteLine 0 := rfl
    have nothing : (noteWorld 0).cache = none := rfl
    rw [step, opened, nothing, looked]
    rfl
  have appended : step noteHost "journal" (noteWorld 1) (noteAppend 1) = some (noteWorld 2) := by
    have built := @note_built 1 _ _ (by decide) tail
    simp [step, noteAppend, noteWorld, World.opened, built, noteIdemAppend, note_stored.2]
  have whole : fragment (List.replicate (noteLine 0).length (10 : UInt8)) = [] := by
    rw [fragment, List.rtakeWhile_eq_nil_iff]
    intro nonempty
    have newline := List.eq_of_mem_replicate (List.getLast_mem nonempty)
    rw [newline]
    decide
  have otherTail : readLastEventHash noteHost "journal" noteOther = .ok (some (lit "h2")) := by
    have ends : ∀ b ∈ ([10] : Bytes), isLineEnd b = true := by simp [isLineEnd]
    have stored : Members.get (noteEvent 1) (lit "event_hash") = some (Json.str (lit "h2")) := by
      simp [noteEvent, Members.get]
    exact Tail.readLastEventHash_written "journal" whole (dictOk_noteEvent 1) (note_encoded 1 (by decide)) ends stored
  have run : Run (step noteHost "journal") (Occurring noteHost "journal" noteOccurs) (noteWorld 0)
      [.check none (lit "pay") (lit "k1"), noteAppend 1, .foreign (some noteOther)]
      ⟨some noteOther, (noteWorld 2).cache⟩ := by
    refine .cons (.inl rfl) checked (.cons ?_ appended (.cons ?_ rfl (.nil _)))
    · exact @occurring_note noteOccurs (noteWorld 1) 1 (some (lit "h1")) (by decide) tail (.inl rfl) (.inr (.inl rfl))
    · rintro content ⟨⟩
      exact .inr (.inr rfl)
  have coherent := all noteHost "journal" noteOccurs (noteWorld 0) _ _ note_determined rfl
    (by rintro content ⟨⟩; exact .inl rfl) run
  have tables := coherent _ rfl noteOther rfl (by simp [noteOther]) otherTail
  rw [tables] at collected
  simp [Except.toOption, evolved] at collected

/-- Tables found without the lock are those of the file. -/
theorem unlockedTables_exact {tables : IdemTables} (coherent : Coherent host name world)
    (found : world.unlockedTables host name = some tables) :
    ∃ content, world.file = some content ∧ collectIdemTables host content = .ok tables := by
  obtain ⟨content, there, looked⟩ := Option.bind_eq_some_iff.mp found
  obtain ⟨head, read, hit⟩ := Option.bind_eq_some_iff.mp looked
  obtain ⟨entry, kept, rfl⟩ := Option.map_eq_some_iff.mp hit
  rw [Option.filter_eq_some_iff, decide_eq_true_eq] at kept
  have tail : readLastEventHash host name content = .ok head := by
    cases answer : readLastEventHash host name content with
    | error e =>
      rw [answer] at read
      cases read
    | ok value =>
      rw [answer] at read
      cases read
      rfl
  exact ⟨content, there, coherent entry kept.1 content there kept.2.1 (by rw [tail, kept.2.2])⟩

/-- A whole call of `append_event_atomic` is a look under the lock and an append. -/
theorem appendEventAtomic_steps {action key : Str} {build : Option Str → Option Str → Except PyError Dict}
    {appended : Appended} {cache : IdemCache}
    (called : appendEventAtomic host true name world.cache world.file (some (action, key)) build =
      .ok (appended, cache)) :
    ∃ blocking, play (step host name) world
      [.opening, .check none action key, .append none (fun previous => build previous blocking)] =
        some ⟨some appended.content, cache⟩ := by
  obtain ⟨looked, found, rest⟩ := bind_eq_ok.mp called
  obtain ⟨result, built, same⟩ := bind_eq_ok.mp rest
  cases same
  have checked : lockedBlockingPriorId host true name world.cache (world.file.getD []) action key = .ok looked := found
  refine ⟨looked.1, ?_⟩
  simp [play, step, World.opened, checked, built]

end Tesera.Journal.IndexCache
