import Tesera.TypeScript.LineRoundTrip
import Tesera.Transition

/-!
The witness server of `Witness.ts`: a count and a head in memory, and the log that they are read
from when it starts. An append that fails after its write leaves the log ahead of them.
-/

namespace Tesera.TypeScript.Witness
open Tesera.Text Tesera.Text.Unicode Tesera.Text.Lines Tesera.Text.Json Tesera.Transition
open Tesera.TypeScript.Value Tesera.TypeScript.Escape Tesera.TypeScript.Canonical Tesera.TypeScript.FileJournal

variable (engine : Engine)

/-- The lines of the log that are not blank. -/
def logLines (log : Bytes) : List Str := ((textOf log).splitOn 10).filter (fun line => decide (trim line ≠ []))

/-- `event_hash` where it is a string. -/
def hashOf : Json → Option Str
  | .obj event =>
      match Members.get event (lit "event_hash") with
      | some (.str hash) => some hash
      | _ => none
  | _ => none

/-- The hash of the last line, null of none; it throws where that is not JSON, or is `null`. -/
def headOf (lines : List Str) : Option (Option Str) :=
  match lines.getLast? with
  | none => some none
  | some line =>
      match parseJson engine line with
      | none => none
      | some .null => none
      | some value => some (hashOf value)

/-- The body of a request. What `JSON.parse` makes of it has strings of code units. -/
structure Body where
  text : Str
  units : ∀ value, parseJson engine text = some value → value.Strings Units

/-- Where an append fails: before it writes, after some bytes of its line, or after all of them,
when the file is opened again, flushed or closed. -/
inductive Fault where
  | unwritten
  | cut (bytes : Nat)
  | unflushed

/-- A pair that was signed, and the log then. -/
structure Signed where
  count : Nat
  head : Option Str
  log : Option Bytes

/-- The log, the server when it runs, whether an append since its start has left bytes without
being counted, and what has been signed. -/
structure State where
  log : Option Bytes
  server : Option (Nat × Option Str)
  behind : Bool
  signed : List Signed

def State.content (state : State) : Bytes := state.log.getD []

inductive Action where
  | start
  | append (tooLarge : Bool) (body : Body engine) (fault : Option Fault)
  | checkpoint

/-- The event of a request that is accepted: an object with an id and a hash. -/
def accepted (tooLarge : Bool) (body : Body engine) : Option (Record × Str) :=
  if tooLarge then none
  else
    match parseJson engine body.text with
    | some (.obj record) =>
        match Members.get record (lit "event_id"), Members.get record (lit "event_hash") with
        | some (.str _), some (.str hash) => some (record, hash)
        | _, _ => none
    | _ => none

/-- The state after a write that leaves the line or a part of it, and is not counted. -/
def State.leave (state : State) (bytes : Bytes) : State :=
  { state with log := some (state.content ++ bytes), behind := state.behind || !bytes.isEmpty }

def step (state : State) : Action engine → Option State
  | .start =>
      match state.log with
      | none => some { state with server := some (0, none), behind := false }
      | some log =>
          let lines := logLines log
          some { state with server := (headOf engine lines).map (fun head => (lines.length, head)), behind := false }
  | .append tooLarge body fault =>
      match state.server, accepted engine tooLarge body with
      | some (count, _), some (record, hash) =>
          match canonical (.obj record), fault with
          | none, _ => some state
          | some _, some .unwritten => some state
          | some line, some (.cut bytes) => some (state.leave ((bufferOf (line ++ [10])).take bytes))
          | some line, some .unflushed => some (state.leave (bufferOf (line ++ [10])))
          | some line, none =>
              some { state with log := some (written state.content line), server := some (count + 1, some hash) }
      | _, _ => some state
  | .checkpoint =>
      match state.server with
      | some (count, head) => some { state with signed := ⟨count, head, state.log⟩ :: state.signed }
      | none => some state

/-- The count is that of the lines that are not blank, and the head the hash of the last. -/
def Matches (log : Option Bytes) (count : Nat) (head : Option Str) : Prop :=
  count = (logLines (log.getD [])).length ∧ headOf engine (logLines (log.getD [])) = some head

/-- An append to a log that the server keeps up with is to one that is empty or ends in a newline,
and of an event without a marked string; and the server keeps up when it signs. -/
def Keeps (state : State) : Action engine → Prop
  | .start => True
  | .append tooLarge body _ => state.behind = false → ∀ record hash, accepted engine tooLarge body = some (record, hash) →
      Terminated state.content ∧ (Json.obj record).Strings Unmarked
  | .checkpoint => state.behind = false

/-! ## One more line -/

variable {engine}

theorem logLines_nil : logLines [] = [] := by decide

theorem splitOn_line {line : Str} (free : 10 ∉ line) : (line ++ [10]).splitOn 10 = [line, []] := by
  have plain : ∀ u ∈ line, (u == 10) = false := by
    intro u member
    simpa using fun same : u = 10 => free (same ▸ member)
  have cut : (line ++ 10 :: ([] : Str)).splitOnP (fun u => u == 10) =
      line.splitOnP (fun u => u == 10) ++ ([] : Str).splitOnP (fun u => u == 10) :=
    List.splitOnP_append_cons line [] rfl
  rw [List.splitOnP_eq_singleton plain] at cut
  exact cut

theorem terminated_cases {log : Bytes} (terminated : Terminated log) : log = [] ∨ ∃ before, log = before ++ [10] := by
  cases log using List.reverseRecOn with
  | nil => exact .inl rfl
  | append_singleton before last =>
    have newline := terminated last (by simp)
    exact .inr ⟨before, by rw [show last = 10 by simpa [isNewline] using newline]⟩

/-- A line written to a log that ends in a newline is its last one. -/
theorem logLines_written {log : Bytes} (terminated : Terminated log) {line : Str} (one : OneLine line) (solid : trim line ≠ []) :
    logLines (written log line) = logLines log ++ [line] := by
  have text : textOf (bufferOf (line ++ [10])) = line ++ [10] := by
    have newline : WellFormed ([10] : Str) := wellFormed_low (by decide)
    exact textOf_bufferOf (wellFormed_append one.wellFormed newline)
  have kept : [line, []].filter (fun line => decide (trim line ≠ [])) = [line] := by
    rw [List.filter_cons_of_pos (by simpa using solid), List.filter_cons_of_neg (by decide)]
    rfl
  apply (terminated_cases terminated).elim
  · intro empty
    rw [empty, logLines_nil, logLines, written, List.nil_append, text, splitOn_line one.noNewline, kept, List.nil_append]
  · intro found
    obtain ⟨before, ends⟩ := found
    have longer : textOf (written log line) = textOf before ++ 10 :: (line ++ [10]) := by
      rw [written, ends, List.append_assoc, List.singleton_append, textOf_newline, text]
    have shorter : textOf log = textOf before ++ 10 :: [] := by
      rw [ends, textOf_newline]
      rfl
    have split : ∀ rest : Str, (textOf before ++ 10 :: rest).splitOn 10 = (textOf before).splitOn 10 ++ rest.splitOn 10 := by
      intro rest
      exact List.splitOnP_append_cons (textOf before) rest rfl
    rw [logLines, logLines, longer, shorter, split, split, splitOn_line one.noNewline, List.splitOn_nil, List.filter_append,
      List.filter_append, kept, List.filter_cons_of_neg (by decide), List.filter_nil, List.append_nil]

/-! ## What was accepted -/

theorem canonical_of_items {items : List Json} {parts : List Str} (encoded : canonicalItems items = some parts) :
    ∀ v ∈ items, (canonical v).isSome = true := by
  induction items generalizing parts with
  | nil => exact List.forall_mem_nil _
  | cons first items ih =>
    rw [canonicalItems] at encoded
    obtain ⟨text, head, later⟩ := Option.bind_eq_some_iff.mp encoded
    obtain ⟨rest, tail, _⟩ := Option.map_eq_some_iff.mp later
    exact List.forall_mem_cons.mpr ⟨Option.isSome_of_eq_some head, ih tail⟩

theorem canonical_of_members {members : Record} {parts : List Str} (encoded : canonicalMembers members = some parts) :
    ∀ p ∈ members, (canonical p.2).isSome = true := by
  induction members generalizing parts with
  | nil => exact List.forall_mem_nil _
  | cons first members ih =>
    obtain ⟨key, value⟩ := first
    rw [canonicalMembers] at encoded
    obtain ⟨text, head, later⟩ := Option.bind_eq_some_iff.mp encoded
    obtain ⟨rest, tail, _⟩ := Option.map_eq_some_iff.mp later
    exact List.forall_mem_cons.mpr ⟨Option.isSome_of_eq_some head, ih tail⟩

mutual

/-- What `JSON.parse` makes of a tree is made of doubles, unless it holds an infinite number, which
`canonical` refuses. -/
theorem ok_ofTree : (tree : Tree) → (encoded : (canonical (ofTree engine tree)).isSome = true) → (ofTree engine tree).Ok engine
  | .null, _ => by simp only [ofTree, Json.Ok]
  | .bool _, _ => by simp only [ofTree, Json.Ok]
  | .const _, _ => by simp only [ofTree, Json.Ok]
  | .num token, encoded => by
      rw [ofTree, Engine.number] at encoded ⊢
      cases value : engine.double (Decimal.decOf token) with
      | none =>
        rw [value] at encoded
        cases encoded
      | some d =>
        rw [Json.Ok]
        exact ⟨d, rfl, engine.double_double value⟩
  | .str _, _ => by simp only [ofTree, Json.Ok]
  | .arr items, encoded => by
      rw [ofTree, canonical, Option.isSome_map] at encoded
      obtain ⟨parts, inner⟩ := Option.isSome_iff_exists.mp encoded
      rw [ofTree, Json.Ok]
      exact ok_ofItems items (canonical_of_items inner)
  | .obj members, encoded => by
      rw [ofTree, canonical, Option.isSome_map] at encoded
      obtain ⟨parts, inner⟩ := Option.isSome_iff_exists.mp encoded
      rw [ofTree, Json.Ok]
      refine ⟨Members.sorted_ofPairs _, okMembers_iff.mpr ?_⟩
      intro p member
      exact ok_ofMembers members p (Members.mem_ofPairs member) (canonical_of_members inner p member)

theorem ok_ofItems : (items : List Tree) → (encoded : ∀ v ∈ ofItems engine items, (canonical v).isSome = true) →
    OkItems engine (ofItems engine items)
  | [], _ => by simp only [ofItems, OkItems]
  | item :: items, encoded => by
      rw [ofItems] at encoded ⊢
      rw [OkItems]
      exact ⟨ok_ofTree item (encoded _ List.mem_cons_self),
        ok_ofItems items (fun v member => encoded v (List.mem_cons_of_mem _ member))⟩

theorem ok_ofMembers : (members : List (List Piece × Tree)) → ∀ p ∈ ofMembers engine members, (canonical p.2).isSome = true →
    p.2.Ok engine
  | [] => List.forall_mem_nil _
  | (key, tree) :: members => by
      rw [ofMembers]
      exact List.forall_mem_cons.mpr ⟨ok_ofTree tree, ok_ofMembers members⟩

end

/-- An accepted event that is encoded is an object of `JSON.parse`, with its hash. -/
theorem accepted_facts {tooLarge : Bool} {body : Body engine} {record : Record} {hash line : Str}
    (taken : accepted engine tooLarge body = some (record, hash)) (encoded : canonical (.obj record) = some line) :
    (Json.obj record).Ok engine ∧ (Json.obj record).Strings Units ∧ hashOf (.obj record) = some hash := by
  have facts : parseJson engine body.text = some (.obj record) ∧ hashOf (.obj record) = some hash := by
    rw [accepted] at taken
    split_ifs at taken
    split at taken
    next parsed found =>
      split at taken
      next _ _ _ stored =>
        obtain ⟨same, hashes⟩ := Prod.mk.inj (Option.some.inj taken)
        subst same
        refine ⟨found, ?_⟩
        rw [hashOf, stored, hashes]
      next => cases taken
    next => cases taken
  refine ⟨?_, body.units _ facts.1, facts.2⟩
  obtain ⟨tree, _, same⟩ := Option.map_eq_some_iff.mp facts.1
  have ok := @ok_ofTree engine tree
  rw [same] at ok
  exact ok (Option.isSome_of_eq_some encoded)

/-- A counted append to a log that the server keeps up with. -/
theorem matches_written {log : Option Bytes} {count : Nat} {head : Option Str} {tooLarge : Bool} {body : Body engine}
    {record : Record} {hash line : Str} (before : Matches engine log count head) (terminated : Terminated (log.getD []))
    (unmarked : (Json.obj record).Strings Unmarked) (taken : accepted engine tooLarge body = some (record, hash))
    (encoded : canonical (.obj record) = some line) :
    Matches engine (some (written (log.getD []) line)) (count + 1) (some hash) := by
  obtain ⟨ok, units, stored⟩ := accepted_facts taken encoded
  have text : line = render (toTree (.obj record)) := Option.some.inj (encoded.symm.trans (canonical_eq engine _ ok))
  have one : OneLine line := text ▸ LineRoundTrip.oneLine_render units unmarked
  have solid : trim line ≠ [] := by
    rw [text, LineRoundTrip.trim_render, ← text]
    exact one.nonempty
  have parsed : parseJson engine line = some (.obj record) := text ▸ (parseJson_canonical engine ok).mpr unmarked
  have lines : logLines (written (log.getD []) line) = logLines (log.getD []) ++ [line] := logLines_written terminated one solid
  constructor
  · rw [Option.getD_some, lines, List.length_append, ← before.1]
    rfl
  · rw [Option.getD_some, lines, headOf, List.getLast?_concat]
    simp only [parsed, stored]

/-! ## Runs -/

/-- A server that keeps up matches its log, and so has every signed pair matched it. -/
structure Sound (engine : Engine) (state : State) : Prop where
  current : state.behind = false → ∀ count head, state.server = some (count, head) → Matches engine state.log count head
  signed : ∀ signed ∈ state.signed, Matches engine signed.log signed.count signed.head

theorem Sound.leave {state : State} (sound : Sound engine state) (bytes : Bytes) : Sound engine (state.leave bytes) where
  current := by
    intro up count head running
    rw [State.leave, Bool.or_eq_false_iff] at up
    have empty : bytes = [] := by simpa using up.2
    have before := sound.current up.1 count head running
    rw [Matches, State.leave, empty, List.append_nil]
    exact before
  signed := sound.signed

theorem Sound.step {state next : State} {action : Action engine} (sound : Sound engine state) (keeps : Keeps engine state action)
    (taken : step engine state action = some next) : Sound engine next := by
  cases action with
  | start =>
    rw [Witness.step] at taken
    split at taken
    next empty =>
      rw [← Option.some.inj taken]
      refine ⟨?_, sound.signed⟩
      intro _ count head running
      obtain ⟨zero, null⟩ := Prod.mk.inj (Option.some.inj running)
      rw [Matches, ← zero, ← null, empty]
      exact ⟨rfl, rfl⟩
    next log found =>
      rw [← Option.some.inj taken]
      refine ⟨?_, sound.signed⟩
      intro _ count head running
      obtain ⟨last, read, same⟩ := Option.map_eq_some_iff.mp running
      obtain ⟨counted, here⟩ := Prod.mk.inj same
      rw [Matches, found, Option.getD_some, ← counted, ← here]
      exact ⟨rfl, read⟩
  | append tooLarge body fault =>
    rw [Witness.step] at taken
    split at taken
    next count previous record hash running event =>
      split at taken
      next => exact Option.some.inj taken ▸ sound
      next => exact Option.some.inj taken ▸ sound
      next => exact Option.some.inj taken ▸ sound.leave _
      next => exact Option.some.inj taken ▸ sound.leave _
      next line _ encoded =>
        rw [← Option.some.inj taken]
        refine ⟨?_, sound.signed⟩
        intro up total last now
        obtain ⟨same, hashes⟩ := Prod.mk.inj (Option.some.inj now)
        rw [← same, ← hashes]
        obtain ⟨terminated, unmarked⟩ := keeps up record hash event
        exact matches_written (sound.current up count previous running) terminated unmarked event encoded
    next => exact Option.some.inj taken ▸ sound
  | checkpoint =>
    rw [Witness.step] at taken
    split at taken
    next count head running =>
      rw [← Option.some.inj taken]
      refine ⟨sound.current, ?_⟩
      exact List.forall_mem_cons.mpr ⟨sound.current keeps count head running, sound.signed⟩
    next => exact Option.some.inj taken ▸ sound

/-- What is signed matches the log, in every run whose appends and checkpoints keep to this. -/
theorem signed_matches (engine : Engine) {log : Option Bytes} {actions : List (Action engine)} {last : State}
    (run : Run (step engine) (Keeps engine) ⟨log, none, false, []⟩ actions last) :
    ∀ signed ∈ last.signed, Matches engine signed.log signed.count signed.head := by
  have start : Sound engine ⟨log, none, false, []⟩ := ⟨fun _ _ _ running => (by cases running), List.forall_mem_nil _⟩
  exact (run.keeps (fun _ _ _ keeps sound taken => sound.step keeps taken) start).signed

/-! ## A flush that fails -/

def sampleEngine : Engine := LineRoundTrip.plainHost.toEngine

def sampleEvent : Record := [(lit "event_hash", .str (lit "h")), (lit "event_id", .str (lit "e"))]

def sampleLine : Str := lit "\x7b\"event_hash\":\"h\",\"event_id\":\"e\"\x7d"

theorem sampleEvent_encoded : canonical (.obj sampleEvent) = some sampleLine := by decide +kernel

theorem sampleEvent_unmarked : (Json.obj sampleEvent).Strings Unmarked := by
  simp only [sampleEvent, Json.Strings, StringsMembers, Unmarked]
  decide

theorem sampleLine_parsed : parseJson sampleEngine sampleLine = some (.obj sampleEvent) := by
  have ok : (Json.obj sampleEvent).Ok sampleEngine := by
    simp only [sampleEvent, Json.Ok, OkMembers, Members.Sorted]
    decide
  have text : sampleLine = render (toTree (.obj sampleEvent)) :=
    Option.some.inj (sampleEvent_encoded.symm.trans (canonical_eq sampleEngine _ ok))
  exact text ▸ (parseJson_canonical sampleEngine ok).mpr sampleEvent_unmarked

def sampleBody : Body sampleEngine where
  text := sampleLine
  units := by
    intro value parsed
    rw [← Option.some.inj (sampleLine_parsed.symm.trans parsed)]
    simp only [sampleEvent, Json.Strings, StringsMembers, Canonical.Units]
    decide

theorem sample_accepted : accepted sampleEngine false sampleBody = some (sampleEvent, lit "h") := by
  rw [accepted, if_neg (by decide), sampleBody, sampleLine_parsed]
  rfl

/-- An append that is counted, and a checkpoint. -/
theorem signed_matches_sample : Matches sampleEngine (some (written [] sampleLine)) 1 (some (lit "h")) := by
  have run : Run (step sampleEngine) (Keeps sampleEngine) ⟨none, none, false, []⟩
      [.start, .append false sampleBody none, .checkpoint]
      ⟨some (written [] sampleLine), some (1, some (lit "h")), false, [⟨1, some (lit "h"), some (written [] sampleLine)⟩]⟩ := by
    apply Run.cons trivial rfl
    apply Run.cons
    · intro _ record hash event
      have same := Prod.mk.inj (Option.some.inj (sample_accepted.symm.trans event))
      exact ⟨fun b none => (by cases none), same.1 ▸ sampleEvent_unmarked⟩
    · simp only [step, sample_accepted, sampleEvent_encoded]
      rfl
    · exact .cons rfl rfl (.nil _)
  exact signed_matches sampleEngine run _ List.mem_cons_self

/-- When the flush fails, the line is in the log and the next checkpoint signs a count without it. -/
theorem unflushed_signs_short : ∃ actions last, Run (step sampleEngine) (fun _ _ => True) ⟨none, none, false, []⟩ actions last ∧
    ∃ signed ∈ last.signed, signed.count = 0 ∧ (logLines (signed.log.getD [])).length = 1 := by
  refine ⟨[.start, .append false sampleBody (some .unflushed), .checkpoint],
    ⟨some (bufferOf (sampleLine ++ [10])), some (0, none), true, [⟨0, none, some (bufferOf (sampleLine ++ [10]))⟩]⟩, ?_,
    _, List.mem_cons_self, rfl, by decide +kernel⟩
  apply Run.cons trivial rfl
  apply Run.cons trivial
  · simp only [step, sample_accepted, sampleEvent_encoded]
    rfl
  · exact .cons trivial rfl (.nil _)

end Tesera.TypeScript.Witness
