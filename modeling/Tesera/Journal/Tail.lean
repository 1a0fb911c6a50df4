import Tesera.Journal.Record

/-!
Reading the end of a journal file. `_read_last_event_hash` looks at a window of the
file's tail and widens it until it holds a complete line; the answer does not depend on
the windows, only on the last line of the file.
-/

namespace Tesera.Journal.Tail
open Tesera.Text Tesera.Text.Unicode Tesera.Text.Lines
open Tesera.Python.Value Tesera.Python.JsonCodec Tesera.Journal.Record

def corruptTail (name : String) : PyError :=
  .journalError s!"journal tail is corrupt; refusing to extend a broken chain (run `tesera verify` on {name})"

/-- `_event_hash_from_line`. Subscripting anything but an object raises a `TypeError`,
which is not caught. -/
def eventHashFromLine (host : Host) (name : String) (line : Bytes) : Except PyError Str :=
  match decodeLine host line with
  | .error e => if e.isValueError then .error (corruptTail name) else .error e
  | .ok (.dict event) =>
      match Members.get event (lit "event_hash") with
      | none => .error (corruptTail name)
      | some (.str hash) => .ok hash
      | some _ => .error (.journalError "journal tail has a non-string event_hash; refusing to extend")
  | .ok _ => .error .typeError

/-- The bytes `rstrip(b"\r\n")` removes. -/
def isLineEnd (b : UInt8) : Bool := b == 13 || b == 10

def tailReadBytes : Nat := 64 * 1024

/-- The windows of `_read_last_event_hash`; each is twice the one before. -/
def readWindows (host : Host) (name : String) (content : Bytes) :
    Nat → Nat → Except PyError (Option Str)
  | 0, _ => .ok none
  | fuel + 1, window =>
      let start := content.length - window
      let stripped := (content.drop start).rdropWhile isLineEnd
      if stripped = [] then
        if start = 0 then .ok none else readWindows host name content fuel (2 * window)
      else if stripped.any isNewline then
        (eventHashFromLine host name (fragment stripped)).map some
      else if start = 0 then (eventHashFromLine host name stripped).map some
      else readWindows host name content fuel (2 * window)

/-- `_read_last_event_hash`. The window doubles, so the length of the file bounds the
number of windows. -/
def readLastEventHash (host : Host) (name : String) (content : Bytes) : Except PyError (Option Str) :=
  if content.length = 0 then .ok none
  else readWindows host name content (content.length + 1) tailReadBytes

/-- The last line of a file whose trailing line ends are removed. -/
def lastLine (content : Bytes) : Bytes := fragment (content.rdropWhile isLineEnd)

/-! ## The windows do not matter -/

theorem fragment_append {a b : Bytes} (newline : b.any isNewline = true) :
    fragment (a ++ b) = fragment b := by
  have stops : ¬ (b.reverse.takeWhile (fun c => !isNewline c)).length = b.reverse.length := by
    intro same
    have all := (List.takeWhile_prefix (fun c => !isNewline c) (l := b.reverse)).eq_of_length same
    obtain ⟨c, member, isNl⟩ := List.any_eq_true.mp newline
    have plain := List.mem_takeWhile_imp (by rw [all]; exact List.mem_reverse.mpr member)
    simp [isNl] at plain
  unfold fragment List.rtakeWhile
  rw [List.reverse_append, List.takeWhile_append, if_neg stops]

theorem fragment_of_no_newline {line : Bytes} (plain : line.any isNewline = false) :
    fragment line = line := by
  unfold fragment
  rw [List.rtakeWhile_eq_self_iff]
  intro b member
  simpa using List.any_eq_false.mp plain b member

theorem rdropWhile_append {a b : Bytes} (kept : b.rdropWhile isLineEnd ≠ []) :
    (a ++ b).rdropWhile isLineEnd = a ++ b.rdropWhile isLineEnd := by
  unfold List.rdropWhile at kept ⊢
  have some : ¬ (b.reverse.dropWhile isLineEnd).isEmpty = true := by simpa using kept
  rw [List.reverse_append, List.dropWhile_append, if_neg some, List.reverse_append, List.reverse_reverse]

theorem readWindows_eq (host : Host) (name : String) (content : Bytes) (fuel window : Nat)
    (enough : content.length ≤ window + fuel) (positive : 0 < window) :
    readWindows host name content (fuel + 1) window =
      if content.rdropWhile isLineEnd = [] then .ok none
      else (eventHashFromLine host name (lastLine content)).map some := by
  induction fuel generalizing window with
  | zero =>
    have start : content.length - window = 0 := by omega
    simp only [readWindows, start, List.drop_zero, if_true, lastLine]
    split_ifs with empty newline
    · rfl
    · rfl
    · rw [fragment_of_no_newline (by simpa using newline)]
  | succ fuel ih =>
    rw [readWindows]
    have wider := ih (2 * window) (by omega) (by omega)
    by_cases start : content.length - window = 0
    · simp only [start, List.drop_zero, if_true, lastLine]
      split_ifs with empty newline
      · rfl
      · rfl
      · rw [fragment_of_no_newline (by simpa using newline)]
    · simp only [if_neg start]
      by_cases empty : (content.drop (content.length - window)).rdropWhile isLineEnd = []
      · rw [if_pos empty, wider]
      · rw [if_neg empty]
        have split := List.take_append_drop (content.length - window) content
        have whole : content.rdropWhile isLineEnd =
            content.take (content.length - window) ++
              (content.drop (content.length - window)).rdropWhile isLineEnd := by
          conv_lhs => rw [← split]
          exact rdropWhile_append empty
        have nonempty : content.rdropWhile isLineEnd ≠ [] := by
          rw [whole]
          simp [empty]
        by_cases newline : ((content.drop (content.length - window)).rdropWhile isLineEnd).any isNewline = true
        · rw [if_pos newline, if_neg nonempty, lastLine, whole, fragment_append newline]
        · rw [if_neg newline, wider]

/-- The hash the tail holds is that of the last line, whatever the windows. -/
theorem readLastEventHash_eq (host : Host) (name : String) (content : Bytes) :
    readLastEventHash host name content =
      if content.rdropWhile isLineEnd = [] then .ok none
      else (eventHashFromLine host name (lastLine content)).map some := by
  unfold readLastEventHash
  split_ifs with nothing empty empty
  · rfl
  · rw [List.eq_nil_of_length_eq_zero nothing] at empty
    exact absurd rfl empty
  · rw [readWindows_eq host name content content.length tailReadBytes (by omega) (by decide), if_pos empty]
  · rw [readWindows_eq host name content content.length tailReadBytes (by omega) (by decide), if_neg empty]

/-! ## The last event -/

theorem eventHashFromLine_of_decode {host : Host} {name : String} {line : Bytes} {event : Dict} {hash : Str}
    (decoded : decodeLine host line = .ok (.dict event))
    (stored : Members.get event (lit "event_hash") = some (.str hash)) :
    eventHashFromLine host name line = .ok hash := by
  simp only [eventHashFromLine, decoded, stored]

theorem eventHashFromLine_eq_ok {host : Host} {name : String} {line : Bytes} {hash : Str} :
    eventHashFromLine host name line = .ok hash ↔
      ∃ event, decodeLine host line = .ok (.dict event) ∧
        Members.get event (lit "event_hash") = some (.str hash) := by
  constructor
  · intro found
    unfold eventHashFromLine at found
    cases decoded : decodeLine host line with
    | error e =>
      simp only [decoded] at found
      split_ifs at found
    | ok v =>
      cases v with
      | dict event =>
        simp only [decoded] at found
        cases stored : Members.get event (lit "event_hash") with
        | none => simp [stored] at found
        | some value =>
          cases value with
          | str s =>
            simp only [stored, Except.ok.injEq] at found
            exact ⟨event, rfl, found ▸ stored⟩
          | _ => simp [stored] at found
      | _ => simp [decoded] at found
  · rintro ⟨event, decoded, stored⟩
    exact eventHashFromLine_of_decode decoded stored

theorem blank_of_lineEnds {space : Bytes} (ends : ∀ b ∈ space, isLineEnd b = true) : Blank space := by
  intro b member
  have here := ends b member
  simp only [isLineEnd, Bool.or_eq_true, beq_iff_eq] at here
  rcases here with rfl | rfl <;> decide

/-- The last line, where it is not blank, is the last record of the file. -/
theorem records_lastLine {content : Bytes} (kept : ¬ Blank (lastLine content)) :
    ∃ others, records content = others ++ [strip (lastLine content)] := by
  have whole : content.rdropWhile isLineEnd ++ content.rtakeWhile isLineEnd = content :=
    List.rdropWhile_append_rtakeWhile
  have parts := complete_append_fragment (content.rdropWhile isLineEnd)
  have shape : content = complete (content.rdropWhile isLineEnd) ++
      (lastLine content ++ content.rtakeWhile isLineEnd) := by
    rw [← List.append_assoc, lastLine, parts, whole]
  have blank : Blank (content.rtakeWhile isLineEnd) :=
    blank_of_lineEnds (fun b member => List.mem_rtakeWhile_imp member)
  refine ⟨records (complete (content.rdropWhile isLineEnd)), ?_⟩
  conv_lhs => rw [shape]
  have last : records (lastLine content ++ content.rtakeWhile isLineEnd) = [strip (lastLine content)] :=
    records_line_blank (fun b member => not_newline_of_mem_fragment member) kept blank
  rw [records_append (terminated_complete _), last]

theorem decodeLine_nil {host : Host} {event : Dict} : decodeLine host [] ≠ .ok (.dict event) := by
  intro decoded
  obtain ⟨text, utf8, loaded⟩ := decodeLine_eq_ok.mp decoded
  have empty := @utf8Decode_encode [] [] rfl
  rw [utf8] at empty
  cases empty
  unfold loads at loaded
  split_ifs at loaded
  have none : Json.parse (pyDialect host) [] = none := by
    simp [Json.parse, Json.parseValue, Json.skipWs]
  rw [none] at loaded
  cases loaded

/-- The hash of the last of some events. -/
def lastHash (events : List Dict) : Option Str :=
  events.getLast?.bind (fun event => asStr (get event "event_hash"))

/-- On a file whose records decode to events, the tail reader returns the hash of the
last event, or refuses. -/
theorem readLastEventHash_sound {host : Host} {name : String} {content : Bytes} {events : List Dict}
    {previous : Option Str}
    (decoded : Decoded host (records content) events)
    (found : readLastEventHash host name content = .ok previous) : previous = lastHash events := by
  rw [readLastEventHash_eq] at found
  split_ifs at found with empty
  · cases found
    have blank : Blank content :=
      blank_of_lineEnds (fun b member => List.rdropWhile_eq_nil_iff.mp empty b member)
    rw [records_of_blank blank] at decoded
    cases decoded
    rfl
  · cases line : eventHashFromLine host name (lastLine content) with
    | error e => simp [line, Except.map] at found
    | ok hash =>
      simp only [line, Except.map, Except.ok.injEq] at found
      subst found
      obtain ⟨event, decodedLine, stored⟩ := eventHashFromLine_eq_ok.mp line
      have stripped := decodeLine_strip decodedLine
      have kept : ¬ Blank (lastLine content) := by
        intro blank
        rw [strip_eq_nil.mpr blank] at stripped
        exact decodeLine_nil stripped
      obtain ⟨others, shape⟩ := records_lastLine kept
      rw [shape] at decoded
      obtain ⟨before, last, rfl, -, here⟩ := decoded_concat decoded
      rw [stripped] at here
      cases here
      simp [lastHash, Python.Value.get, stored, asStr]

/-! ## A written line -/

theorem last_of_solid {line : Bytes} (solid : Solid line) :
    ∃ before b, line = before ++ [b] ∧ isLineEnd b = false := by
  obtain ⟨before, b, rfl⟩ := line.eq_nil_or_concat.resolve_left solid.nonempty
  refine ⟨before, b, by simp, ?_⟩
  cases lineEnd : isLineEnd b with
  | false => rfl
  | true =>
    have blank : Blank [b] := blank_of_lineEnds (by simpa using lineEnd)
    have stripped := solid.stripped
    rw [List.concat_eq_append, strip_append_space blank] at stripped
    have shorter : (strip before).length ≤ before.length :=
      ((List.rdropWhile_prefix isSpace (before.dropWhile isSpace)).sublist.trans
        (List.dropWhile_sublist isSpace)).length_le
    rw [stripped] at shorter
    simp at shorter

/-- The last line of a file is the one written last, whatever line ends follow it. -/
theorem lastLine_written {content line ends : Bytes} (whole : fragment content = [])
    (solid : Solid line) (lineEnds : ∀ b ∈ ends, isLineEnd b = true) :
    (content ++ (line ++ ends)).rdropWhile isLineEnd = content ++ line ∧
      lastLine (content ++ (line ++ ends)) = line := by
  obtain ⟨before, b, shape, kept⟩ := last_of_solid solid
  have trimmed : (content ++ (line ++ ends)).rdropWhile isLineEnd = content ++ line := by
    unfold List.rdropWhile
    have noEnds : ∀ c ∈ ends.reverse, isLineEnd c = true :=
      fun c member => lineEnds c (List.mem_reverse.mp member)
    rw [← List.append_assoc, List.reverse_append, List.dropWhile_append_of_pos noEnds, shape]
    simp [kept]
  refine ⟨trimmed, ?_⟩
  rw [lastLine, trimmed]
  unfold fragment List.rtakeWhile
  rw [List.reverse_append, List.takeWhile_append]
  have all : line.reverse.takeWhile (fun c => !isNewline c) = line.reverse := by
    rw [List.takeWhile_eq_self_iff]
    intro c member
    simpa using solid.plain c (List.mem_reverse.mp member)
  have stops : content.reverse.takeWhile (fun c => !isNewline c) = [] := by
    unfold fragment List.rtakeWhile at whole
    simpa using whole
  rw [all, if_pos rfl, stops, List.append_nil, List.reverse_reverse]

/-- The tail reader returns the hash of a written event. -/
theorem readLastEventHash_written {host : Host} {content line ends : Bytes} {event : Dict} {hash : Str}
    (name : String) (whole : fragment content = []) (ok : DictOk host event)
    (encoded : encodeEvent host event = .ok line) (lineEnds : ∀ b ∈ ends, isLineEnd b = true)
    (stored : Members.get event (lit "event_hash") = some (.str hash)) :
    readLastEventHash host name (content ++ (line ++ ends)) = .ok (some hash) := by
  have solid := solid_encodeEvent encoded
  obtain ⟨trimmed, last⟩ := lastLine_written whole solid lineEnds
  have kept : ¬ content ++ line = [] := fun empty => solid.nonempty (List.append_eq_nil_iff.mp empty).2
  rw [readLastEventHash_eq, trimmed, if_neg kept, last,
    eventHashFromLine_of_decode (decodeLine_encodeEvent ok encoded) stored]
  rfl

end Tesera.Journal.Tail
