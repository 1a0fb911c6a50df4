import Tesera.Journal.Tail
import Tesera.Text.JsonPadding

/-!
The tail read and the forward scan. `_read_last_event_hash` takes what stands after the last
newline once the line ends at the end of the file are removed; the scan strips every line and
takes the last that is left. They differ where whitespace stands in the place of the last
line, and where whitespace that is not JSON's stands around it.
-/

namespace Tesera.Journal.TailScan
open Tesera.Text Tesera.Text.Unicode Tesera.Text.Lines Tesera.Text.JsonPadding
open Tesera.Python.Value Tesera.Python.JsonCodec Tesera.Journal.Record Tesera.Journal.Tail

/-- `_read_last_event_hash` with any first window. -/
def readLastEventHashFrom (window : Nat) (host : Host) (name : String) (content : Bytes) :
    Except PyError (Option Str) :=
  if content.length = 0 then .ok none
  else readWindows host name content (content.length + 1) window

theorem readLastEventHash_from (host : Host) (name : String) (content : Bytes) :
    readLastEventHash host name content = readLastEventHashFrom tailReadBytes host name content := rfl

/-- `_read_last_event_hash_scan`. -/
def readLastEventHashScan (host : Host) (name : String) (content : Bytes) : Except PyError (Option Str) :=
  match (records content).getLast? with
  | none => .ok none
  | some line => (eventHashFromLine host name line).map some

/-- Both return the same, or both raise a `JournalError`. -/
def SameAnswer (fast scan : Except PyError (Option Str)) : Prop :=
  (∃ hash, fast = .ok hash ∧ scan = .ok hash) ∨
    ∃ text other, fast = .error (.journalError text) ∧ scan = .error (.journalError other)

/-! ## Whitespace around a line -/

/-- The whitespace of JSON as bytes. -/
def WhiteBytes (space : Bytes) : Prop := ∀ b ∈ space, Json.isWs b.toNat = true

/-- Two decodings that differ at most in the text of a `ValueError`. -/
def SameDecode (a b : Except PyError Json) : Prop :=
  a = b ∨ ∃ text other, a = .error (.valueError text) ∧ b = .error (.valueError other)

theorem utf8Encode_toNat {bytes : Bytes} (ascii : ∀ b ∈ bytes, b.toNat < 128) :
    utf8Encode (bytes.map UInt8.toNat) = some bytes := by
  induction bytes with
  | nil => rfl
  | cons b bytes ih =>
    have one : utf8Encode [b.toNat] = some [b] := by
      rw [utf8Encode_ascii _ (ascii b List.mem_cons_self), UInt8.ofNat_toNat]
    exact utf8Encode_append one (ih (fun c member => ascii c (List.mem_cons_of_mem b member)))

theorem space_code {b : UInt8} (space : isSpace b = true) : JsonLocal.isSpaceChar b.toNat = true := by
  have here : b = 32 ∨ 9 ≤ b ∧ b ≤ 13 := by simpa [isSpace] using space
  apply isSpaceChar_iff.mpr
  rcases here with rfl | ⟨low, high⟩
  · exact Or.inl rfl
  · exact Or.inr ⟨UInt8.le_iff_toNat_le.mp low, UInt8.le_iff_toNat_le.mp high⟩

theorem spaces_of_blank {space : Bytes} (blank : Blank space) : Spaces (space.map UInt8.toNat) := by
  intro c member
  obtain ⟨b, inside, rfl⟩ := List.mem_map.mp member
  exact space_code (blank b inside)

theorem utf8Encode_of_blank {space : Bytes} (blank : Blank space) :
    utf8Encode (space.map UInt8.toNat) = some space := by
  apply utf8Encode_toNat
  intro b member
  have range := isSpaceChar_iff.mp (space_code (blank b member))
  omega

theorem white_iff {space : Bytes} : White (space.map UInt8.toNat) ↔ WhiteBytes space := by
  simp [White, WhiteBytes]

theorem plainEscapes_pyDialect (host : Host) : PlainEscapes (pyDialect host) := fun _ _ => rfl

/-- An ASCII byte in a text is a character of its own. -/
theorem utf8EncodeChar_of_ascii {c : Char} {b : UInt8} (ascii : b.toNat < 128)
    (member : b ∈ String.utf8EncodeChar c) : String.utf8EncodeChar c = [b] := by
  have value := ascii_of_mem_utf8EncodeChar ascii member
  have one : utf8Encode [c.toNat] = some (String.utf8EncodeChar c) := utf8Encode_eq_some.mpr ⟨[c], rfl, by simp⟩
  rw [value, utf8Encode_ascii _ ascii, UInt8.ofNat_toNat, Option.some.injEq] at one
  exact one.symm

theorem utf8Decode_cons {b : UInt8} {bytes : Bytes} {text : Str} (ascii : b.toNat < 128)
    (decoded : utf8Decode (b :: bytes) = some text) : ∃ rest, utf8Decode bytes = some rest := by
  obtain ⟨chars, -, flat⟩ := utf8Encode_eq_some.mp (utf8Encode_decode decoded)
  cases chars with
  | nil => cases flat
  | cons c chars =>
    rw [List.flatMap_cons] at flat
    obtain ⟨first, others, shape⟩ := List.exists_cons_of_ne_nil (String.utf8EncodeChar_ne_nil (c := c))
    rw [shape, List.cons_append] at flat
    have single := utf8EncodeChar_of_ascii (c := c) (b := b) ascii (by rw [shape]; simp [(List.cons.inj flat).1])
    rw [single] at shape
    cases shape
    exact ⟨_, (congrArg utf8Decode (List.cons.inj flat).2).symm.trans (utf8Decode_flatMap chars)⟩

theorem utf8Decode_concat {b : UInt8} {bytes : Bytes} {text : Str} (ascii : b.toNat < 128)
    (decoded : utf8Decode (bytes ++ [b]) = some text) : ∃ rest, utf8Decode bytes = some rest := by
  obtain ⟨chars, -, flat⟩ := utf8Encode_eq_some.mp (utf8Encode_decode decoded)
  cases chars using List.reverseRecOn with
  | nil => simp at flat
  | append_singleton chars c =>
    rw [List.flatMap_append, List.flatMap_singleton] at flat
    obtain ⟨others, last, shape⟩ := (List.eq_nil_or_concat _).resolve_left (String.utf8EncodeChar_ne_nil (c := c))
    rw [List.concat_eq_append] at shape
    rw [shape, ← List.append_assoc] at flat
    have same := List.append_inj' flat rfl
    have single := utf8EncodeChar_of_ascii (c := c) (b := b) ascii (by rw [shape, List.cons.inj same.2 |>.1]; simp)
    rw [single] at shape
    have nothing : others = [] := by
      cases others with
      | nil => rfl
      | cons d others => simp at shape
    rw [nothing, List.append_nil] at same
    exact ⟨_, (congrArg utf8Decode same.1).symm.trans (utf8Decode_flatMap chars)⟩

theorem ascii_of_blank {space : Bytes} (blank : Blank space) : ∀ b ∈ space, b.toNat < 128 := by
  intro b member
  have range := isSpaceChar_iff.mp (space_code (blank b member))
  omega

theorem utf8Decode_inner {front core back : Bytes} {text : Str} (asciiFront : ∀ b ∈ front, b.toNat < 128)
    (asciiBack : ∀ b ∈ back, b.toNat < 128) (decoded : utf8Decode (front ++ (core ++ back)) = some text) :
    ∃ inner, utf8Decode core = some inner := by
  have begins : ∃ inner, utf8Decode (core ++ back) = some inner := by
    induction front generalizing text with
    | nil => exact ⟨text, decoded⟩
    | cons b front ih =>
      obtain ⟨rest, inside⟩ := utf8Decode_cons (asciiFront b List.mem_cons_self) decoded
      exact ih (fun c member => asciiFront c (List.mem_cons_of_mem b member)) inside
  obtain ⟨inner, inside⟩ := begins
  clear decoded
  induction back using List.reverseRecOn generalizing inner with
  | nil => exact ⟨inner, by rwa [List.append_nil] at inside⟩
  | append_singleton back b ih =>
    rw [← List.append_assoc] at inside
    obtain ⟨rest, shorter⟩ := utf8Decode_concat (asciiBack b (by simp)) inside
    exact ih (fun c member => asciiBack c (List.mem_append_left _ member)) rest shorter

section Padded

variable (host : Host) {front back : Bytes} (blankFront : Blank front) (blankBack : Blank back) (core : Bytes)
include blankFront blankBack

theorem utf8Decode_padded : utf8Decode (front ++ (core ++ back)) = (utf8Decode core).map
    (fun text => front.map UInt8.toNat ++ (text ++ back.map UInt8.toNat)) := by
  cases decoded : utf8Decode core with
  | some text =>
    exact utf8Decode_encode (utf8Encode_append (utf8Encode_of_blank blankFront)
      (utf8Encode_append (utf8Encode_decode decoded) (utf8Encode_of_blank blankBack)))
  | none =>
    cases whole : utf8Decode (front ++ (core ++ back)) with
    | none => rfl
    | some text =>
      obtain ⟨inner, inside⟩ := utf8Decode_inner (ascii_of_blank blankFront) (ascii_of_blank blankBack) whole
      rw [decoded] at inside
      cases inside

/-- Between the whitespace of JSON a line decodes as without it. -/
theorem decodeLine_white (whiteFront : WhiteBytes front) (whiteBack : WhiteBytes back) :
    SameDecode (decodeLine host (front ++ (core ++ back))) (decodeLine host core) := by
  unfold decodeLine
  rw [utf8Decode_padded blankFront blankBack core]
  cases utf8Decode core with
  | none => exact Or.inr ⟨_, _, rfl, rfl⟩
  | some text =>
    have before := spaces_of_blank blankFront
    have after := spaces_of_blank blankBack
    have plain := plainEscapes_pyDialect host
    simp only [Option.map_some, loads, nesting_padded plain before after text, if_pos (white_iff.mpr whiteFront)]
    obtain ⟨parsed, -⟩ | ⟨-, odd⟩ := parse_padded plain before after text
    · rw [parsed]
      split_ifs
      · exact Or.inl rfl
      · cases Json.parse (pyDialect host) text with
        | none => exact Or.inr ⟨_, _, rfl, rfl⟩
        | some tree => exact Or.inl rfl
    · exact absurd ⟨white_iff.mpr whiteFront, white_iff.mpr whiteBack⟩ odd

/-- Other whitespace makes a line that does not decode; it nests too deeply only if the line
without it does. -/
theorem decodeLine_odd (odd : ¬ (WhiteBytes front ∧ WhiteBytes back)) :
    (∃ text, decodeLine host (front ++ (core ++ back)) = .error (.valueError text)) ∨
      decodeLine host (front ++ (core ++ back)) = .error .recursionError ∧
        decodeLine host core = .error .recursionError := by
  unfold decodeLine
  rw [utf8Decode_padded blankFront blankBack core]
  cases utf8Decode core with
  | none => exact Or.inl ⟨_, rfl⟩
  | some text =>
    have before := spaces_of_blank blankFront
    have after := spaces_of_blank blankBack
    have plain := plainEscapes_pyDialect host
    obtain ⟨-, white⟩ | ⟨nothing, -⟩ := parse_padded plain before after text
    · exact absurd ⟨white_iff.mp white.1, white_iff.mp white.2⟩ odd
    · simp only [Option.map_some, loads, nothing, nesting_padded plain before after text]
      by_cases white : White (front.map UInt8.toNat)
      · rw [if_pos white]
        split_ifs
        · exact Or.inr ⟨rfl, rfl⟩
        · exact Or.inl ⟨_, rfl⟩
      · rw [if_neg white, if_neg (Nat.not_lt_zero _)]
        exact Or.inl ⟨_, rfl⟩

end Padded

/-! ## The hash of one line -/

/-- The line decodes to an object, or fails with a `ValueError`; other values make the
subscript raise a `TypeError`, and a line that nests too deeply a `RecursionError`. -/
def Readable (host : Host) (line : Bytes) : Prop :=
  (∃ event, decodeLine host line = .ok (.dict event)) ∨ ∃ text, decodeLine host line = .error (.valueError text)

/-- The line decodes to an object with a string `event_hash`. -/
def HasHash (host : Host) (line : Bytes) : Prop :=
  ∃ event hash, decodeLine host line = .ok (.dict event) ∧ Members.get event (lit "event_hash") = some (.str hash)

theorem HasHash.readable {host : Host} {line : Bytes} (stored : HasHash host line) : Readable host line := by
  obtain ⟨event, hash, decoded, -⟩ := stored
  exact Or.inl ⟨event, decoded⟩

section OneLine

variable {host : Host} {name : String} {line : Bytes}

theorem eventHash_of_valueError {text : String} (decoded : decodeLine host line = .error (.valueError text)) :
    eventHashFromLine host name line = .error (corruptTail name) := by
  simp only [eventHashFromLine, decoded, PyError.isValueError, if_true]

theorem eventHash_of_recursionError (decoded : decodeLine host line = .error .recursionError) :
    eventHashFromLine host name line = .error .recursionError := by
  simp [eventHashFromLine, decoded, PyError.isValueError]

theorem eventHash_refused (readable : Readable host line) (absent : ¬ HasHash host line) :
    ∃ text, eventHashFromLine host name line = .error (.journalError text) := by
  obtain ⟨event, decoded⟩ | ⟨text, decoded⟩ := readable
  · unfold eventHashFromLine
    simp only [decoded]
    cases stored : Members.get event (lit "event_hash") with
    | none => exact ⟨_, rfl⟩
    | some value =>
      cases value with
      | str hash => exact absurd ⟨event, hash, decoded, stored⟩ absent
      | _ => exact ⟨_, rfl⟩
  · exact ⟨_, eventHash_of_valueError decoded⟩

theorem decodeLine_error {e : PyError} (decoded : decodeLine host line = .error e) :
    (∃ text, e = .valueError text) ∨ e = .recursionError := by
  unfold decodeLine at decoded
  cases utf8 : utf8Decode line with
  | none =>
    rw [utf8] at decoded
    cases decoded
    exact Or.inl ⟨_, rfl⟩
  | some text =>
    rw [utf8] at decoded
    simp only [loads] at decoded
    split_ifs at decoded
    · cases decoded
      exact Or.inr rfl
    · cases parsed : Json.parse (pyDialect host) text with
      | none =>
        rw [parsed] at decoded
        cases decoded
        exact Or.inl ⟨_, rfl⟩
      | some tree =>
        rw [parsed] at decoded
        cases decoded

/-- The line gives a hash or a `JournalError` exactly if it is readable. -/
theorem readable_iff : Readable host line ↔ (∃ hash, eventHashFromLine host name line = .ok hash) ∨
    ∃ text, eventHashFromLine host name line = .error (.journalError text) := by
  constructor
  · intro readable
    by_cases stored : HasHash host line
    · obtain ⟨event, hash, decoded, found⟩ := stored
      exact Or.inl ⟨hash, eventHashFromLine_of_decode decoded found⟩
    · exact Or.inr (eventHash_refused readable stored)
  · intro answered
    cases decoded : decodeLine host line with
    | error e =>
      obtain ⟨text, rfl⟩ | rfl := decodeLine_error decoded
      · exact Or.inr ⟨text, decoded⟩
      · rw [eventHash_of_recursionError decoded] at answered
        simp at answered
    | ok value =>
      cases value with
      | dict event => exact Or.inl ⟨event, decoded⟩
      | _ => simp [eventHashFromLine, decoded] at answered

/-- The answer of both readers, where the one reads a refused line and the other this one. -/
theorem sameAnswer_refused {text : String} :
    SameAnswer (.error (.journalError text)) ((eventHashFromLine host name line).map some) ↔
      Readable host line ∧ ¬ HasHash host line := by
  constructor
  · rintro (⟨hash, wrong, -⟩ | ⟨_, other, _, scanned⟩)
    · cases wrong
    · cases found : eventHashFromLine host name line with
      | ok hash =>
        rw [found] at scanned
        cases scanned
      | error e =>
        rw [found] at scanned
        cases scanned
        refine ⟨(@readable_iff host name line).mpr (Or.inr ⟨other, found⟩), ?_⟩
        rintro ⟨event, hash, decoded, stored⟩
        rw [eventHashFromLine_of_decode decoded stored] at found
        cases found
  · rintro ⟨readable, absent⟩
    obtain ⟨other, refused⟩ := @eventHash_refused host name line readable absent
    rw [refused]
    exact Or.inr ⟨text, other, rfl, rfl⟩

/-- The answer of both readers on lines that decode alike. -/
theorem sameAnswer_alike {other : Bytes} (alike : SameDecode (decodeLine host other) (decodeLine host line)) :
    SameAnswer ((eventHashFromLine host name other).map some) ((eventHashFromLine host name line).map some) ↔
      Readable host line := by
  have same : eventHashFromLine host name other = eventHashFromLine host name line := by
    obtain decoded | ⟨first, second, left, right⟩ := alike
    · simp only [eventHashFromLine, decoded]
    · rw [eventHash_of_valueError left, eventHash_of_valueError right]
  rw [same, @readable_iff host name line]
  cases found : eventHashFromLine host name line with
  | ok hash => exact iff_of_true (Or.inl ⟨some hash, rfl, rfl⟩) (Or.inl ⟨hash, rfl⟩)
  | error e =>
    constructor
    · rintro (⟨hash, wrong, -⟩ | ⟨text, -, refused, -⟩)
      · cases wrong
      · cases refused
        exact Or.inr ⟨text, rfl⟩
    · rintro (⟨hash, wrong⟩ | ⟨text, refused⟩)
      · cases wrong
      · cases refused
        exact Or.inr ⟨text, text, rfl, rfl⟩

end OneLine

/-! ## Whole files -/

/-- The whitespace before and after what `strip` leaves of a line. -/
def leading (line : Bytes) : Bytes := line.takeWhile isSpace

def trailing (line : Bytes) : Bytes := (line.dropWhile isSpace).rtakeWhile isSpace

theorem padded_strip (line : Bytes) : leading line ++ (strip line ++ trailing line) = line := by
  rw [leading, trailing, strip, List.rdropWhile_append_rtakeWhile, List.takeWhile_append_dropWhile]

theorem blank_leading (line : Bytes) : Blank (leading line) := fun _ member => List.mem_takeWhile_imp member

theorem blank_trailing (line : Bytes) : Blank (trailing line) := fun _ member => List.mem_rtakeWhile_imp member

/-- The record is all of the last line but for whitespace of JSON. -/
structure LastOf (content line : Bytes) : Prop where
  stripped : strip (lastLine content) = line
  before : WhiteBytes (leading (lastLine content))
  after : WhiteBytes (trailing (lastLine content))

/-- Both readers find the same: a file without records has nothing but line ends; the last
record is readable, and if it has a hash it stands on the last line. -/
structure Agreeing (host : Host) (content : Bytes) : Prop where
  none : records content = [] → ∀ b ∈ content, isLineEnd b = true
  last : ∀ line, (records content).getLast? = some line →
    Readable host line ∧ (HasHash host line → LastOf content line)

theorem decodeLine_blank {host : Host} {line : Bytes} (blank : Blank line) :
    ∃ text, decodeLine host line = .error (.valueError text) := by
  have nothing : decodeLine host [] = .error (.valueError (host.decodeError [])) := by
    have none : Json.parse (pyDialect host) [] = none := by
      simp [Json.parse, Json.parseValue, Json.skipWs]
    have flat : Json.nesting (pyDialect host) [] = 0 := by
      simp [Json.nesting, Json.deepest, Json.skipWs]
    have empty : utf8Decode [] = some [] := utf8Decode_encode rfl
    simp only [decodeLine, empty, loads, none, flat, if_neg (Nat.not_lt_zero _)]
  have whole : line ++ ([] ++ []) = line := by simp
  by_cases white : WhiteBytes line
  · have alike := decodeLine_white host blank blank_nil [] white (List.forall_mem_nil _)
    rw [whole, nothing] at alike
    obtain same | ⟨text, -, left, -⟩ := alike
    · exact ⟨_, same⟩
    · exact ⟨text, left⟩
  · have odd := decodeLine_odd host blank blank_nil [] (fun both => white both.1)
    rw [whole, nothing] at odd
    obtain refused | ⟨-, wrong⟩ := odd
    · exact refused
    · cases wrong

theorem not_blank_of_mem_records {content line : Bytes} (member : line ∈ records content) : line ≠ [] := by
  simpa using (List.mem_filter.mp member).2

theorem readLastEventHashFrom_eq (host : Host) (name : String) (content : Bytes) {window : Nat}
    (positive : 0 < window) : readLastEventHashFrom window host name content =
      if content.rdropWhile isLineEnd = [] then .ok none
      else (eventHashFromLine host name (lastLine content)).map some := by
  unfold readLastEventHashFrom
  split_ifs with nothing empty empty
  · rfl
  · rw [List.eq_nil_of_length_eq_zero nothing] at empty
    exact absurd rfl empty
  · rw [readWindows_eq host name content content.length window (by omega) positive, if_pos empty]
  · rw [readWindows_eq host name content content.length window (by omega) positive, if_neg empty]

/-- The tail read with any window and the forward scan give the same hash, or both raise a
`JournalError`, exactly if the file is one on which they agree. -/
theorem tail_agrees_iff (host : Host) (name : String) (content : Bytes) (window : Nat) (positive : 0 < window) :
    SameAnswer (readLastEventHashFrom window host name content) (readLastEventHashScan host name content) ↔
      Agreeing host content := by
  rw [readLastEventHashFrom_eq host name content positive]
  by_cases trimmed : content.rdropWhile isLineEnd = []
  · have ends : ∀ b ∈ content, isLineEnd b = true := fun b member => List.rdropWhile_eq_nil_iff.mp trimmed b member
    have nothing := records_of_blank (blank_of_lineEnds ends)
    rw [if_pos trimmed]
    apply iff_of_true
    · simp only [readLastEventHashScan, nothing]
      exact Or.inl ⟨none, rfl, rfl⟩
    · refine ⟨fun _ => ends, ?_⟩
      intro line last
      rw [nothing] at last
      cases last
  rw [if_neg trimmed]
  have notOnly : ¬ ∀ b ∈ content, isLineEnd b = true :=
    fun all => trimmed (List.rdropWhile_eq_nil_iff.mpr all)
  by_cases blank : Blank (lastLine content)
  · obtain ⟨text, refused⟩ := @decodeLine_blank host _ blank
    rw [eventHash_of_valueError refused]
    cases last : (records content).getLast? with
    | none =>
      have nothing := List.getLast?_eq_none_iff.mp last
      apply iff_of_false
      · simp only [readLastEventHashScan, last]
        rintro (⟨hash, wrong, -⟩ | ⟨_, _, _, wrong⟩)
        · cases wrong
        · cases wrong
      · exact fun agreeing => notOnly (agreeing.none nothing)
    | some line =>
      have kept := not_blank_of_mem_records (List.mem_of_getLast? last)
      have scanned : readLastEventHashScan host name content = (eventHashFromLine host name line).map some := by
        simp only [readLastEventHashScan, last]
      rw [scanned]
      refine sameAnswer_refused.trans ?_
      constructor
      · rintro ⟨readable, absent⟩
        refine ⟨?_, ?_⟩
        · intro nothing
          rw [nothing] at last
          cases last
        · intro other found
          rw [last, Option.some.injEq] at found
          subst found
          exact ⟨readable, fun stored => absurd stored absent⟩
      · intro agreeing
        obtain ⟨readable, alone⟩ := agreeing.last line last
        refine ⟨readable, fun stored => kept ?_⟩
        rw [← (alone stored).stripped]
        exact strip_eq_nil.mpr blank
  · obtain ⟨others, shape⟩ := records_lastLine blank
    have last : (records content).getLast? = some (strip (lastLine content)) := by
      rw [shape, List.getLast?_concat]
    have scanned : readLastEventHashScan host name content =
        (eventHashFromLine host name (strip (lastLine content))).map some := by
      simp only [readLastEventHashScan, last]
    have agrees : Agreeing host content ↔ Readable host (strip (lastLine content)) ∧
        (HasHash host (strip (lastLine content)) → WhiteBytes (leading (lastLine content)) ∧
          WhiteBytes (trailing (lastLine content))) := by
      constructor
      · intro agreeing
        obtain ⟨readable, alone⟩ := agreeing.last _ last
        exact ⟨readable, fun stored => ⟨(alone stored).before, (alone stored).after⟩⟩
      · rintro ⟨readable, alone⟩
        refine ⟨?_, ?_⟩
        · intro nothing
          rw [nothing] at last
          cases last
        · intro other found
          rw [last, Option.some.injEq] at found
          subst found
          exact ⟨readable, fun stored => ⟨rfl, (alone stored).1, (alone stored).2⟩⟩
    rw [scanned, agrees]
    have whole := padded_strip (lastLine content)
    by_cases white : WhiteBytes (leading (lastLine content)) ∧ WhiteBytes (trailing (lastLine content))
    · have alike := decodeLine_white host (blank_leading _) (blank_trailing _) (strip (lastLine content)) white.1 white.2
      rw [whole] at alike
      rw [sameAnswer_alike alike]
      exact ⟨fun readable => ⟨readable, fun _ => white⟩, fun both => both.1⟩
    · have odd := decodeLine_odd host (blank_leading _) (blank_trailing _) (strip (lastLine content)) white
      rw [whole] at odd
      obtain ⟨text, refused⟩ | ⟨deep, inner⟩ := odd
      · rw [eventHash_of_valueError refused]
        refine sameAnswer_refused.trans ?_
        exact ⟨fun both => ⟨both.1, fun stored => absurd stored both.2⟩,
          fun both => ⟨both.1, fun stored => white (both.2 stored)⟩⟩
      · rw [eventHash_of_recursionError deep]
        apply iff_of_false
        · rintro (⟨hash, wrong, -⟩ | ⟨_, _, wrong, _⟩)
          · cases wrong
          · cases wrong
        · rintro ⟨⟨event, decoded⟩ | ⟨text, decoded⟩, -⟩
          · rw [inner] at decoded
            cases decoded
          · rw [inner] at decoded
            cases decoded

def quietHost : Host := .plain id (fun _ => none)

theorem tail_agrees_iff_sample :
    SameAnswer (readLastEventHashFrom 1 quietHost "journal" []) (readLastEventHashScan quietHost "journal" []) ↔
      Agreeing quietHost [] :=
  tail_agrees_iff quietHost "journal" [] 1 (by decide)

/-- In a file with a single space the tail read finds a corrupt line, the scan no line. -/
theorem space_disagrees : ¬ ∀ (host : Host) (name : String) (content : Bytes) (window : Nat), 0 < window →
    SameAnswer (readLastEventHashFrom window host name content) (readLastEventHashScan host name content) := by
  intro all
  have answers := all quietHost "journal" [32] 1 (by decide)
  have blank : Blank [32] := by decide
  obtain ⟨text, refused⟩ := @decodeLine_blank quietHost [32] blank
  have scanned : readLastEventHashScan quietHost "journal" [32] = .ok none := by
    simp only [readLastEventHashScan, records_of_blank blank, List.getLast?_nil]
  have last : lastLine [32] = [32] := by decide
  rw [readLastEventHashFrom_eq quietHost "journal" [32] (by decide), if_neg (by decide), last,
    eventHash_of_valueError refused, scanned] at answers
  rcases answers with ⟨_, wrong, _⟩ | ⟨_, _, _, wrong⟩
  · cases wrong
  · cases wrong

end Tesera.Journal.TailScan
